import Tidal.Show
import Mathlib.Data.Nat.Digits.Lemmas

/-!
# Proofs: printed times

A printed time is read back up to where its whole part ends. A character of its own, or a superscript digit,
shows that. Where the fraction is written out, the digits of the whole part and of the numerator run together.
-/

namespace Tidal.Show

/-! ## Numerals -/

theorem isDigit_of_mem_numeral {n : ℕ} {c : Char} (h : c ∈ numeral n) : c.isDigit = true := by
  obtain ⟨x, hx, rfl⟩ := List.mem_map.mp h
  have hlt : x < 10 := Nat.digits_lt_base (by norm_num) (List.mem_reverse.mp hx)
  rw [Nat.isDigit_digitChar]
  exact decide_eq_true hlt

/-- The number that is written with the given digits. -/
def value (l : List Char) : ℕ := Nat.ofDigits 10 (l.reverse.map fun c => c.toNat - 48)

theorem value_numeral (n : ℕ) : value (numeral n) = n := by
  have hread : ∀ x ∈ Nat.digits 10 n, (x.digitChar).toNat - 48 = x := by
    intro x hx
    have hlt : x < 10 := Nat.digits_lt_base (by norm_num) hx
    interval_cases x <;> rfl
  unfold value numeral
  rw [← List.map_reverse, List.reverse_reverse, List.map_map]
  calc Nat.ofDigits 10 _ = Nat.ofDigits 10 ((Nat.digits 10 n).map id) :=
        congrArg _ (List.map_congr_left hread)
    _ = n := by rw [List.map_id, Nat.ofDigits_digits]

theorem numeral_inj {m n : ℕ} : numeral m = numeral n ↔ m = n := by
  refine ⟨fun h => ?_, congrArg _⟩
  rw [← value_numeral m, h, value_numeral]

theorem numeral_zero : numeral 0 = [] := rfl

theorem numeral_ne_nil {n : ℕ} (hn : n ≠ 0) : numeral n ≠ [] := by
  rw [← numeral_zero]
  exact fun h => hn (numeral_inj.mp h)

/-- Numerals written one after the other. -/
theorem numeral_append (m n : ℕ) :
    numeral m ++ numeral n = numeral (n + 10 ^ (Nat.digits 10 n).length * m) := by
  rw [numeral, numeral, numeral, ← List.map_append, ← List.reverse_append,
    Nat.digits_append_digits (by norm_num)]

/-! ## Signed numbers -/

def sign (z : ℤ) : List Char := if z < 0 then ['-'] else []

/-- Characters of a signed number. -/
def isSigned (c : Char) : Bool := c.isDigit || c == '-'

theorem showInt_zero : showInt 0 = ['0'] := rfl

theorem showInt_of_ne {z : ℤ} (hz : z ≠ 0) : showInt z = sign z ++ numeral z.natAbs := by
  rw [showInt, if_neg hz]
  rfl

/-- A list is cut where its elements cease to satisfy `f`. -/
theorem append_inj_of_cut {α : Type} {f : α → Bool} {l l' t t' : List α} (hl : ∀ c ∈ l, f c)
    (hl' : ∀ c ∈ l', f c) (ht : ∀ c ∈ t.head?, ¬f c) (ht' : ∀ c ∈ t'.head?, ¬f c) :
    l ++ t = l' ++ t' ↔ l = l' ∧ t = t' := by
  have hstop : ∀ {u : List α}, (∀ c ∈ u.head?, ¬f c) → u.takeWhile f = [] := by
    intro u hu
    cases u with
    | nil => rfl
    | cons c u => exact List.takeWhile_cons_of_neg (hu c rfl)
  refine ⟨fun h => ?_, fun h => by rw [h.1, h.2]⟩
  have hlead := congrArg (List.takeWhile f) h
  rw [List.takeWhile_append_of_pos hl, List.takeWhile_append_of_pos hl', hstop ht, hstop ht', List.append_nil,
    List.append_nil] at hlead
  subst hlead
  exact ⟨rfl, List.append_cancel_left h⟩

theorem isSigned_of_isDigit {c : Char} (h : c.isDigit = true) : isSigned c = true := by
  rw [isSigned, h, Bool.true_or]

theorem isSigned_of_mem_sign {z : ℤ} {c : Char} (h : c ∈ sign z) : isSigned c = true := by
  unfold sign at h
  split_ifs at h
  · rw [List.mem_singleton.mp h]
    rfl
  · cases h

theorem isSigned_of_mem_showInt {z : ℤ} {c : Char} (h : c ∈ showInt z) : isSigned c = true := by
  by_cases hz : z = 0
  · rw [hz, showInt_zero, List.mem_singleton] at h
    rw [h]
    rfl
  · rw [showInt_of_ne hz] at h
    rcases List.mem_append.mp h with h | h
    · exact isSigned_of_mem_sign h
    · exact isSigned_of_isDigit (isDigit_of_mem_numeral h)

/-- The sign is told apart from digits. -/
theorem sign_append_inj {z z' : ℤ} {l l' : List Char} (hl : ∀ c ∈ l, c.isDigit = true)
    (hl' : ∀ c ∈ l', c.isDigit = true) : sign z ++ l = sign z' ++ l' ↔ (z < 0 ↔ z' < 0) ∧ l = l' := by
  have hminus : ∀ {u v : List Char}, (∀ c ∈ v, c.isDigit = true) → '-' :: u ≠ v := by
    rintro u v hv rfl
    exact absurd (hv '-' (List.mem_cons_self ..)) (by decide)
  unfold sign
  by_cases hz : z < 0
  · by_cases hz' : z' < 0
    · simp [hz, hz']
    · rw [if_pos hz, if_neg hz']
      exact iff_of_false (hminus hl') fun h => hz' (h.1.mp hz)
  · by_cases hz' : z' < 0
    · rw [if_neg hz, if_pos hz']
      exact iff_of_false (fun h => hminus hl h.symm) fun h => hz (h.1.mpr hz')
    · simp [hz, hz']

theorem showInt_ne_nil (z : ℤ) : showInt z ≠ [] := by
  by_cases hz : z = 0
  · rw [hz, showInt_zero]
    exact List.cons_ne_nil _ _
  · rw [showInt_of_ne hz]
    exact List.append_ne_nil_of_right_ne_nil _ (numeral_ne_nil (Int.natAbs_ne_zero.mpr hz))

theorem eq_of_natAbs_of_sign {z z' : ℤ} (h : z.natAbs = z'.natAbs) (hs : z < 0 ↔ z' < 0) : z = z' := by
  omega

theorem showInt_inj {z z' : ℤ} : showInt z = showInt z' ↔ z = z' := by
  refine ⟨fun h => ?_, congrArg _⟩
  have hdigits : ∀ z : ℤ, ∀ c ∈ (if z = 0 then ['0'] else numeral z.natAbs), c.isDigit = true := by
    intro z c hc
    split_ifs at hc
    · rw [List.mem_singleton.mp hc]
      rfl
    · exact isDigit_of_mem_numeral hc
  have hvalue (z : ℤ) : value (if z = 0 then ['0'] else numeral z.natAbs) = z.natAbs := by
    split_ifs with hz
    · rw [hz]
      rfl
    · exact value_numeral _
  obtain ⟨hsign, hbody⟩ := (sign_append_inj (hdigits z) (hdigits z')).mp h
  have habs := congrArg value hbody
  rw [hvalue, hvalue] at habs
  exact eq_of_natAbs_of_sign habs hsign

/-! ## Fractions -/

/-- What is written with digits on the line: a numerator or denominator that is not a single digit, unless
the fraction has a character. -/
def Plain (n d : ℤ) : Prop :=
  n ≠ 0 ∧ ¬(0 ≤ n ∧ n ≤ 9 ∧ 0 ≤ d ∧ d ≤ 9) ∧ ¬(n = 1 ∧ d = 10)

instance (n d : ℤ) : Decidable (Plain n d) := inferInstanceAs (Decidable (_ ∧ _))

/-- The fractions that are neither zero nor written with digits on the line. -/
def ornate : List (ℤ × ℤ) :=
  (1, 10) :: ((List.range 9).map fun i : ℕ => (i + 1 : ℤ)).product ((List.range 10).map fun i : ℕ => (i + 0 : ℤ))

theorem showFrac_zero (d : ℤ) : showFrac 0 d = [] := rfl

theorem mem_ornate_iff {n d : ℤ} :
    (n, d) ∈ ornate ↔ n = 1 ∧ d = 10 ∨ (1 ≤ n ∧ n ≤ 9) ∧ 0 ≤ d ∧ d ≤ 9 := by
  have hrange (m : ℕ) {k z : ℤ} : z ∈ (List.range m).map (fun i : ℕ => (i + k : ℤ)) ↔ k ≤ z ∧ z < m + k := by
    rw [List.mem_map]
    constructor
    · rintro ⟨i, hi, rfl⟩
      have hlt := List.mem_range.mp hi
      omega
    · intro h
      exact ⟨(z - k).toNat, List.mem_range.mpr (by omega), by omega⟩
  rw [ornate, List.mem_cons, List.pair_mem_product, hrange, hrange, Prod.mk.injEq]
  push_cast
  omega

theorem mem_ornate {n d : ℤ} (hn : n ≠ 0) (h : ¬Plain n d) : (n, d) ∈ ornate := by
  unfold Plain at h
  rw [mem_ornate_iff]
  by_contra hnot
  exact h ⟨hn, by omega, by omega⟩

theorem lookup_eq_none {β : Type} {table : List (ℤ × β)} (htable : ∀ x ∈ table, 0 ≤ x.1 ∧ x.1 ≤ 9) {z : ℤ}
    (hz : ¬(0 ≤ z ∧ z ≤ 9)) : table.lookup z = none := by
  rw [List.lookup_eq_none_iff]
  rintro x hx
  refine bne_iff_ne.mpr fun heq => hz ?_
  rw [heq]
  exact htable x hx

theorem showFrac_plain {n d : ℤ} (h : Plain n d) : showFrac n d = plain n d := by
  obtain ⟨hn, hdigits, hten⟩ := h
  have hvulgar : vulgar.lookup (n, d) = none := by
    rw [List.lookup_eq_none_iff]
    have htable : ∀ x ∈ vulgar, x.1.1 = 1 ∧ x.1.2 = 10 ∨ 0 ≤ x.1.1 ∧ x.1.1 ≤ 9 ∧ 0 ≤ x.1.2 ∧ x.1.2 ≤ 9 := by
      decide
    intro x hx
    refine bne_iff_ne.mpr fun heq => ?_
    have hx' := htable x hx
    rw [← heq] at hx'
    omega
  have hscripts : scripts n d = none := by
    unfold scripts up down
    by_cases hn9 : 0 ≤ n ∧ n ≤ 9
    · have hd : subscripts.lookup d = none := lookup_eq_none (by decide) (by omega)
      rw [hd]
      cases superscripts.lookup n <;> rfl
    · rw [lookup_eq_none (by decide) hn9]
      rfl
  rw [showFrac, if_neg hn, hvulgar, hscripts]
  rfl

theorem ornate_all : (ornate.all fun x => !(showFrac x.1 x.2).isEmpty &&
    (showFrac x.1 x.2).all fun c => !isSigned c && c != '/' && c != '>') = true := by decide

theorem nodup_ornate : (ornate.map fun x => showFrac x.1 x.2).Nodup := by decide

theorem ornate_ne_nil {n d : ℤ} (h : (n, d) ∈ ornate) : showFrac n d ≠ [] := by
  have hall := List.all_eq_true.mp ornate_all _ h
  simp only [Bool.and_eq_true] at hall
  simpa using hall.1

theorem ornate_chars {n d : ℤ} (h : (n, d) ∈ ornate) {c : Char} (hc : c ∈ showFrac n d) :
    isSigned c = false ∧ c ≠ '/' ∧ c ≠ '>' := by
  have hall := List.all_eq_true.mp ornate_all _ h
  simp only [Bool.and_eq_true] at hall
  simpa [and_assoc] using List.all_eq_true.mp hall.2 c hc

theorem ornate_inj {n d n' d' : ℤ} (h : (n, d) ∈ ornate) (h' : (n', d') ∈ ornate)
    (heq : showFrac n d = showFrac n' d') : n = n' ∧ d = d' :=
  Prod.mk.inj (List.inj_on_of_nodup_map nodup_ornate h h' heq)

/-! ## Whole part and fraction -/

/-- The whole part as it is printed before a fraction with numerator `n`. -/
def wholeText (u n : ℤ) : List Char := if u = 0 ∧ 0 < n then [] else showInt u

theorem isSigned_of_mem_wholeText {u n : ℤ} {c : Char} (h : c ∈ wholeText u n) : isSigned c = true := by
  unfold wholeText at h
  split_ifs at h
  · cases h
  · exact isSigned_of_mem_showInt h

theorem wholeText_inj {u u' n n' : ℤ} (hn : 0 < n ↔ 0 < n') : wholeText u n = wholeText u' n' ↔ u = u' := by
  unfold wholeText
  by_cases hu : u = 0 ∧ 0 < n
  · by_cases hu' : u' = 0 ∧ 0 < n'
    · rw [if_pos hu, if_pos hu', hu.1, hu'.1]
      exact iff_of_true rfl rfl
    · rw [if_pos hu, if_neg hu']
      refine iff_of_false (showInt_ne_nil u').symm fun h => hu' ⟨h ▸ hu.1, hn.mp hu.2⟩
  · by_cases hu' : u' = 0 ∧ 0 < n'
    · rw [if_neg hu, if_pos hu']
      exact iff_of_false (showInt_ne_nil u) fun h => hu ⟨h ▸ hu'.1, hn.mpr hu'.2⟩
    · rw [if_neg hu, if_neg hu', showInt_inj]

/-- The number whose digits are those of the whole part and of the numerator. -/
def run (u n : ℤ) : ℕ := n.natAbs + 10 ^ (Nat.digits 10 n.natAbs).length * u.natAbs

/-- The whole part and a positive numerator run together. -/
theorem lead_pos (u : ℤ) {n : ℤ} (hn : 0 < n) : wholeText u n ++ showInt n = sign u ++ numeral (run u n) := by
  have hsign : sign n = [] := if_neg hn.not_gt
  have htext : wholeText u n = sign u ++ numeral u.natAbs := by
    unfold wholeText
    by_cases hu : u = 0
    · rw [if_pos ⟨hu, hn⟩, hu]
      rfl
    · rw [if_neg fun h => hu h.1, showInt_of_ne hu]
  rw [htext, showInt_of_ne hn.ne', hsign, List.nil_append, List.append_assoc, numeral_append]
  rfl

/-- A negative numerator keeps them apart. -/
theorem lead_neg (u : ℤ) {n : ℤ} (hn : n < 0) :
    wholeText u n ++ showInt n = showInt u ++ '-' :: numeral n.natAbs := by
  have hsign : sign n = ['-'] := if_pos hn
  rw [wholeText, if_neg fun h => absurd h.2 hn.not_gt, showInt_of_ne hn.ne, hsign]
  rfl

theorem reverse_minus (l : List Char) (k : ℕ) :
    (l ++ '-' :: numeral k).reverse = (numeral k).reverse ++ '-' :: l.reverse := by
  rw [List.reverse_append, List.reverse_cons, List.append_assoc]
  rfl

theorem isDigit_of_mem_reverse {k : ℕ} {c : Char} (h : c ∈ (numeral k).reverse) : c.isDigit = true :=
  isDigit_of_mem_numeral (List.mem_reverse.mp h)

theorem not_isDigit_minus (l : List Char) : ∀ c ∈ ('-' :: l).head?, ¬c.isDigit = true := by
  rintro c ⟨⟩
  decide

theorem lead_neg_inj {u u' n n' : ℤ} (hn : n < 0) (hn' : n' < 0) :
    wholeText u n ++ showInt n = wholeText u' n' ++ showInt n' ↔ u = u' ∧ n = n' := by
  rw [lead_neg u hn, lead_neg u' hn', ← List.reverse_inj, reverse_minus, reverse_minus,
    append_inj_of_cut (fun _ => isDigit_of_mem_reverse) (fun _ => isDigit_of_mem_reverse) (not_isDigit_minus _)
      (not_isDigit_minus _), List.reverse_inj, numeral_inj, List.cons_inj_right, List.reverse_inj, showInt_inj]
  omega

theorem lead_neg_ne_pos {u u' n n' : ℤ} (hn : n < 0) (hn' : 0 < n') :
    wholeText u n ++ showInt n ≠ wholeText u' n' ++ showInt n' := by
  have hsign : ∀ c ∈ (sign u').reverse.head?, ¬c.isDigit = true := by
    unfold sign
    split_ifs
    · exact not_isDigit_minus []
    · rintro c ⟨⟩
  rw [lead_neg u hn, lead_pos u' hn', Ne, ← List.reverse_inj, reverse_minus, List.reverse_append,
    append_inj_of_cut (fun _ => isDigit_of_mem_reverse) (fun _ => isDigit_of_mem_reverse) (not_isDigit_minus _)
      hsign]
  rintro ⟨_, hrest⟩
  -- before the sign of the numerator there is a number, before that of the whole part there is nothing
  have hlen := congrArg List.length hrest
  have hpos := List.length_pos_iff.mpr (showInt_ne_nil u)
  have hshort : (sign u').length ≤ 1 := by
    unfold sign
    split_ifs <;> simp
  simp only [List.length_cons, List.length_reverse] at hlen
  omega

theorem lead_pos_inj {u u' n n' : ℤ} (hn : 0 < n) (hn' : 0 < n') :
    wholeText u n ++ showInt n = wholeText u' n' ++ showInt n' ↔ (u < 0 ↔ u' < 0) ∧ run u n = run u' n' := by
  rw [lead_pos u hn, lead_pos u' hn', sign_append_inj (fun _ => isDigit_of_mem_numeral)
    (fun _ => isDigit_of_mem_numeral), numeral_inj]

/-- A number as it is printed, in parts. -/
def printed (u n d : ℤ) : List Char := wholeText u n ++ showFrac n d

/-- What is printed up to the first character that is no digit and no sign. -/
def lead (u n d : ℤ) : List Char := if Plain n d then wholeText u n ++ showInt n else wholeText u n

def rest (n d : ℤ) : List Char := if Plain n d then '/' :: showInt d else showFrac n d

theorem printed_eq (u n d : ℤ) : printed u n d = lead u n d ++ rest n d := by
  unfold printed lead rest
  split_ifs with h
  · rw [showFrac_plain h, plain, List.append_assoc]
  · rfl

theorem isSigned_of_mem_lead {u n d : ℤ} {c : Char} (h : c ∈ lead u n d) : isSigned c = true := by
  unfold lead at h
  split_ifs at h
  · exact (List.mem_append.mp h).elim isSigned_of_mem_wholeText isSigned_of_mem_showInt
  · exact isSigned_of_mem_wholeText h

theorem rest_head {n d : ℤ} : ∀ c ∈ (rest n d).head?, ¬isSigned c = true := by
  intro c hc
  unfold rest at hc
  split_ifs at hc with h
  · cases hc
    decide
  · by_cases hn : n = 0
    · rw [hn, showFrac_zero] at hc
      cases hc
    · rw [(ornate_chars (mem_ornate hn h) (List.mem_of_mem_head? hc)).1]
      exact Bool.false_ne_true

theorem printed_inj {u n d u' n' d' : ℤ} :
    printed u n d = printed u' n' d' ↔ lead u n d = lead u' n' d' ∧ rest n d = rest n' d' := by
  rw [printed_eq, printed_eq]
  exact append_inj_of_cut (fun _ => isSigned_of_mem_lead) (fun _ => isSigned_of_mem_lead) rest_head rest_head

theorem not_plain_zero (d : ℤ) : ¬Plain 0 d := fun h => h.1 rfl

theorem rest_zero (d : ℤ) : rest 0 d = [] := by
  rw [rest, if_neg (not_plain_zero d), showFrac_zero]

theorem not_plain_ornate {n d : ℤ} (h : (n, d) ∈ ornate) : ¬Plain n d := by
  have hbounds := mem_ornate_iff.mp h
  unfold Plain
  omega

theorem rest_ornate {n d : ℤ} (h : (n, d) ∈ ornate) : rest n d = showFrac n d := if_neg (not_plain_ornate h)

theorem rest_eq_nil_iff {n d : ℤ} : rest n d = [] ↔ n = 0 := by
  refine ⟨fun h => ?_, fun h => h ▸ rest_zero d⟩
  by_contra hn
  by_cases hplain : Plain n d
  · rw [rest, if_pos hplain] at h
    cases h
  · have hornate := mem_ornate hn hplain
    rw [rest_ornate hornate] at h
    exact ornate_ne_nil hornate h

theorem rest_head_iff {n d : ℤ} : (rest n d).head? = some '/' ↔ Plain n d := by
  refine ⟨fun h => ?_, fun h => by rw [rest, if_pos h]; rfl⟩
  by_contra hplain
  by_cases hn : n = 0
  · rw [hn, rest_zero] at h
    cases h
  · have hornate := mem_ornate hn hplain
    rw [rest_ornate hornate] at h
    exact (ornate_chars hornate (List.mem_of_mem_head? h)).2.1 rfl

/-- What is left of the text tells which of the rules wrote the fraction. -/
theorem rest_inj {n d n' d' : ℤ} : rest n d = rest n' d' ↔
    n = 0 ∧ n' = 0 ∨ ((n, d) ∈ ornate ∧ n = n' ∧ d = d') ∨ Plain n d ∧ Plain n' d' ∧ d = d' := by
  constructor
  · intro h
    by_cases hn : n = 0
    · exact .inl ⟨hn, rest_eq_nil_iff.mp (h ▸ rest_eq_nil_iff.mpr hn)⟩
    have hn' : n' ≠ 0 := fun hn' => hn (rest_eq_nil_iff.mp (h.trans (rest_eq_nil_iff.mpr hn')))
    by_cases hplain : Plain n d
    · have hplain' : Plain n' d' := rest_head_iff.mp (h ▸ rest_head_iff.mpr hplain)
      rw [rest, rest, if_pos hplain, if_pos hplain', List.cons_inj_right, showInt_inj] at h
      exact .inr (.inr ⟨hplain, hplain', h⟩)
    · have hplain' : ¬Plain n' d' := fun h' => hplain (rest_head_iff.mp (h ▸ rest_head_iff.mpr h'))
      have hornate := mem_ornate hn hplain
      have hornate' := mem_ornate hn' hplain'
      rw [rest_ornate hornate, rest_ornate hornate'] at h
      exact .inr (.inl ⟨hornate, ornate_inj hornate hornate' h⟩)
  · rintro (⟨rfl, rfl⟩ | ⟨_, rfl, rfl⟩ | ⟨hplain, hplain', rfl⟩)
    · rw [rest_zero, rest_zero]
    · rfl
    · rw [rest, rest, if_pos hplain, if_pos hplain']

theorem lead_zero (u d : ℤ) : lead u 0 d = wholeText u 0 := if_neg (not_plain_zero d)

theorem lead_plain_inj {u u' n n' d : ℤ} (h : Plain n d) (h' : Plain n' d) : lead u n d = lead u' n' d ↔
    u = u' ∧ n = n' ∨ (0 < n ∧ 0 < n') ∧ (u < 0 ↔ u' < 0) ∧ run u n = run u' n' := by
  rw [lead, lead, if_pos h, if_pos h']
  rcases lt_or_gt_of_ne h.1 with hn | hn
  · rcases lt_or_gt_of_ne h'.1 with hn' | hn'
    · rw [lead_neg_inj hn hn', or_iff_left fun h => absurd h.1.1 hn.not_gt]
    · refine iff_of_false (lead_neg_ne_pos hn hn') ?_
      rintro (⟨_, rfl⟩ | ⟨⟨hpos, _⟩, _⟩) <;> omega
  · rcases lt_or_gt_of_ne h'.1 with hn' | hn'
    · refine iff_of_false (lead_neg_ne_pos hn' hn).symm ?_
      rintro (⟨_, rfl⟩ | ⟨⟨_, hpos⟩, _⟩) <;> omega
    · rw [lead_pos_inj hn hn']
      refine ⟨fun hrun => .inr ⟨⟨hn, hn'⟩, hrun⟩, ?_⟩
      rintro (⟨rfl, rfl⟩ | ⟨_, hrun⟩)
      · exact ⟨Iff.rfl, rfl⟩
      · exact hrun

/-- Different whole parts or fractions look the same only if both fractions are plain and positive. -/
theorem printed_eq_iff {u n d u' n' d' : ℤ} : printed u n d = printed u' n' d' ↔
    (u = u' ∧ n = n' ∧ (n = 0 ∨ d = d')) ∨
      (Plain n d ∧ Plain n' d' ∧ d = d') ∧ (0 < n ∧ 0 < n') ∧ (u < 0 ↔ u' < 0) ∧ run u n = run u' n' := by
  rw [printed_inj]
  constructor
  · rintro ⟨hlead, hrest⟩
    rcases rest_inj.mp hrest with ⟨rfl, rfl⟩ | ⟨hornate, rfl, rfl⟩ | ⟨hplain, hplain', rfl⟩
    · rw [lead_zero, lead_zero, wholeText_inj Iff.rfl] at hlead
      exact .inl ⟨hlead, rfl, .inl rfl⟩
    · have hnot := not_plain_ornate hornate
      rw [lead, lead, if_neg hnot, if_neg hnot, wholeText_inj Iff.rfl] at hlead
      exact .inl ⟨hlead, rfl, .inr rfl⟩
    · rcases (lead_plain_inj hplain hplain').mp hlead with ⟨rfl, rfl⟩ | hrun
      · exact .inl ⟨rfl, rfl, .inr rfl⟩
      · exact .inr ⟨⟨hplain, hplain', rfl⟩, hrun⟩
  · rintro (⟨rfl, rfl, rfl | rfl⟩ | ⟨⟨hplain, hplain', rfl⟩, hpos, hrun⟩)
    · rw [lead_zero, lead_zero, rest_zero, rest_zero]
      exact ⟨rfl, rfl⟩
    · exact ⟨rfl, rfl⟩
    · exact ⟨(lead_plain_inj hplain hplain').mpr (.inr ⟨hpos, hrun⟩), rest_inj.mpr (.inr (.inr ⟨hplain, hplain', rfl⟩))⟩

/-! ## Rationals -/

theorem prettyRat_eq (r : ℚ) : prettyRat r = printed (unit r) (frac r).num (frac r).den := by
  unfold prettyRat printed wholeText
  by_cases h : unit r = 0 ∧ 0 < frac r
  · rw [if_pos h, if_pos ⟨h.1, Rat.num_pos.mpr h.2⟩]
    rfl
  · rw [if_neg h, if_neg fun h' => h ⟨h'.1, Rat.num_pos.mp h'.2⟩]

theorem eq_iff_parts {q r : ℚ} : q = r ↔ unit q = unit r ∧ (frac q).num = (frac r).num ∧
    ((frac q).num = 0 ∨ ((frac q).den : ℤ) = (frac r).den) := by
  refine ⟨fun h => by subst h; exact ⟨rfl, rfl, .inr rfl⟩, fun ⟨hunit, hnum, hden⟩ => ?_⟩
  have hfrac : frac q = frac r := by
    rcases hden with hzero | hden
    · rw [Rat.num_eq_zero.mp hzero, Rat.num_eq_zero.mp (hnum.symm.trans hzero)]
    · exact Rat.ext hnum (by exact_mod_cast hden)
  have hq : q = unit q + frac q := by rw [frac, add_sub_cancel]
  have hr : r = unit r + frac r := by rw [frac, add_sub_cancel]
  rw [hq, hr, hunit, hfrac]

/-- Both fractions are written with digits on the line and over the same denominator, and what is in front
of it reads as the same number. -/
structure Blurred (q r : ℚ) : Prop where
  plain : Plain (frac q).num (frac q).den ∧ Plain (frac r).num (frac r).den
  den : (frac q).den = (frac r).den
  pos : 0 < frac q ∧ 0 < frac r
  sign : unit q < 0 ↔ unit r < 0
  run : run (unit q) (frac q).num = run (unit r) (frac r).num

theorem prettyRat_ne_iff {q r : ℚ} (hqr : q ≠ r) : prettyRat q ≠ prettyRat r ↔ ¬Blurred q r := by
  rw [prettyRat_eq, prettyRat_eq, Ne, printed_eq_iff, ← eq_iff_parts, or_iff_right hqr, not_iff_not,
    Rat.num_pos, Rat.num_pos]
  constructor
  · rintro ⟨⟨hq, hr, hden⟩, hpos, hsign, hrun⟩
    exact ⟨⟨hq, hr⟩, by exact_mod_cast hden, hpos, hsign, hrun⟩
  · intro h
    exact ⟨⟨h.plain.1, h.plain.2, by exact_mod_cast h.den⟩, h.pos, h.sign, h.run⟩

theorem prettyRat_ne_halves : prettyRat (1 / 2) ≠ prettyRat (3 / 2) :=
  (prettyRat_ne_iff (by norm_num)).mpr fun h => absurd h.plain.1 (by with_unfolding_all decide)

/-- 1 and 12/13 look like 11 and 2/13. -/
theorem prettyRat_blurred : (25 / 13 : ℚ) ≠ 145 / 13 ∧ prettyRat (25 / 13) = prettyRat (145 / 13) := by
  with_unfolding_all decide

/-! ## Arcs -/

theorem not_mem_of_isSigned {l : List Char} (hl : ∀ c ∈ l, isSigned c = true) : '>' ∉ l := fun h =>
  absurd (hl _ h) (by decide)

theorem not_mem_prettyRat (r : ℚ) : '>' ∉ prettyRat r := by
  have hrest (n d : ℤ) : '>' ∉ rest n d := by
    by_cases hn : n = 0
    · rw [hn, rest_zero]
      exact List.not_mem_nil
    by_cases hplain : Plain n d
    · rw [rest, if_pos hplain, List.mem_cons]
      rintro (h | h)
      · exact absurd h (by decide)
      · exact not_mem_of_isSigned (fun _ => isSigned_of_mem_showInt) h
    · have hornate := mem_ornate hn hplain
      rw [rest_ornate hornate]
      exact fun h => (ornate_chars hornate h).2.2 rfl
  rw [prettyRat_eq, printed_eq, List.mem_append]
  rintro (h | h)
  · exact not_mem_of_isSigned (fun _ => isSigned_of_mem_lead) h
  · exact hrest _ _ h

/-- The boundaries of an arc are told apart, and each is as clear as it is alone. -/
theorem showArc_eq_iff {a b : Arc} : showArc a = showArc b ↔
    prettyRat a.start = prettyRat b.start ∧ prettyRat a.stop = prettyRat b.stop := by
  unfold showArc
  rw [List.append_cons_inj_of_notMem (not_mem_prettyRat _) (not_mem_prettyRat _), and_iff_right rfl]

end Tidal.Show
