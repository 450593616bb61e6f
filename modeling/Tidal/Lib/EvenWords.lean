import Mathlib

/-!
# Evenly spread words over two letters

A word is spread if no prefix runs far ahead of the overall proportion of its letters, compared with any
other prefix. The two substitutions that write one letter as both letters and the other as one of them keep
words spread; in a spread word, read around a circle, all windows of one length hold the same number of
trues up to one.
-/

namespace EvenWords

/-- How far a word is ahead of the proportion of `t` trues to `f` falses. -/
def ahead (t f : ℕ) (w : List Bool) : ℤ := f * w.count true - t * w.count false

@[simp] theorem ahead_nil (t f : ℕ) : ahead t f [] = 0 := by simp [ahead]

@[simp] theorem ahead_append (t f : ℕ) (w w' : List Bool) :
    ahead t f (w ++ w') = ahead t f w + ahead t f w' := by
  simp only [ahead, List.count_append]
  push_cast
  ring

@[simp] theorem ahead_true (t f : ℕ) : ahead t f [true] = f := by simp [ahead]

theorem ahead_replicate_true (t f m : ℕ) : ahead t f (List.replicate m true) = f * m := by
  simp [ahead, List.count_replicate]

theorem ahead_replicate_false (t f m : ℕ) : ahead t f (List.replicate m false) = -(t * m) := by
  simp [ahead, List.count_replicate]

theorem count_add_count (w : List Bool) : w.count true + w.count false = w.length := by
  induction w with
  | nil => rfl
  | cons b w ih => cases b <;> simp <;> omega

/-- No two prefixes of the word are further apart than the word is long. -/
def Spread (w : List Bool) : Prop :=
  ∀ p q, p <+: w → q <+: w →
    ahead (w.count true) (w.count false) p - ahead (w.count true) (w.count false) q < w.length

/-- The word with `x` written for true and `y` for false. -/
def subst {α : Type*} (x y : List α) (w : List Bool) : List α := w.flatMap fun b => if b then x else y

@[simp] theorem subst_nil {α : Type*} (x y : List α) : subst x y [] = [] := rfl

@[simp] theorem subst_cons_true {α : Type*} (x y : List α) (w : List Bool) :
    subst x y (true :: w) = x ++ subst x y w := rfl

@[simp] theorem subst_cons_false {α : Type*} (x y : List α) (w : List Bool) :
    subst x y (false :: w) = y ++ subst x y w := rfl

theorem subst_append {α : Type*} (x y : List α) (w w' : List Bool) :
    subst x y (w ++ w') = subst x y w ++ subst x y w' := List.flatMap_append

theorem subst_replicate_true {α : Type*} (x y : List α) (m : ℕ) :
    subst x y (List.replicate m true) = (List.replicate m x).flatten := by
  induction m with
  | zero => rfl
  | succ m ih => rw [List.replicate_succ, subst_cons_true, ih, List.replicate_succ, List.flatten_cons]

theorem subst_replicate_false {α : Type*} (x y : List α) (m : ℕ) :
    subst x y (List.replicate m false) = (List.replicate m y).flatten := by
  induction m with
  | zero => rfl
  | succ m ih => rw [List.replicate_succ, subst_cons_false, ih, List.replicate_succ, List.flatten_cons]

/-- Substituting twice is substituting once by the words that the letters become. -/
theorem subst_subst {α : Type*} (x y : List α) (u v w : List Bool) :
    subst x y (subst u v w) = subst (subst x y u) (subst x y v) w := by
  induction w with
  | nil => rfl
  | cons b w ih => cases b <;> simp [subst_append, ih]

@[simp] theorem subst_letters (w : List Bool) : subst [true] [false] w = w := by
  induction w with
  | nil => rfl
  | cons b w ih => cases b <;> simp [ih]

/-- The letters of a word that is written in words. -/
theorem count_subst (a : Bool) (x y w : List Bool) :
    (subst x y w).count a = w.count true * x.count a + w.count false * y.count a := by
  induction w with
  | nil => simp
  | cons b w ih =>
    cases b
    · rw [subst_cons_false, List.count_append, ih]
      simp
      ring
    · rw [subst_cons_true, List.count_append, ih]
      simp
      ring

section Steps

variable {v : List Bool}

/-- A prefix of a word whose true is written with a second letter, and whose false is one letter, ends
between the letters of the word or inside a true. -/
theorem prefix_subst {b c : Bool} {p w : List Bool} (h : p <+: subst [true, b] [c] w) :
    (∃ q, q <+: w ∧ p = subst [true, b] [c] q) ∨
      ∃ q, q ++ [true] <+: w ∧ p = subst [true, b] [c] q ++ [true] := by
  induction w generalizing p with
  | nil => exact Or.inl ⟨[], List.prefix_rfl, List.prefix_nil.mp h⟩
  | cons a w ih =>
    cases a with
    | true =>
      rcases List.prefix_cons_iff.mp h with rfl | ⟨p₁, rfl, h₁⟩
      · exact Or.inl ⟨[], List.nil_prefix, rfl⟩
      rcases List.prefix_cons_iff.mp h₁ with rfl | ⟨p₂, rfl, h₂⟩
      · exact Or.inr ⟨[], by simp, rfl⟩
      rcases ih h₂ with ⟨q, hq, rfl⟩ | ⟨q, hq, rfl⟩
      · exact Or.inl ⟨true :: q, (List.prefix_cons_inj true).mpr hq, rfl⟩
      · exact Or.inr ⟨true :: q, (List.prefix_cons_inj true).mpr hq, rfl⟩
    | false =>
      rcases List.prefix_cons_iff.mp h with rfl | ⟨p₁, rfl, h₁⟩
      · exact Or.inl ⟨[], List.nil_prefix, rfl⟩
      rcases ih h₁ with ⟨q, hq, rfl⟩ | ⟨q, hq, rfl⟩
      · exact Or.inl ⟨false :: q, (List.prefix_cons_inj false).mpr hq, rfl⟩
      · exact Or.inr ⟨false :: q, (List.prefix_cons_inj false).mpr hq, rfl⟩

/-- Writing true as both letters and false as true keeps a word spread. -/
theorem Spread.left (h : Spread v) : Spread (subst [true, false] [true] v) := by
  have ht : (subst [true, false] [true] v).count true = v.count true + v.count false := by
    simp [count_subst]
  have hf : (subst [true, false] [true] v).count false = v.count true := by simp [count_subst]
  have hlen := count_add_count (subst [true, false] [true] v)
  rw [ht, hf] at hlen
  -- the new word is ahead where the old one is behind
  have hflip : ∀ q, ahead (v.count true + v.count false) (v.count true) (subst [true, false] [true] q) =
      -ahead (v.count true) (v.count false) q := by
    intro q
    simp only [ahead, count_subst]
    push_cast
    simp
    ring
  intro p p' hp hp'
  rw [ht, hf]
  have hnn : (0 : ℤ) ≤ v.count true := Int.natCast_nonneg _
  have hnn' : (0 : ℤ) ≤ v.count false := Int.natCast_nonneg _
  have hv := count_add_count v
  rcases prefix_subst hp with ⟨q, hq, rfl⟩ | ⟨q, hq, rfl⟩ <;>
    rcases prefix_subst hp' with ⟨q', hq', rfl⟩ | ⟨q', hq', rfl⟩
  · have hlt := h q' q hq' hq
    simp only [hflip]
    omega
  · have hlt := h q' q ((List.prefix_append ..).trans hq') hq
    simp only [ahead_append, ahead_true, hflip]
    omega
  · have hlt := h q' q hq' ((List.prefix_append ..).trans hq)
    simp only [ahead_append, ahead_true, hflip]
    omega
  · have hlt := h q' q ((List.prefix_append ..).trans hq') ((List.prefix_append ..).trans hq)
    simp only [ahead_append, ahead_true, hflip]
    omega

/-- Writing true as both letters and leaving false as it is keeps a word spread. -/
theorem Spread.right (h : Spread v) : Spread (subst [true, false] [false] v) := by
  have ht : (subst [true, false] [false] v).count true = v.count true := by simp [count_subst]
  have hf : (subst [true, false] [false] v).count false = v.count true + v.count false := by
    simp [count_subst]
  have hlen := count_add_count (subst [true, false] [false] v)
  rw [ht, hf] at hlen
  have hsame : ∀ q, ahead (v.count true) (v.count true + v.count false) (subst [true, false] [false] q) =
      ahead (v.count true) (v.count false) q := by
    intro q
    simp only [ahead, count_subst]
    push_cast
    simp
    ring
  intro p p' hp hp'
  rw [ht, hf]
  have hnn : (0 : ℤ) ≤ v.count true := Int.natCast_nonneg _
  have hnn' : (0 : ℤ) ≤ v.count false := Int.natCast_nonneg _
  have hv := count_add_count v
  rcases prefix_subst hp with ⟨q, hq, rfl⟩ | ⟨q, hq, rfl⟩ <;>
    rcases prefix_subst hp' with ⟨q', hq', rfl⟩ | ⟨q', hq', rfl⟩
  · have hlt := h q q' hq hq'
    simp only [hsame]
    omega
  · have hlt := h q q' hq ((List.prefix_append ..).trans hq')
    simp only [ahead_append, ahead_true, hsame]
    push_cast
    omega
  · -- the letter that follows the prefix is a true, and the old word with it is still close
    have hlt := h (q ++ [true]) q' hq hq'
    rw [ahead_append, ahead_true] at hlt
    simp only [ahead_append, ahead_true, hsame]
    push_cast
    omega
  · have hlt := h q q' ((List.prefix_append ..).trans hq) ((List.prefix_append ..).trans hq')
    simp only [ahead_append, ahead_true, hsame]
    omega

/-- Trues followed by falses are spread if there is at most one of the rarer letter. -/
theorem spread_blocks {i j : ℕ} (hi : 1 ≤ i) (hmin : min i j ≤ 1) :
    Spread (List.replicate i true ++ List.replicate j false) := by
  have hprod : i * j < i + j := by
    rcases Nat.lt_or_ge 1 i with h | h
    · have hj : j ≤ 1 := by omega
      nlinarith
    · obtain rfl : i = 1 := by omega
      omega
  have ht : (List.replicate i true ++ List.replicate j false).count true = i := by
    simp [List.count_replicate]
  have hf : (List.replicate i true ++ List.replicate j false).count false = j := by
    simp [List.count_replicate]
  -- such a word first runs ahead of its proportion and then falls back to it
  have hbound : ∀ p, p <+: List.replicate i true ++ List.replicate j false →
      0 ≤ ahead i j p ∧ ahead i j p ≤ i * j := by
    intro p hp
    rw [List.prefix_iff_eq_take.mp hp, List.take_append, List.take_replicate, List.take_replicate,
      ahead_append, ahead_replicate_true, ahead_replicate_false, List.length_replicate]
    generalize p.length = m
    rcases Nat.le_total m i with h | h
    · rw [min_eq_left h, Nat.sub_eq_zero_of_le h]
      have hle : (j : ℤ) * m ≤ i * j := by exact_mod_cast (by nlinarith : j * m ≤ i * j)
      simp
      exact ⟨by positivity, hle⟩
    · rw [min_eq_right h]
      have hle : (i : ℤ) * (min (m - i) j : ℕ) ≤ i * j := by
        exact_mod_cast Nat.mul_le_mul_left i (min_le_right _ _)
      have hnn : (0 : ℤ) ≤ i * (min (m - i) j : ℕ) := by positivity
      have hcomm : (j : ℤ) * i = i * j := mul_comm _ _
      constructor <;> omega
  intro p q hp hq
  rw [ht, hf, List.length_append, List.length_replicate, List.length_replicate]
  have h1 := hbound p hp
  have h2 := hbound q hq
  have h3 : (i : ℤ) * j < i + j := by exact_mod_cast hprod
  push_cast
  omega

end Steps

section Windows

/-- The letter at a position of the word read around a circle. -/
def letter (w : List Bool) (d : ℕ) : Bool := w.getD (d % w.length) false

/-- The trues among `n` letters from position `i` on, around the circle. -/
def window (w : List Bool) (n i : ℕ) : ℕ := Nat.count (fun d => letter w (i + d) = true) n

variable {w : List Bool}

theorem count_letters_take {m : ℕ} (hm : m ≤ w.length) :
    Nat.count (fun d => letter w d = true) m = (w.take m).count true := by
  induction m with
  | zero => rfl
  | succ m ih =>
    rw [Nat.count_succ, ih (by omega), List.take_add_one, List.count_append,
      List.getElem?_eq_getElem (by omega)]
    simp only [letter, Nat.mod_eq_of_lt (show m < w.length by omega),
      List.getD_eq_getElem _ _ (show m < w.length by omega)]
    cases w[m] <;> simp

theorem count_letters_add_length (m : ℕ) :
    Nat.count (fun d => letter w d = true) (m + w.length) =
      Nat.count (fun d => letter w d = true) m + w.count true := by
  rw [Nat.count_add', count_letters_take le_rfl, List.take_length]
  congr 1
  congr 1
  funext d
  rw [letter, Nat.add_mod_right, letter]

/-- How far the letters before a position are ahead does not change in a turn around the circle. -/
theorem ahead_mod (w : List Bool) (m : ℕ) :
    (w.length : ℤ) * Nat.count (fun d => letter w d = true) m - w.count true * m =
      ahead (w.count true) (w.count false) (w.take (m % w.length)) := by
  rcases Nat.eq_zero_or_pos w.length with h0 | hpos
  · obtain rfl := List.length_eq_zero_iff.mp h0
    simp
  · induction m using Nat.strong_induction_on with
    | _ m ih =>
      rcases Nat.lt_or_ge m w.length with hlt | hge
      · have hlen := count_add_count w
        have htake := count_add_count (w.take m)
        rw [List.length_take, min_eq_left hlt.le] at htake
        rw [Nat.mod_eq_of_lt hlt, count_letters_take hlt.le, ahead, ← hlen]
        have hm : (m : ℤ) = (w.take m).count true + (w.take m).count false := by exact_mod_cast htake.symm
        rw [hm]
        push_cast
        ring
      · have hsub := ih (m - w.length) (by omega)
        obtain ⟨d, rfl⟩ := Nat.exists_eq_add_of_le' hge
        rw [Nat.add_sub_cancel] at hsub
        rw [Nat.add_mod_right, ← hsub, count_letters_add_length]
        push_cast
        ring

/-- In a spread word two windows of the same length hold the same number of trues up to one. -/
theorem Spread.window_le (h : Spread w) (n i j : ℕ) : window w n i ≤ window w n j + 1 := by
  have hcut : ∀ i, (window w n i : ℤ) =
      Nat.count (fun d => letter w d = true) (i + n) - Nat.count (fun d => letter w d = true) i := by
    intro i
    rw [Nat.count_add, window]
    push_cast
    ring
  have hend := h _ _ (List.take_prefix ((i + n) % w.length) w) (List.take_prefix ((j + n) % w.length) w)
  have hstart := h _ _ (List.take_prefix (j % w.length) w) (List.take_prefix (i % w.length) w)
  rw [← ahead_mod w, ← ahead_mod w] at hend hstart
  have hlt : (w.length : ℤ) * window w n i - w.length * window w n j < 2 * w.length := by
    rw [hcut i, hcut j]
    push_cast at hend
    linarith
  have hpos : (0 : ℤ) < w.length := by linarith [h [] [] List.nil_prefix List.nil_prefix]
  have : (window w n i : ℤ) - window w n j < 2 := by nlinarith
  omega

end Windows

end EvenWords
