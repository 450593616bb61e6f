import Tidal.Stream.ValueClasses
import Tidal.Proofs.ChewProofs

/-!
# Proofs: sums and comparisons of values

`fNum2` has no line for an integer and a note, and keeps the left one of them; a sum of two integers wraps
around. Comparing looks at the kind of a value first and at what it holds second, and all numbers are of one
kind.
-/

namespace Tidal

variable {S α : Type}

/-! ## Unions -/

namespace Map

variable {f : α → α → α} {x : Map α} {ys : List (String × α)} {k : String} {w : α}

/-- What the fold of a union has at a key of the list. -/
theorem getElem?_foldl_alter_mem (hys : ys.Pairwise fun z z' => z.1 ≠ z'.1) (hk : (k, w) ∈ ys) (x : Map α) :
    (ys.foldl (fun r z => r.alter z.1 fun v => some (v.elim z.2 (f · z.2))) x)[k]? =
      some (x[k]?.elim w (f · w)) := by
  induction ys generalizing x with
  | nil => cases hk
  | cons z ys ih =>
    obtain ⟨hz, hys⟩ := List.pairwise_cons.mp hys
    rw [List.foldl_cons]
    rcases List.mem_cons.mp hk with rfl | hmem
    · rw [getElem?_foldl_alter (fun z hmem => (hz z hmem).symm), Std.ExtTreeMap.getElem?_alter,
        if_pos (compare_eq_iff_eq.mpr rfl)]
    · rw [ih hys hmem, Std.ExtTreeMap.getElem?_alter, if_neg]
      rw [compare_eq_iff_eq]
      exact hz (k, w) hmem

/-- At a key of the right map the values are joined. -/
theorem getElem?_unionWith_right {y : Map α} (h : y[k]? = some w) :
    (x.unionWith f y)[k]? = some (x[k]?.elim w (f · w)) := by
  rw [unionWith, Std.ExtTreeMap.foldl_eq_foldl_toList]
  refine getElem?_foldl_alter_mem ?_ (Std.ExtTreeMap.mem_toList_iff_getElem?_eq_some.mpr h) x
  refine Std.ExtTreeMap.distinct_keys_toList.imp fun {z z'} hne heq => hne ?_
  rw [heq, compare_eq_iff_eq]

end Map

namespace Value

variable {x y z v w : Value S}

/-! ## What a value holds -/

def text : Value S → String
  | VS x => x
  | _ => ""

def truth : Value S → Bool
  | VB x => x
  | _ => false

def blob : Value S → List UInt8
  | VX xs => xs
  | _ => []

def numeric : Value S → ℚ
  | VI i => i
  | VF x | VR x | VN x => x
  | _ => 0

/-! ## Sums -/

/-- An integer, a double or a note. -/
def isNumeral : Value S → Bool
  | VI _ | VF _ | VN _ => true
  | _ => false

/-- An integer and a note, in this order or in the other. -/
def intAndNote : Value S → Value S → Bool
  | VI _, VN _ | VN _, VI _ => true
  | _, _ => false

/-- If both are integers, then so is their sum: it is none that is too large for an `Int`. -/
def sumFits : Value S → Value S → Prop
  | VI i, VI j => FitsInt (i + j)
  | _, _ => True

/-- An integer and a note are not added. -/
theorem fNum2_intAndNote (h : intAndNote v w) : fNum2 MachineInt.add (· + ·) v w = v := by
  cases v <;> cases w <;> first | rfl | cases h

theorem isNumeral_fNum2 (hv : v.isNumeral) (hw : w.isNumeral) :
    (fNum2 MachineInt.add (· + ·) v w).isNumeral := by
  cases v <;> cases hv <;> cases w <;> cases hw <;> rfl

/-- Any other two numbers are added, as far as the sum fits. -/
theorem numeric_fNum2_iff (hv : v.isNumeral) (hw : w.isNumeral) (h : ¬ intAndNote v w) :
    (fNum2 MachineInt.add (· + ·) v w).numeric = v.numeric + w.numeric ↔ sumFits v w := by
  cases v with
  | VI a =>
    cases w with
    | VI b =>
      have hsum : ((MachineInt.add a b : ℤ) : ℚ) = a + b ↔ MachineInt.add a b = a + b := by
        rw [← Int.cast_add, Int.cast_inj]
      exact hsum.trans MachineInt.add_eq_iff
    | VF b => exact iff_of_true rfl trivial
    | VN b => exact absurd rfl h
    | _ => cases hw
  | VF a =>
    cases w with
    | VI b => exact iff_of_true rfl trivial
    | VF b => exact iff_of_true rfl trivial
    | VN b => exact iff_of_true rfl trivial
    | _ => cases hw
  | VN a =>
    cases w with
    | VI b => exact absurd rfl h
    | VF b => exact iff_of_true rfl trivial
    | VN b => exact iff_of_true rfl trivial
    | _ => cases hw
  | _ => cases hv

theorem sumFits_comm (v w : Value S) : sumFits v w ↔ sumFits w v := by
  cases v <;> cases w <;> simp [sumFits, add_comm]

theorem sumFits_of_intAndNote (h : intAndNote v w) : sumFits v w := by
  cases v with
  | VI i =>
    cases w with
    | VI j => cases h
    | _ => trivial
  | _ => trivial

theorem intAndNote_comm (v w : Value S) : intAndNote v w = intAndNote w v := by
  cases v <;> cases w <;> rfl

end Value

namespace ValueMap

variable {a b : ValueMap S} {k : String} {v w : Value S}

open Value

/-- All values are integers, doubles and notes. -/
def Numerals (m : ValueMap S) : Prop := ∀ (k : String) v, m[k]? = some v → v.isNumeral

/-- The sum of two maps has the keys of both, and at each of them the sum of what they have there. -/
structure AddsUp (a b : ValueMap S) : Prop where
  keys : ∀ k : String, k ∈ a.add b ↔ k ∈ a ∨ k ∈ b
  both : ∀ (k : String) v w, a[k]? = some v → b[k]? = some w →
    ∃ r, (a.add b)[k]? = some r ∧ r.isNumeral ∧ r.numeric = v.numeric + w.numeric
  left : ∀ k : String, b[k]? = none → (a.add b)[k]? = a[k]?
  right : ∀ k : String, a[k]? = none → (a.add b)[k]? = b[k]?
  comm : ∀ k : String, (a.add b)[k]?.map numeric = (b.add a)[k]?.map numeric

theorem getElem?_add_left (h : b[k]? = none) : (a.add b)[k]? = a[k]? := Map.getElem?_unionWith h

theorem getElem?_add_right (h : a[k]? = none) : (a.add b)[k]? = b[k]? := by
  cases hb : b[k]? with
  | none => rw [getElem?_add_left hb, h]
  | some w => rw [add, Map.getElem?_unionWith_right hb, h]; rfl

theorem getElem?_add_both (ha : a[k]? = some v) (hb : b[k]? = some w) :
    (a.add b)[k]? = some (fNum2 MachineInt.add (· + ·) v w) := by
  rw [add, Map.getElem?_unionWith_right hb, ha]
  rfl

/-- The keys of a sum are always right. -/
theorem mem_add (k : String) : k ∈ a.add b ↔ k ∈ a ∨ k ∈ b := by
  simp only [Std.ExtTreeMap.mem_iff_isSome_getElem?]
  cases ha : a[k]? with
  | none => simp [getElem?_add_right ha]
  | some v =>
    cases hb : b[k]? with
    | none => simp [getElem?_add_left hb, ha]
    | some w => simp [getElem?_add_both ha hb]

/-- A sum is right exactly if an integer meets a note only where both are 0, and an integer only where the
sum fits. Of an integer and a note the right one is lost, and in the other order it is the other one. -/
theorem addsUp_iff (ha : Numerals a) (hb : Numerals b) :
    AddsUp a b ↔
      ∀ (k : String) v w, a[k]? = some v → b[k]? = some w →
        (intAndNote v w → v.numeric = 0 ∧ w.numeric = 0) ∧ sumFits v w := by
  constructor
  · intro h k v w hv hw
    obtain ⟨r, hr, -, hsum⟩ := h.both k v w hv hw
    have hcomm := h.comm k
    rw [getElem?_add_both hv hw] at hr hcomm
    obtain rfl := Option.some.inj hr
    by_cases hmix : intAndNote v w
    · rw [fNum2_intAndNote hmix] at hsum hcomm
      rw [getElem?_add_both hw hv, fNum2_intAndNote ((intAndNote_comm w v).trans hmix)] at hcomm
      have heq : v.numeric = w.numeric := Option.some.inj hcomm
      refine ⟨fun _ => ⟨?_, ?_⟩, sumFits_of_intAndNote hmix⟩
      · linarith only [hsum, heq]
      · linarith only [hsum]
    · exact ⟨fun hc => absurd hc hmix, (numeric_fNum2_iff (ha k v hv) (hb k w hw) hmix).mp hsum⟩
  · intro h
    have hadd : ∀ (k : String) v w, a[k]? = some v → b[k]? = some w →
        (fNum2 MachineInt.add (· + ·) v w).numeric = v.numeric + w.numeric ∧
          (fNum2 MachineInt.add (· + ·) w v).numeric = v.numeric + w.numeric := by
      intro k v w hv hw
      obtain ⟨hzero, hfits⟩ := h k v w hv hw
      by_cases hmix : intAndNote v w
      · obtain ⟨hv0, hw0⟩ := hzero hmix
        rw [fNum2_intAndNote hmix, fNum2_intAndNote ((intAndNote_comm w v).trans hmix), hv0, hw0, add_zero]
        exact ⟨rfl, rfl⟩
      · have hmix' : ¬ intAndNote w v := fun hc => hmix ((intAndNote_comm v w).trans hc)
        have h2 := (numeric_fNum2_iff (ha k v hv) (hb k w hw) hmix).mpr hfits
        have h3 := (numeric_fNum2_iff (hb k w hw) (ha k v hv) hmix').mpr ((sumFits_comm v w).mp hfits)
        exact ⟨h2, h3.trans (add_comm _ _)⟩
    refine ⟨mem_add, ?_, fun k => getElem?_add_left, fun k => getElem?_add_right, fun k => ?_⟩
    · intro k v w hv hw
      exact ⟨_, getElem?_add_both hv hw, isNumeral_fNum2 (ha k v hv) (hb k w hw), (hadd k v w hv hw).1⟩
    · cases hv : a[k]? with
      | none => rw [getElem?_add_right hv, getElem?_add_left hv]
      | some v =>
        cases hw : b[k]? with
        | none => rw [getElem?_add_left hw, getElem?_add_right hw]
        | some w =>
          obtain ⟨h2, h3⟩ := hadd k v w hv hw
          rw [getElem?_add_both hv hw, getElem?_add_both hw hv, Option.map_some, Option.map_some, h2, h3]

theorem getElem?_single (k l : String) (v : Value S) :
    (Map.singleton k v)[l]? = if k = l then some v else none := by
  rw [Map.singleton, Std.ExtTreeMap.getElem?_insert]
  simp only [compare_eq_iff_eq, Std.ExtTreeMap.getElem?_empty]

theorem numerals_single (h : v.isNumeral) : Numerals (Map.singleton k v) := by
  intro l w hw
  rw [getElem?_single] at hw
  split at hw
  · exact Option.some.inj hw ▸ h
  · cases hw

theorem numerals_insert (h : v.isNumeral) (ha : Numerals a) : Numerals (a.insert k v) := by
  intro l w hw
  rw [Std.ExtTreeMap.getElem?_insert] at hw
  split at hw
  · exact Option.some.inj hw ▸ h
  · exact ha l w hw

/-- A double is added to a note and an integer to an integer, and another control comes along. -/
theorem addsUp_iff_double :
    AddsUp (S := Unit) (((Map.singleton "n" (.VN 2)).insert "cut" (.VI 3)).insert "pan" (.VI 1))
      ((Map.singleton "n" (.VF (1 / 2))).insert "cut" (.VI (-5))) := by
  refine (addsUp_iff ?_ ?_).mpr fun k v w hv hw => ?_
  · exact numerals_insert rfl (numerals_insert rfl (numerals_single rfl))
  · exact numerals_insert rfl (numerals_single rfl)
  · simp only [Std.ExtTreeMap.getElem?_insert, compare_eq_iff_eq, getElem?_single] at hv hw
    split at hw
    · obtain rfl := Option.some.inj hw
      rename_i hcut
      rw [← hcut, if_neg (by decide), if_pos rfl] at hv
      obtain rfl := Option.some.inj hv
      exact ⟨nofun, by simp [sumFits, FitsInt]⟩
    · split at hw
      · obtain rfl := Option.some.inj hw
        cases v <;> exact ⟨nofun, trivial⟩
      · cases hw

/-- `n 2 + 1` is `n 2`: the number 1 stands for an integer of the control `n`, whose notes are not integers. -/
theorem not_addsUp_note_int :
    Numerals (S := Unit) (Map.singleton "n" (.VN 2)) ∧ Numerals (S := Unit) (Map.singleton "n" (.VI 1)) ∧
      ¬ AddsUp (S := Unit) (Map.singleton "n" (.VN 2)) (Map.singleton "n" (.VI 1)) := by
  refine ⟨numerals_single rfl, numerals_single rfl, fun h => ?_⟩
  have hv : (Map.singleton "n" (.VN 2) : ValueMap Unit)["n"]? = some (.VN 2) := by simp [getElem?_single]
  have hw : (Map.singleton "n" (.VI 1) : ValueMap Unit)["n"]? = some (.VI 1) := by simp [getElem?_single]
  obtain ⟨r, hr, -, hsum⟩ := h.both "n" _ _ hv hw
  rw [getElem?_add_both hv hw, fNum2_intAndNote rfl] at hr
  obtain rfl := Option.some.inj hr
  simp only [numeric] at hsum
  norm_num at hsum

end ValueMap

namespace Value

variable {x y z : Value S}

/-! ## Comparisons -/

/-- The kind of a value. All numbers are of the same kind. -/
def kind : Value S → ℕ
  | VS _ => 0
  | VB _ => 1
  | VX _ => 2
  | VI _ | VF _ | VR _ | VN _ => 3
  | VList _ => 4
  | VState _ => 5
  | VPattern _ => 6

/-- Compares the kind first, and then what a value of the kind holds. -/
def compareByKind : Value S → Value S → Ordering :=
  compareLex (compareOn kind) (compareLex (compareOn text) (compareLex (compareOn truth)
    (compareLex (compareOn blob) (compareOn numeric))))

theorem transCmp_compareByKind : Std.TransCmp (compareByKind (S := S)) := by
  unfold compareByKind
  infer_instance

theorem compare_intCast (a b : ℤ) : Ord.compare (a : ℚ) (b : ℚ) = Ord.compare a b := by
  rcases lt_trichotomy a b with h | h | h
  · rw [compare_lt_iff_lt.mpr h, compare_lt_iff_lt.mpr (Int.cast_lt.mpr h)]
  · rw [compare_eq_iff_eq.mpr h, compare_eq_iff_eq.mpr (congrArg _ h)]
  · rw [compare_gt_iff_gt.mpr h, compare_gt_iff_gt.mpr (Int.cast_lt.mpr h)]

/-- The table compares by kind. -/
theorem compare_eq_compareByKind (x y : Value S) : x.compare y = compareByKind x y := by
  cases x <;> cases y <;>
    first
    | rfl
    | simp [compare, compareByKind, compareLex, compareOn, kind, text, truth, blob, numeric, compare_intCast]

theorem compareByKind_eq_iff :
    compareByKind x y = .eq ↔
      kind x = kind y ∧ text x = text y ∧ truth x = truth y ∧ blob x = blob y ∧ numeric x = numeric y := by
  simp only [compareByKind, compareLex, compareOn, Ordering.then_eq_eq, Std.LawfulEqOrd.compare_eq_iff_eq]

/-- Strings, numbers, booleans and blobs. -/
def isScalar : Value S → Bool
  | VList _ | VState _ | VPattern _ => false
  | _ => true

def isNote : Value S → Bool
  | VN _ => true
  | _ => false

/-- A note and a number that is not a note, in this order or in the other. -/
def noteAndNumber (x y : Value S) : Bool := kind x = 3 && kind y = 3 && isNote x != isNote y

/-- Equal values are scalars that compare as equal, and only notes equal a note. -/
theorem beq_iff : x.beq y ↔ x.isScalar ∧ y.isScalar ∧ isNote x = isNote y ∧ compareByKind x y = .eq := by
  rw [compareByKind_eq_iff]
  cases x <;> cases y <;> simp [beq, isScalar, isNote, kind, text, truth, blob, numeric, eq_comm]

theorem compareByKind_eq_iff_beq (hx : x.isScalar) (hy : y.isScalar) (h : ¬ noteAndNumber x y) :
    compareByKind x y = .eq ↔ x.beq y := by
  rw [beq_iff]
  refine ⟨fun heq => ⟨hx, hy, ?_, heq⟩, fun h => h.2.2.2⟩
  have hkind := (compareByKind_eq_iff.mp heq).1
  by_contra hne
  refine h ?_
  -- a note is a number, so both are
  have h3 : kind x = 3 ∨ kind y = 3 := by
    cases x with
    | VN _ => exact Or.inl rfl
    | _ =>
      cases y with
      | VN _ => exact Or.inr rfl
      | _ => exact absurd rfl hne
  simp only [noteAndNumber, Bool.and_eq_true, decide_eq_true_eq, bne_iff_ne]
  exact ⟨⟨by omega, by omega⟩, hne⟩

end Value

open Value in
/-- Equality is symmetric and transitive, and the order is a total one up to values that compare as equal.
They agree for scalars, a note and another number apart; lists are not compared. -/
theorem eq_ord_value (x y z : Value S) :
    (x.isScalar → x.beq x) ∧
      (x.beq y → y.beq x) ∧
      (x.beq y → y.beq z → x.beq z) ∧
      x.compare y = (y.compare x).swap ∧
      ((x.compare y).isLE → (y.compare z).isLE → (x.compare z).isLE) ∧
      ((x.compare y).isLE ∨ (y.compare x).isLE) ∧
      (x.isScalar → y.isScalar → ¬ noteAndNumber x y → (x.compare y = .eq ↔ x.beq y)) ∧
      ∀ xs ys : List (Value S), (VList xs).compare (VList ys) = .eq ∧ ¬ (VList xs).beq (VList ys) := by
  have := transCmp_compareByKind (S := S)
  simp only [compare_eq_compareByKind]
  refine ⟨?_, ?_, ?_, Std.OrientedCmp.eq_swap, Std.TransCmp.isLE_trans, ?_, compareByKind_eq_iff_beq, ?_⟩
  · intro hx
    exact beq_iff.mpr ⟨hx, hx, rfl, Std.ReflCmp.compare_self⟩
  · intro h
    obtain ⟨hx, hy, hnote, heq⟩ := beq_iff.mp h
    exact beq_iff.mpr ⟨hy, hx, hnote.symm, Std.OrientedCmp.eq_comm.mp heq⟩
  · intro h h'
    obtain ⟨hx, -, hnote, heq⟩ := beq_iff.mp h
    obtain ⟨-, hz, hnote', heq'⟩ := beq_iff.mp h'
    exact beq_iff.mpr ⟨hx, hz, hnote.trans hnote', Std.TransCmp.eq_trans heq heq'⟩
  · have hswap : compareByKind y x = (compareByKind x y).swap := Std.OrientedCmp.eq_swap
    rw [hswap]
    cases compareByKind x y <;> simp
  · intro xs ys
    exact ⟨compareByKind_eq_iff.mpr ⟨rfl, rfl, rfl, rfl, rfl⟩, Bool.false_ne_true⟩

/-- The empty list is not equal to itself, though it compares as equal. -/
theorem not_beq_VList_self :
    (Value.VList [] : Value Unit).beq (.VList []) = false ∧
      (Value.VList [] : Value Unit).compare (.VList []) = .eq :=
  ⟨rfl, rfl⟩

end Tidal
