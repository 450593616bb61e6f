import Mathlib

/-!
# Common multiples

Integer multiples in an ordered group. An operation that meets the multiples of two elements, folded over a
list, gives the multiples that all elements have in common; if the result is positive, it is the least
positive one of them.
-/

namespace Multiples

open AddSubgroup

variable {G : Type*} [AddCommGroup G] {m : G → G → G} {l l' : List G}

/-- The multiples that all elements of the list have in common. -/
def common (l : List G) : AddSubgroup G := l.foldr (fun x H => zmultiples x ⊓ H) ⊤

@[simp] theorem common_cons (x : G) (l : List G) : common (x :: l) = zmultiples x ⊓ common l := rfl

theorem mem_common {q : G} : q ∈ common l ↔ ∀ x ∈ l, q ∈ zmultiples x := by
  induction l with
  | nil => simp [common]
  | cons x l ih => rw [common_cons, mem_inf, ih, List.forall_mem_cons]

/-- The order of the elements does not matter. -/
theorem common_perm (h : l.Perm l') : common l = common l' := by
  ext q
  simp only [mem_common, h.mem_iff]

/-- The multiples of `m a b` are those that `a` and `b` have in common. -/
def MeetsMultiples (m : G → G → G) : Prop := ∀ a b, zmultiples (m a b) = zmultiples a ⊓ zmultiples b

theorem MeetsMultiples.zmultiples_foldl (hm : MeetsMultiples m) (x : G) (l : List G) :
    zmultiples (l.foldl m x) = common (x :: l) := by
  induction l generalizing x with
  | nil => rw [common_cons, List.foldl_nil, common, List.foldr_nil, inf_top_eq]
  | cons y l ih => rw [List.foldl_cons, ih, common_cons, hm, inf_assoc, common_cons, common_cons]

variable [LinearOrder G]

theorem foldl_pos (hm : ∀ a b, 0 < a → 0 < b → 0 < m a b) {x : G} (hpos : ∀ y ∈ x :: l, 0 < y) :
    0 < l.foldl m x := by
  induction l generalizing x with
  | nil => exact hpos x (List.mem_singleton_self x)
  | cons y l ih =>
    obtain ⟨hx, hy, hl⟩ : 0 < x ∧ 0 < y ∧ ∀ z ∈ l, 0 < z := by simpa using hpos
    exact ih (List.forall_mem_cons.mpr ⟨hm x y hx hy, hl⟩)

variable [IsOrderedAddMonoid G]

/-- A positive element is the least positive one of its multiples. -/
theorem isLeast_zmultiples {a : G} (ha : 0 < a) : IsLeast {q | 0 < q ∧ q ∈ zmultiples a} a := by
  refine ⟨⟨ha, mem_zmultiples a⟩, ?_⟩
  rintro q ⟨hq, hmem⟩
  obtain ⟨k, rfl⟩ := mem_zmultiples_iff.mp hmem
  have hk : 0 < k := by
    refine (zsmul_lt_zsmul_iff_left ha).mp ?_
    rwa [zero_zsmul]
  calc a = (1 : ℤ) • a := (one_zsmul a).symm
    _ ≤ k • a := (zsmul_le_zsmul_iff_left ha).mpr hk

/-- The fold is the least positive common multiple. -/
theorem MeetsMultiples.isLeast_foldl (hm : MeetsMultiples m) {x : G} (hpos : 0 < l.foldl m x) :
    IsLeast {q | 0 < q ∧ q ∈ common (x :: l)} (l.foldl m x) := by
  rw [← hm.zmultiples_foldl]
  exact isLeast_zmultiples hpos

/-- As such it does not depend on the order of the list. -/
theorem MeetsMultiples.foldl_perm (hm : MeetsMultiples m) {x y : G} (hperm : (y :: l').Perm (x :: l))
    (hpos : 0 < l.foldl m x) (hpos' : 0 < l'.foldl m y) : l'.foldl m y = l.foldl m x := by
  refine (hm.isLeast_foldl hpos').unique ?_
  rw [common_perm hperm]
  exact hm.isLeast_foldl hpos

end Multiples
