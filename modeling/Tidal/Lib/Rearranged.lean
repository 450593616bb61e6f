import Mathlib

/-!
# Rearrangements up to a relation

A list is rearranged into another up to a relation if its elements, each replaced with a related one, are
the elements of the other in some order.
-/

variable {β γ : Type*} {R : β → β → Prop} {xs ys : List β}

/-- `ys` is a rearrangement of elements that are related by `R` to those of `xs`. -/
def Rearranged (R : β → β → Prop) (xs ys : List β) : Prop := ∃ l, List.Forall₂ R xs l ∧ l.Perm ys

namespace Rearranged

theorem refl (hR : ∀ x, R x x) (xs : List β) : Rearranged R xs xs :=
  ⟨xs, List.forall₂_same.mpr fun x _ => hR x, .refl xs⟩

theorem length_eq (h : Rearranged R xs ys) : ys.length = xs.length := by
  obtain ⟨l, hl, hperm⟩ := h
  rw [← hperm.length_eq, hl.length_eq]

theorem forall₂_map_eq {f : β → γ} (hf : ∀ x y, R x y → f x = f y) (h : List.Forall₂ R xs ys) :
    xs.map f = ys.map f := by
  induction h with
  | nil => rfl
  | cons hxy _ ih => rw [List.map_cons, List.map_cons, hf _ _ hxy, ih]

/-- What related elements agree on, the lists agree on up to order. -/
theorem map_perm {f : β → γ} (hf : ∀ x y, R x y → f x = f y) (h : Rearranged R xs ys) :
    (ys.map f).Perm (xs.map f) := by
  obtain ⟨l, hl, hperm⟩ := h
  rw [forall₂_map_eq hf hl]
  exact hperm.symm.map f

/-! ## Elements that may be missing -/

theorem isNone_eq {x y : Option β} (h : Option.Rel R x y) : x.isNone = y.isNone := by
  cases h <;> rfl

/-- A missing element of one list is missing in the other. -/
theorem none_mem_iff {xs ys : List (Option β)} (h : Rearranged (Option.Rel R) xs ys) :
    none ∈ ys ↔ none ∈ xs := by
  have hmem := (h.map_perm fun x y hxy => isNone_eq (R := R) hxy).mem_iff (a := true)
  simpa using hmem

theorem exists_map_some {ys : List (Option β)} (h : none ∉ ys) : ∃ zs : List β, ys = zs.map some := by
  induction ys with
  | nil => exact ⟨[], rfl⟩
  | cons y ys ih =>
    rw [List.mem_cons, not_or] at h
    obtain ⟨z, rfl⟩ := Option.ne_none_iff_exists'.mp (Ne.symm h.1)
    obtain ⟨zs, rfl⟩ := ih h.2
    exact ⟨z :: zs, rfl⟩

/-- If no element of the first list is missing, none of the second is. -/
theorem of_some {ys : List (Option β)} (h : Rearranged (Option.Rel R) (xs.map some) ys) :
    ∃ zs, ys = zs.map some ∧ Rearranged R xs zs := by
  have hys : none ∉ ys := by
    rw [h.none_mem_iff]
    simp
  obtain ⟨l, hl, hperm⟩ := h
  obtain ⟨l, rfl⟩ := exists_map_some fun hmem => hys (hperm.mem_iff.mp hmem)
  obtain ⟨zs, rfl⟩ := exists_map_some hys
  refine ⟨zs, rfl, l, ?_, (List.map_perm_map_iff (Option.some_injective β)).mp hperm⟩
  rw [List.forall₂_map_left_iff, List.forall₂_map_right_iff] at hl
  refine hl.imp fun x y hxy => ?_
  cases hxy
  assumption

end Rearranged
