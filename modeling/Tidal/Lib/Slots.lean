import Mathlib

/-!
# Weighted slots laid end to end

A list of weights cuts the range from zero to their sum into half-open slots, one for each weight. Slots
of weight zero are empty; every position lies in exactly one slot.
-/

namespace Slots

variable {T : Type*} [AddCommGroup T]

/-- The weights before slot `i`. -/
def before (ws : List T) (i : ℕ) : T := (ws.take i).sum

@[simp] theorem before_zero (ws : List T) : before ws 0 = 0 := by simp [before]

@[simp] theorem before_cons (w : T) (ws : List T) (i : ℕ) :
    before (w :: ws) (i + 1) = w + before ws i := by simp [before]

theorem before_succ (ws : List T) (i : ℕ) : before ws (i + 1) = before ws i + ws.getD i 0 := by
  induction ws generalizing i with
  | nil => simp [before]
  | cons w ws ih =>
    cases i with
    | zero => simp
    | succ i => rw [before_cons, before_cons, ih]; simp [add_assoc]

theorem before_replicate (w : T) (n : ℕ) {i : ℕ} (hi : i ≤ n) : before (List.replicate n w) i = i • w := by
  simp [before, List.take_replicate, min_eq_left hi]

variable [LinearOrder T] {ws : List T} {y : T}

/-- Slot `i` has a positive weight and holds the position `y`. -/
def InSlot (ws : List T) (y : T) (i : ℕ) : Prop :=
  0 < ws.getD i 0 ∧ before ws i ≤ y ∧ y < before ws (i + 1)

theorem getD_nonneg (hws : ∀ w ∈ ws, 0 ≤ w) (i : ℕ) : 0 ≤ ws.getD i 0 := by
  by_cases hi : i < ws.length
  · rw [List.getD_eq_getElem _ _ hi]; exact hws _ (List.getElem_mem hi)
  · rw [List.getD_eq_default _ _ (not_lt.mp hi)]

variable [IsOrderedAddMonoid T]

theorem before_mono (hws : ∀ w ∈ ws, 0 ≤ w) : Monotone (before ws) :=
  monotone_nat_of_le_succ fun i => by
    rw [before_succ]; exact le_add_of_nonneg_right (getD_nonneg hws i)

theorem before_nonneg (hws : ∀ w ∈ ws, 0 ≤ w) (i : ℕ) : 0 ≤ before ws i := by
  rw [← before_zero ws]; exact before_mono hws (Nat.zero_le i)

theorem exists_slot (h0 : 0 ≤ y) (hy : y < ws.sum) : ∃ i, InSlot ws y i := by
  induction ws generalizing y with
  | nil => exact absurd hy (not_lt.mpr h0)
  | cons w ws ih =>
    rw [List.sum_cons] at hy
    rcases lt_or_ge y w with hlt | hge
    · exact ⟨0, by simpa using h0.trans_lt hlt, by simpa using h0, by simpa using hlt⟩
    · obtain ⟨i, hpos, h1, h2⟩ := ih (sub_nonneg.mpr hge) (sub_lt_iff_lt_add'.mpr hy)
      refine ⟨i + 1, by simpa using hpos, ?_, ?_⟩
      · rw [before_cons]; exact le_sub_iff_add_le'.mp h1
      · rw [before_cons]; exact sub_lt_iff_lt_add'.mp h2

/-- Every position lies in exactly one slot. -/
theorem existsUnique_slot (hws : ∀ w ∈ ws, 0 ≤ w) (h0 : 0 ≤ y) (hy : y < ws.sum) :
    ∃! i, InSlot ws y i := by
  obtain ⟨i, hi⟩ := exists_slot h0 hy
  refine ⟨i, hi, fun j hj => ?_⟩
  -- a slot that comes later starts where the earlier one has ended
  have hlater : ∀ {k l : ℕ}, InSlot ws y k → InSlot ws y l → ¬ k < l := fun hk hl hkl =>
    absurd (hk.2.2.trans_le (before_mono hws hkl)) (not_lt.mpr hl.2.1)
  rcases lt_trichotomy i j with h | h | h
  · exact absurd h (hlater hi hj)
  · exact h.symm
  · exact absurd h (hlater hj hi)

end Slots
