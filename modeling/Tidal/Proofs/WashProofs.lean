import Tidal.Wash
import Tidal.Proofs.BehaviourProofs

/-!
# Where transitions switch

A transition without any time between its patterns takes the events of the old pattern that start before
one moment and those of the new pattern that start from there on. For `jumpMod'` this moment is a boundary
of the right kind, and the next one unless the offset is still to come in the current period.
-/

namespace Tidal

open Pattern

variable {Γ α : Type}

/-- The events of `old` that start before `c`, and those of `new` that start at `c` or later. -/
def switched (c : Time) (old new : Multiset (Event α)) : Multiset (Event α) :=
  old.filter (fun e => e.wholeStart < c) + new.filter fun e => c ≤ e.wholeStart

/-- The events that start from `c` on and before `d`. -/
def starting (c d : Time) (es : Multiset (Event α)) : Multiset (Event α) :=
  es.filter fun e => c ≤ e.wholeStart ∧ e.wholeStart < d

/-- The boundary at which `jumpMod'` switches: at position `p` of the period after the current one. -/
def jumpBoundary (n p : ℤ) (now : Time) : ℤ := ⌊now⌋ - ⌊now⌋ % n + n + p

section Switching

variable {c d : Time} (es old new : Multiset (Event α))

theorem filter_between_self (t : Time) (es : List (Event α)) :
    es.filter (fun e => between t t e.wholeStart) = [] := by
  refine List.filter_eq_nil_iff.mpr fun e _ => ?_
  simp [between]

theorem wash_query (delay now : Time) (new old : Pattern Γ α) (ps : List (Pattern Γ α)) (st : State Γ) :
    ((wash id id delay 0 0 now (new :: old :: ps)).query st : Multiset (Event α)) =
      switched (now + delay) (old.query st) (new.query st) := by
  unfold wash switched
  rw [stack_query]
  simp [filterWhen, filter_between_self]

theorem filter_lt_eq (hcd : c ≤ d) :
    es.filter (fun e => e.wholeStart < d) = es.filter (fun e => e.wholeStart < c) + starting c d es := by
  have hboth : es.filter (fun e => e.wholeStart < c ∧ c ≤ e.wholeStart ∧ e.wholeStart < d) = 0 :=
    Multiset.filter_eq_nil.mpr fun e _ h => absurd h.1 (not_lt.mpr h.2.1)
  unfold starting
  rw [Multiset.filter_add_filter, hboth, add_zero]
  refine Multiset.filter_congr fun e _ => ⟨fun h => ?_, fun h => ?_⟩
  · by_cases hc : e.wholeStart < c
    · exact Or.inl hc
    · exact Or.inr ⟨not_lt.mp hc, h⟩
  · rcases h with h | h
    · exact h.trans_le hcd
    · exact h.2

theorem filter_ge_eq (hcd : c ≤ d) :
    es.filter (fun e => c ≤ e.wholeStart) = es.filter (fun e => d ≤ e.wholeStart) + starting c d es := by
  have hboth : es.filter (fun e => d ≤ e.wholeStart ∧ c ≤ e.wholeStart ∧ e.wholeStart < d) = 0 :=
    Multiset.filter_eq_nil.mpr fun e _ h => absurd h.2.2 (not_lt.mpr h.1)
  unfold starting
  rw [Multiset.filter_add_filter, hboth, add_zero]
  refine Multiset.filter_congr fun e _ => ⟨fun h => ?_, fun h => ?_⟩
  · by_cases hd : d ≤ e.wholeStart
    · exact Or.inl hd
    · exact Or.inr ⟨h, not_le.mp hd⟩
  · rcases h with h | h
    · exact hcd.trans h
    · exact h.1

/-- To switch later makes no difference exactly if both patterns start the same events in between. -/
theorem switched_eq_iff (hcd : c ≤ d) :
    switched d old new = switched c old new ↔ starting c d old = starting c d new := by
  unfold switched
  rw [filter_lt_eq old hcd, filter_ge_eq new hcd, add_assoc, add_left_cancel_iff, add_comm,
    add_left_cancel_iff]

end Switching

section Boundary

variable {n p : ℤ} (now : Time)

theorem period_mod (hp : 0 ≤ p) (hpn : p < n) (k : ℤ) : (n * k + p) % n = p := by
  rw [add_comm, Int.add_mul_emod_self_left, Int.emod_eq_of_lt hp hpn]

/-- The next cycle boundary with the number `p` modulo `n`. -/
theorem isLeast_boundary (hp : 0 ≤ p) (hpn : p < n) :
    IsLeast {c : ℤ | now < c ∧ c % n = p}
      (if p ≤ ⌊now⌋ % n then jumpBoundary n p now else jumpBoundary n p now - n) := by
  have hn : 0 < n := by omega
  have hnow := Int.emod_add_mul_ediv ⌊now⌋ n
  have hlo := Int.emod_nonneg ⌊now⌋ hn.ne'
  have hlt := Int.emod_lt_of_pos ⌊now⌋ hn
  have hbound : jumpBoundary n p now = n * (⌊now⌋ / n + 1) + p := by
    unfold jumpBoundary
    rw [mul_add, mul_one]
    omega
  by_cases hle : p ≤ ⌊now⌋ % n
  · rw [if_pos hle, hbound]
    refine ⟨⟨Int.floor_lt.mp ?_, period_mod hp hpn _⟩, ?_⟩
    · rw [mul_add, mul_one]
      omega
    · rintro c ⟨hc, hmod⟩
      have hfloor := Int.floor_lt.mpr hc
      have hcn := Int.emod_add_mul_ediv c n
      have hk : ⌊now⌋ / n < c / n := lt_of_mul_lt_mul_left (by omega) hn.le
      have := Int.mul_le_mul_of_nonneg_left (Int.add_one_le_of_lt hk) hn.le
      omega
  · rw [if_neg hle, hbound, mul_add, mul_one]
    have hprev : n * (⌊now⌋ / n) + n + p - n = n * (⌊now⌋ / n) + p := by ring
    rw [hprev]
    refine ⟨⟨Int.floor_lt.mp (by omega), period_mod hp hpn _⟩, ?_⟩
    rintro c ⟨hc, hmod⟩
    have hfloor := Int.floor_lt.mpr hc
    have hcn := Int.emod_add_mul_ediv c n
    have hk : ⌊now⌋ / n < c / n + 1 := by
      refine lt_of_mul_lt_mul_left ?_ hn.le
      rw [mul_add, mul_one]
      omega
    have := Int.mul_le_mul_of_nonneg_left (Int.lt_add_one_iff.mp hk) hn.le
    omega

theorem jumpIn_query (n : ℤ) (new old : Pattern Γ α) (st : State Γ) :
    ((jumpIn n now [new, old]).query st : Multiset (Event α)) =
      switched (now + n) (old.query st) (new.query st) :=
  wash_query n now new old [] st

/-- `jumpIn'` counts cycles from the next cycle boundary on. -/
theorem jumpIn'_query (n : ℤ) (new old : Pattern Γ α) (st : State Γ) :
    ((jumpIn' n now [new, old]).query st : Multiset (Event α)) =
      switched (⌊now⌋ + 1 + n : ℤ) (old.query st) (new.query st) := by
  have hc : now + (nextSam now - now + n) = (⌊now⌋ + 1 + n : ℤ) := by
    simp only [nextSam, sam]
    push_cast
    ring
  rw [← hc]
  exact wash_query _ now new old [] st

theorem jumpMod'_query (n p : ℤ) (new old : Pattern Γ α) (st : State Γ) :
    ((jumpMod' n p now [new, old]).query st : Multiset (Event α)) =
      switched (jumpBoundary n p now) (old.query st) (new.query st) := by
  have hc : jumpBoundary n p now = ⌊now⌋ + 1 + (n - 1 - ⌊now⌋ % n + p) := by
    unfold jumpBoundary
    omega
  rw [hc]
  exact jumpIn'_query now _ new old st

/-- With 64 bits the number of cycles to wait is the same for periods of up to 2 ^ 62 cycles. -/
theorem intTime_jumpMod'_eq (hp : 0 ≤ p) (hpn : p < n) (hn : n ≤ 2 ^ 62) (hnow : FitsInt ⌊now⌋)
    (pats : List (Pattern Γ α)) : IntTime.jumpMod' n p now pats = jumpMod' n p now pats := by
  have h0 := Int.emod_nonneg ⌊now⌋ (show n ≠ 0 by omega)
  have h1 := Int.emod_lt_of_pos ⌊now⌋ (show 0 < n by omega)
  have hsub : MachineInt.sub n 1 = n - 1 := MachineInt.wrap_eq_iff.mpr ⟨by omega, by omega⟩
  have hrest : MachineInt.sub (n - 1) (⌊now⌋ % n) = n - 1 - ⌊now⌋ % n :=
    MachineInt.wrap_eq_iff.mpr ⟨by omega, by omega⟩
  have hall : MachineInt.add (n - 1 - ⌊now⌋ % n) p = n - 1 - ⌊now⌋ % n + p :=
    MachineInt.wrap_eq_iff.mpr ⟨by omega, by omega⟩
  rw [IntTime.jumpMod', IntTime.floor, hnow.bmod_eq, hsub, hrest, hall, jumpMod']

theorem jumpMod_eq (n : ℤ) (pats : List (Pattern Γ α)) :
    jumpMod n now pats = jumpMod' n 0 now pats := by
  simp [jumpMod, jumpMod']

/-- `jumpMod'` switches at the next boundary `c` with `c mod n = p` if and only if the offset `p` is not past
the position of the current cycle in its period, or both patterns start the same events in the period of
`n` cycles from `c` on, for which it waits too long. -/
theorem jumpMod'_switches_iff (hp : 0 ≤ p) (hpn : p < n) (new old : Pattern Γ α) :
    (∃ c : ℤ, IsLeast {c : ℤ | now < c ∧ c % n = p} c ∧
      ((∀ st : State Γ, ((jumpMod' n p now [new, old]).query st : Multiset (Event α)) =
          switched c (old.query st) (new.query st)) ↔
        p ≤ ⌊now⌋ % n ∨ ∀ st : State Γ, starting (c : Time) (c + n : ℤ) (old.query st : Multiset (Event α)) =
          starting (c : Time) (c + n : ℤ) (new.query st : Multiset (Event α)))) ∧
    ∀ pats : List (Pattern Γ α), jumpMod n now pats = jumpMod' n 0 now pats := by
  refine ⟨⟨_, isLeast_boundary now hp hpn, ?_⟩, jumpMod_eq now n⟩
  simp only [jumpMod'_query]
  by_cases hle : p ≤ ⌊now⌋ % n
  · rw [if_pos hle]
    exact iff_of_true (fun st => rfl) (Or.inl hle)
  · rw [if_neg hle, or_iff_right hle, sub_add_cancel]
    refine forall_congr' fun st => switched_eq_iff _ _ ?_
    exact_mod_cast (by omega : jumpBoundary n p now - n ≤ jumpBoundary n p now)

theorem jumpMod'_switches_iff_four :
    (∃ c : ℤ, IsLeast {c : ℤ | (9 / 2 : Time) < c ∧ c % 4 = 3} c ∧
      ((∀ st : State Unit, ((jumpMod' 4 3 (9 / 2) [silence, Pattern.pure 0]).query st : Multiset (Event ℕ)) =
          switched c ((Pattern.pure 0).query st) ((silence : Pattern Unit ℕ).query st)) ↔
        3 ≤ ⌊(9 / 2 : Time)⌋ % 4 ∨ ∀ st : State Unit,
          starting (c : Time) (c + 4 : ℤ) ((Pattern.pure 0).query st : Multiset (Event ℕ)) =
            starting (c : Time) (c + 4 : ℤ) ((silence : Pattern Unit ℕ).query st))) ∧
    ∀ pats : List (Pattern Unit ℕ), jumpMod 4 (9 / 2) pats = jumpMod' 4 0 (9 / 2) pats :=
  jumpMod'_switches_iff (9 / 2) (by decide) (by decide) silence (Pattern.pure 0)

/-- In cycle 0 the next boundary with the number 3 modulo 4 is 3, but the old pattern still plays then. -/
theorem jumpMod'_late :
    IsLeast {c : ℤ | (1 / 2 : Time) < c ∧ c % 4 = 3} 3 ∧
    ((jumpMod' 4 3 (1 / 2) [silence, Pattern.pure 0]).query ⟨⟨3, 4⟩, ()⟩ : Multiset (Event ℕ)) ≠
      switched 3 ((Pattern.pure 0).query ⟨⟨3, 4⟩, ()⟩) ((silence : Pattern Unit ℕ).query ⟨⟨3, 4⟩, ()⟩) := by
  refine ⟨⟨⟨by norm_num, by decide⟩, ?_⟩, by with_unfolding_all decide⟩
  rintro c ⟨hc, hmod⟩
  have hpos : (0 : Time) < c := by linarith
  have hpos' : 0 < c := by exact_mod_cast hpos
  omega

end Boundary

end Tidal
