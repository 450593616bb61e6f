import Tidal.Proofs.MeaningProofs

/-!
# Proofs: which events are removed at random

The random number of an event is that of its whole. Whether the event is removed therefore does not depend on
the query, the events that are kept stay as they are, and what one function removes the other one keeps.
-/

namespace Tidal

open EventF Pattern

variable {Γ α : Type} {p : Pattern Γ α}

/-! ## Random numbers -/

/-- The random numbers are from 0 to 1, without 1. -/
theorem luckAt_bounds (seed : Time) (w : Arc) : 0 ≤ luckAt seed w ∧ luckAt seed w < 1 := by
  unfold luckAt timeToRand intSeedToRand
  refine ⟨div_nonneg (Int.cast_nonneg (Int.emod_nonneg _ (by norm_num))) (by norm_num), ?_⟩
  rw [div_lt_one (by norm_num)]
  exact_mod_cast Int.emod_lt_of_pos _ (by norm_num)

/-! ## Events -/

/-- The events of a list in two parts, and what two functions make of the parts. -/
theorem filter_append_map_perm {β : Type} (q : α → Bool) (f g : α → β) (l : List α) :
    ((l.filter q).map f ++ (l.filter fun a => !q a).map g).Perm (l.map fun a => if q a then f a else g a) := by
  have hf : (l.filter q).map f = (l.filter q).map fun a => if q a then f a else g a :=
    List.map_congr_left fun a ha => by rw [if_pos (List.mem_filter.mp ha).2]
  have hg : (l.filter fun a => !q a).map g = (l.filter fun a => !q a).map fun a => if q a then f a else g a :=
    List.map_congr_left fun a ha => by
      rw [if_neg (by simpa using (List.mem_filter.mp ha).2)]
  rw [hf, hg, ← List.map_append]
  exact (List.filter_append_perm q l).map _

theorem degradeByUsing_query (seed x : ℚ) (h : WellFormed True p) {a : Arc} (ha : a.start < a.stop) (m : Γ) :
    (_degradeByUsing (rotL seed rand) x p).query ⟨a, m⟩ =
      (p.query ⟨a, m⟩).filter fun e => luckAt seed e.wholeOrPart > x :=
  byLuck_query (noise_seed seed) (fun r => r > x) h ha m

theorem degradeBy_query (x : ℚ) (h : WellFormed True p) {a : Arc} (ha : a.start < a.stop) (m : Γ) :
    (_degradeBy x p).query ⟨a, m⟩ = (p.query ⟨a, m⟩).filter fun e => luck e.wholeOrPart > x :=
  byLuck_query noise_rand (fun r => r > x) h ha m

theorem unDegradeBy_query (x : ℚ) (h : WellFormed True p) {a : Arc} (ha : a.start < a.stop) (m : Γ) :
    (_unDegradeBy x p).query ⟨a, m⟩ = (p.query ⟨a, m⟩).filter fun e => !decide (luck e.wholeOrPart > x) :=
  (byLuck_query noise_rand (fun r => r ≤ x) h ha m).trans
    (List.filter_congr fun e _ => by simp [← decide_not])

theorem wellFormed_degradeByUsing (seed x : ℚ) (h : WellFormed True p) :
    WellFormed True (_degradeByUsing (rotL seed rand) x p) := wellFormed_byLuck (noise_seed seed) (fun r => r > x) h

theorem wellFormed_degradeBy (x : ℚ) (h : WellFormed True p) : WellFormed True (_degradeBy x p) :=
  wellFormed_byLuck noise_rand (fun r => r > x) h

/-- Removing twice removes as much as the greater of the two would. -/
theorem degradeByUsing_twice (seed x y : ℚ) (h : WellFormed True p) {a : Arc} (ha : a.start < a.stop) (m : Γ) :
    (_degradeByUsing (rotL seed rand) x (_degradeByUsing (rotL seed rand) y p)).query ⟨a, m⟩ =
      (_degradeByUsing (rotL seed rand) (max x y) p).query ⟨a, m⟩ := by
  rw [degradeByUsing_query seed x (wellFormed_degradeByUsing seed y h) ha,
    degradeByUsing_query seed y h ha, degradeByUsing_query seed _ h ha, List.filter_filter]
  exact List.filter_congr fun e _ => by simp

/-- An event is kept by all queries that hear some of it, or by none. -/
theorem degradeByUsing_fate (seed x : ℚ) (h : WellFormed True p) {a b : Arc} (ha : a.start < a.stop)
    (hb : b.start < b.stop) (m : Γ) {e e' : Event α} (he : e ∈ p.query ⟨a, m⟩) (he' : e' ∈ p.query ⟨b, m⟩)
    (hw : e.whole = e'.whole) :
    e ∈ (_degradeByUsing (rotL seed rand) x p).query ⟨a, m⟩ ↔
      e' ∈ (_degradeByUsing (rotL seed rand) x p).query ⟨b, m⟩ := by
  obtain ⟨_, w, hew, _⟩ := h a m ha.le e he
  have hwhole : e.wholeOrPart = e'.wholeOrPart := by rw [wholeOrPart, wholeOrPart, ← hw, hew]; rfl
  rw [degradeByUsing_query seed x h ha, degradeByUsing_query seed x h hb, List.mem_filter, List.mem_filter,
    hwhole]
  exact ⟨fun hkept => ⟨he', hkept.2⟩, fun hkept => ⟨he, hkept.2⟩⟩

/-- Nothing is removed below 0 and everything from 1 on. -/
theorem degradeByUsing_extreme (seed x : ℚ) (h : WellFormed True p) {a : Arc} (ha : a.start < a.stop) (m : Γ) :
    (x < 0 → (_degradeByUsing (rotL seed rand) x p).query ⟨a, m⟩ = p.query ⟨a, m⟩) ∧
    (1 ≤ x → (_degradeByUsing (rotL seed rand) x p).query ⟨a, m⟩ = []) := by
  rw [degradeByUsing_query seed x h ha]
  constructor
  · intro hx
    refine List.filter_eq_self.mpr fun e _ => decide_eq_true ?_
    exact hx.trans_le (luckAt_bounds seed _).1
  · intro hx
    refine List.filter_eq_nil_iff.mpr fun e _ hkept => ?_
    have := (luckAt_bounds seed e.wholeOrPart).2
    linarith [of_decide_eq_true hkept]

/-- A function of values, on the events that `degradeBy` removes: no event is lost, and none doubled. -/
theorem sometimesBy_fmap_query (x : ℚ) (f : α → α) (h : WellFormed True p) {a : Arc} (ha : a.start < a.stop)
    (m : Γ) : ((sometimesBy (Pattern.pure x) (fmap f) p).query ⟨a, m⟩).Perm
      ((p.query ⟨a, m⟩).map fun e => if luck e.wholeOrPart > x then e else e.map f) := by
  have hquery : (sometimesBy (Pattern.pure x) (fmap f) p).query ⟨a, m⟩ =
      ((_degradeBy x p).query ⟨a, m⟩).map id ++ ((_unDegradeBy x p).query ⟨a, m⟩).map (EventF.map f) := by
    rw [List.map_id]
    rfl
  rw [hquery, degradeBy_query x h ha, unDegradeBy_query x h ha]
  refine (filter_append_map_perm (fun e : Event α => decide (luck e.wholeOrPart > x)) id (EventF.map f)
    (p.query ⟨a, m⟩)).trans (List.Perm.of_eq (List.map_congr_left fun e _ => ?_))
  simp only [decide_eq_true_eq, id]

/-- **What is removed at random.** Which events of a strictly well-formed pattern are removed depends on
their wholes alone: every query of some width is answered with the events that are kept, unchanged and in
order; two removals with the same seed are one; and `degradeBy` and `unDegradeBy` divide the events. -/
theorem degradeBy_events (p : Pattern Γ α) (h : WellFormed True p) (m : Γ) (a : Arc) (ha : a.start < a.stop)
    (x : ℚ) :
    (∀ seed y : ℚ,
      (_degradeByUsing (rotL seed rand) x p).query ⟨a, m⟩ =
          ((p.query ⟨a, m⟩).filter fun e => luckAt seed e.wholeOrPart > x) ∧
        (_degradeByUsing (rotL seed rand) x (_degradeByUsing (rotL seed rand) y p)).query ⟨a, m⟩ =
          (_degradeByUsing (rotL seed rand) (max x y) p).query ⟨a, m⟩ ∧
        (x < 0 → (_degradeByUsing (rotL seed rand) x p).query ⟨a, m⟩ = p.query ⟨a, m⟩) ∧
        (1 ≤ x → (_degradeByUsing (rotL seed rand) x p).query ⟨a, m⟩ = []) ∧
        ∀ b : Arc, b.start < b.stop → ∀ e ∈ p.query ⟨a, m⟩, ∀ e' ∈ p.query ⟨b, m⟩, e.whole = e'.whole →
          (e ∈ (_degradeByUsing (rotL seed rand) x p).query ⟨a, m⟩ ↔
            e' ∈ (_degradeByUsing (rotL seed rand) x p).query ⟨b, m⟩)) ∧
    ((_degradeBy x p).query ⟨a, m⟩ ++ (_unDegradeBy x p).query ⟨a, m⟩).Perm (p.query ⟨a, m⟩) ∧
    (_unDegradeBy x (_degradeBy x p)).query ⟨a, m⟩ = [] ∧
    ∀ f : α → α, ((sometimesBy (Pattern.pure x) (fmap f) p).query ⟨a, m⟩).Perm
      ((p.query ⟨a, m⟩).map fun e => if luck e.wholeOrPart > x then e else e.map f) := by
  refine ⟨fun seed y => ⟨degradeByUsing_query seed x h ha m, degradeByUsing_twice seed x y h ha m,
    (degradeByUsing_extreme seed x h ha m).1, (degradeByUsing_extreme seed x h ha m).2,
    fun b hb e he e' he' hw => degradeByUsing_fate seed x h ha hb m he he' hw⟩, ?_, ?_,
    fun f => sometimesBy_fmap_query x f h ha m⟩
  · rw [degradeBy_query x h ha, unDegradeBy_query x h ha]
    exact List.filter_append_perm _ _
  · rw [unDegradeBy_query x (wellFormed_degradeBy x h) ha, degradeBy_query x h ha, List.filter_filter]
    exact List.filter_eq_nil_iff.mpr fun e _ => by simp

theorem degradeBy_events_offbeat :
    (∀ seed y : ℚ,
      (_degradeByUsing (rotL seed rand) (1 / 2) offbeat).query ⟨⟨0, 1⟩, ()⟩ =
          ((offbeat.query ⟨⟨0, 1⟩, ()⟩).filter fun e => luckAt seed e.wholeOrPart > 1 / 2) ∧
        (_degradeByUsing (rotL seed rand) (1 / 2)
            (_degradeByUsing (rotL seed rand) y offbeat)).query ⟨⟨0, 1⟩, ()⟩ =
          (_degradeByUsing (rotL seed rand) (max (1 / 2) y) offbeat).query ⟨⟨0, 1⟩, ()⟩ ∧
        ((1 / 2 : ℚ) < 0 → (_degradeByUsing (rotL seed rand) (1 / 2) offbeat).query ⟨⟨0, 1⟩, ()⟩ =
          offbeat.query ⟨⟨0, 1⟩, ()⟩) ∧
        ((1 : ℚ) ≤ 1 / 2 → (_degradeByUsing (rotL seed rand) (1 / 2) offbeat).query ⟨⟨0, 1⟩, ()⟩ = []) ∧
        ∀ b : Arc, b.start < b.stop → ∀ e ∈ offbeat.query ⟨⟨0, 1⟩, ()⟩, ∀ e' ∈ offbeat.query ⟨b, ()⟩,
          e.whole = e'.whole →
            (e ∈ (_degradeByUsing (rotL seed rand) (1 / 2) offbeat).query ⟨⟨0, 1⟩, ()⟩ ↔
              e' ∈ (_degradeByUsing (rotL seed rand) (1 / 2) offbeat).query ⟨b, ()⟩)) ∧
    ((_degradeBy (1 / 2) offbeat).query ⟨⟨0, 1⟩, ()⟩ ++ (_unDegradeBy (1 / 2) offbeat).query ⟨⟨0, 1⟩, ()⟩).Perm
      (offbeat.query ⟨⟨0, 1⟩, ()⟩) ∧
    (_unDegradeBy (1 / 2) (_degradeBy (1 / 2) offbeat)).query ⟨⟨0, 1⟩, ()⟩ = [] ∧
    ∀ f : ℕ → ℕ, ((sometimesBy (Pattern.pure (1 / 2)) (fmap f) offbeat).query ⟨⟨0, 1⟩, ()⟩).Perm
      ((offbeat.query ⟨⟨0, 1⟩, ()⟩).map fun e => if luck e.wholeOrPart > 1 / 2 then e else e.map f) :=
  degradeBy_events offbeat (wellFormed_rotL _ (wellFormed_pure 0)) () ⟨0, 1⟩ (by norm_num) (1 / 2)

end Tidal
