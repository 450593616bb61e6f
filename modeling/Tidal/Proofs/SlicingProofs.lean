import Tidal.UI
import Tidal.Proofs.WarpProofs

/-!
# What depends on where a query starts

`whenT` asks its test about the start of the piece of the query that is in the cycle, and `_fit` counts the
cycles up to the start of a fragment. Both starts are made by the caller who cuts the query, not by the
pattern.
-/

namespace Tidal

open Pattern EventF

variable {Γ α : Type} {m : Γ} {a b : Arc} {t : Time}

/-! ## Tests on times -/

theorem act_whenT {test : Time → Bool} {f : Pattern Γ α → Pattern Γ α} {p : Pattern Γ α} (hp : CutFree p)
    (hf : CutFree (f p)) (hat : isIn a t) :
    act (whenT test f p) m a t =
      if test (max a.start (sam t)) then behaviour (f p) m t else behaviour p m t := by
  have h : act (whenT test f p) m a t =
      activeIn (whenTPiece test f p ⟨sect a (timeToCycleArc t), m⟩) t :=
    act_cycles (g := whenTPiece test f p) hat fun b hb _ hbt => by
      unfold whenTPiece
      split
      · exact hf.isLocal b m t hb hbt
      · exact hp.isLocal b m t hb hbt
  rw [h, whenTPiece]
  by_cases htest : test (max a.start (sam t))
  · rw [if_pos htest, if_pos (by exact htest)]
    exact hf.steady.act_eq m (isIn_piece hat)
  · rw [if_neg htest, if_neg (by exact htest)]
    exact hp.steady.act_eq m (isIn_piece hat)

/-- All queries that hold a moment get the same from `whenT` there exactly if the test does not change in
the cycle up to the moment, or if the function makes no difference at the moment. -/
theorem act_whenT_same_iff (test : Time → Bool) (f : Pattern Γ α → Pattern Γ α) {p : Pattern Γ α}
    (hp : CutFree p) (hf : CutFree (f p)) (m : Γ) (t : Time) :
    (∀ a b, isIn a t → isIn b t → act (whenT test f p) m a t = act (whenT test f p) m b t) ↔
      (∀ u, sam t ≤ u → u ≤ t → test u = test t) ∨ behaviour (f p) m t = behaviour p m t := by
  constructor
  · intro h
    by_cases hb : behaviour (f p) m t = behaviour p m t
    · exact Or.inr hb
    · left
      intro u hu hut
      -- a query that starts at `u`, and one that starts at the moment
      have hin : isIn ⟨u, t + 1⟩ t := ⟨hut, lt_add_one t⟩
      have heq := h _ _ hin (isIn_now t)
      rw [act_whenT hp hf hin, act_whenT hp hf (isIn_now t), max_eq_left hu,
        max_eq_left (sam_le t)] at heq
      by_cases h1 : test u <;> by_cases h2 : test t
      · rw [h1, h2]
      · rw [if_pos h1, if_neg h2] at heq
        exact absurd heq hb
      · rw [if_neg h1, if_pos h2] at heq
        exact absurd heq.symm hb
      · rw [Bool.not_eq_true] at h1 h2
        rw [h1, h2]
  · intro h a b ha hb
    rw [act_whenT hp hf ha, act_whenT hp hf hb]
    rcases h with h | h
    · rw [h _ (le_max_right _ _) (max_le ha.1 (sam_le t)), h _ (le_max_right _ _) (max_le hb.1 (sam_le t))]
    · rw [h, ite_self, ite_self]

/-- What `whenT` and `_whenmod` play at a moment is the same for all queries exactly if the test gives one
answer for all times from the start of the cycle to the moment, or if it makes no difference. -/
theorem whenT_slicing_iff (f : Pattern Γ α → Pattern Γ α) (p : Pattern Γ α) (hp : CutFree p)
    (hf : CutFree (f p)) (m : Γ) (t : Time) :
    (∀ test : Time → Bool,
      (∀ a b, isIn a t → isIn b t → act (whenT test f p) m a t = act (whenT test f p) m b t) ↔
        (∀ u, sam t ≤ u → u ≤ t → test u = test t) ∨ behaviour (f p) m t = behaviour p m t) ∧
    ∀ r b : Time,
      (∀ x y, isIn x t → isIn y t → act (_whenmod r b f p) m x t = act (_whenmod r b f p) m y t) ↔
        (∀ u, sam t ≤ u → u ≤ t → (mod' u r ≥ b ↔ mod' t r ≥ b)) ∨
          behaviour (f p) m t = behaviour p m t := by
  refine ⟨fun test => act_whenT_same_iff test f hp hf m t, fun r b => ?_⟩
  rw [_whenmod, act_whenT_same_iff _ f hp hf m t]
  simp only [decide_eq_decide]

/-- Values moved up by one. -/
def raised (p : Pattern Unit ℕ) : Pattern Unit ℕ := fmap (· + 1) p

theorem seamless_raised {p : Pattern Unit ℕ} (hp : Seamless p) : Seamless (raised p) where
  digital := by
    intro a m ha e he
    obtain ⟨e', he', rfl⟩ := List.mem_map.mp he
    exact hp.digital a m ha e' he'
  inWhole := by
    intro a m ha e he
    obtain ⟨e', he', rfl⟩ := List.mem_map.mp he
    exact hp.inWhole a m ha e' he'
  cutFree := by
    refine cutFree_iff.mpr ⟨steady_fmap _ hp.steady, fun a m t ha hat => ?_⟩
    rw [raised, act_fmap, hp.isLocal a m t ha hat, Multiset.map_zero]

theorem whenT_slicing_iff_pure :
    (∀ test : Time → Bool,
      (∀ a b, isIn a (3 / 4) → isIn b (3 / 4) → act (whenT test raised (Pattern.pure 0)) () a (3 / 4) =
          act (whenT test raised (Pattern.pure 0)) () b (3 / 4)) ↔
        (∀ u, sam (3 / 4) ≤ u → u ≤ 3 / 4 → test u = test (3 / 4)) ∨
          behaviour (raised (Pattern.pure 0)) () (3 / 4) =
            behaviour (Pattern.pure 0 : Pattern Unit ℕ) () (3 / 4)) ∧
    ∀ r b : Time,
      (∀ x y, isIn x (3 / 4) → isIn y (3 / 4) → act (_whenmod r b raised (Pattern.pure 0)) () x (3 / 4) =
          act (_whenmod r b raised (Pattern.pure 0)) () y (3 / 4)) ↔
        (∀ u, sam (3 / 4) ≤ u → u ≤ 3 / 4 → (mod' u r ≥ b ↔ mod' (3 / 4) r ≥ b)) ∨
          behaviour (raised (Pattern.pure 0)) () (3 / 4) =
            behaviour (Pattern.pure 0 : Pattern Unit ℕ) () (3 / 4) :=
  whenT_slicing_iff raised (Pattern.pure 0) (regular_pure 0).seamless.cutFree
    (seamless_raised (regular_pure 0).seamless).cutFree () (3 / 4)

/-- The second half of each cycle is to be raised. Asked about the whole cycle it is not. -/
theorem whenmod_sliced :
    (∀ p, Seamless p → Seamless (raised p)) ∧ Seamless (Pattern.pure 0 : Pattern Unit ℕ) ∧
    act (_whenmod 1 (1 / 2) raised (Pattern.pure 0)) () ⟨0, 1⟩ (3 / 4) = {(some ⟨0, 1⟩, 0)} ∧
    act (_whenmod 1 (1 / 2) raised (Pattern.pure 0)) () ⟨1 / 2, 1⟩ (3 / 4) = {(some ⟨0, 1⟩, 1)} := by
  have hp : CutFree (Pattern.pure 0 : Pattern Unit ℕ) := (regular_pure 0).seamless.cutFree
  have hf : CutFree (raised (Pattern.pure 0)) := (seamless_raised (regular_pure 0).seamless).cutFree
  have h0 : behaviour (Pattern.pure 0 : Pattern Unit ℕ) () (3 / 4) = {(some ⟨0, 1⟩, 0)} := by
    with_unfolding_all decide
  have h1 : behaviour (raised (Pattern.pure 0)) () (3 / 4) = {(some ⟨0, 1⟩, 1)} := by
    with_unfolding_all decide
  refine ⟨fun p hp => seamless_raised hp, (regular_pure 0).seamless, ?_, ?_⟩
  · rw [_whenmod, act_whenT hp hf (by norm_num [isIn]), h0, if_neg (by with_unfolding_all decide)]
  · rw [_whenmod, act_whenT hp hf (by norm_num [isIn]), h1, if_pos (by with_unfolding_all decide)]

/-! ## Steps counted in cycles -/

variable {p : Pattern Γ ℤ} {perCycle : ℤ} {xs : Choices α} {w : Arc} {v : ℤ}

theorem fit_query (perCycle : ℤ) (xs : Choices α) (p : Pattern Γ ℤ) (st : State Γ) :
    (_fit perCycle xs p).query st = (p.query st).map fun e => (fitEvent perCycle e).map xs.at := by
  simp only [_fit, fmap, List.map_map]
  rfl

theorem fit_value (perCycle : ℤ) (xs : Choices α) (e : Event ℤ) :
    ((fitEvent perCycle e).map xs.at).value = xs.at (fitAt perCycle e.value ⌊e.part.start⌋) := rfl

/-- Some query returns a fragment of the event with whole `w` and value `v` that starts at `s`. -/
def FragmentAt (p : Pattern Γ ℤ) (m : Γ) (w : Arc) (v : ℤ) (s : Time) : Prop :=
  ∃ a : Arc, a.start ≤ a.stop ∧ ∃ e ∈ p.query ⟨a, m⟩, e.whole = some w ∧ e.value = v ∧ e.part.start = s

/-- A fragment that can be heard starts while the event plays. -/
theorem CutFree.plays_at_start (hp : CutFree p) (ha : a.start < a.stop) {e : Event ℤ}
    (he : e ∈ p.query ⟨a, m⟩) (hpos : e.part.start < e.part.stop) :
    (e.whole, e.value) ∈ behaviour p m e.part.start := by
  have hin := hp.isLocal.within ha he hpos
  have hstart : isIn a e.part.start := ⟨hin.1, hpos.trans_le hin.2.2⟩
  rw [← hp.steady.act_eq m hstart]
  exact mem_activeIn.mpr ⟨e, he, ⟨le_rfl, hpos⟩, rfl⟩

/-- Where an event plays, some query returns a fragment that starts there and can be heard. -/
theorem CutFree.audibleAt (hp : CutFree p) (h : (some w, v) ∈ behaviour p m t) :
    ∃ a : Arc, a.start < a.stop ∧ ∃ e ∈ p.query ⟨a, m⟩, e.part.start < e.part.stop ∧ e.whole = some w ∧
      e.value = v ∧ e.part.start = t := by
  obtain ⟨e, he, ht, heq⟩ := mem_activeIn.mp h
  have hin := hp.isLocal.within (isIn_pos (isIn_now t)) he (isIn_pos ht)
  refine ⟨⟨t, t + 1⟩, lt_add_one t, e, he, isIn_pos ht, (Prod.mk.inj heq).1, (Prod.mk.inj heq).2, ?_⟩
  exact le_antisymm ht.1 hin.1

theorem CutFree.fragmentAt (hp : CutFree p) (h : (some w, v) ∈ behaviour p m t) :
    FragmentAt p m w v t := by
  obtain ⟨a, ha, e, he, -, hw, hv, hs⟩ := hp.audibleAt h
  exact ⟨a, ha.le, e, he, hw, hv, hs⟩

/-- Some query returns a fragment of no width of the event with whole `w` and value `v` at `s`, or has no width
itself. -/
def ThinAt (p : Pattern Γ ℤ) (m : Γ) (w : Arc) (v : ℤ) (s : Time) : Prop :=
  ∃ a : Arc, a.start ≤ a.stop ∧ ∃ e ∈ p.query ⟨a, m⟩, e.whole = some w ∧ e.value = v ∧ e.part.start = s ∧
    (a.start = a.stop ∨ e.part.stop ≤ e.part.start)

/-- Fragments start where the event plays, those of no width apart. -/
theorem CutFree.fragmentAt_iff (hp : CutFree p) (s : Time) :
    FragmentAt p m w v s ↔ (some w, v) ∈ behaviour p m s ∨ ThinAt p m w v s := by
  constructor
  · rintro ⟨a, ha, e, he, hw, hv, rfl⟩
    by_cases hthin : a.start = a.stop ∨ e.part.stop ≤ e.part.start
    · exact Or.inr ⟨a, ha, e, he, hw, hv, rfl, hthin⟩
    · obtain ⟨hne, hpos⟩ := not_or.mp hthin
      left
      rw [← hw, ← hv]
      exact hp.plays_at_start (ha.lt_of_ne hne) he (not_le.mp hpos)
  · rintro (h | ⟨a, ha, e, he, hw, hv, hs, -⟩)
    · exact hp.fragmentAt h
    · exact ⟨a, ha, e, he, hw, hv, hs⟩

/-- `_fit` gives an event one value in all queries exactly if the list has the same element for all cycles in
which the event plays, and for those in which fragments of no width start. Fragments that can be heard have one
value exactly if it has the same element for all cycles in which the event plays. -/
theorem fit_same_iff (perCycle : ℤ) (xs : Choices α) (p : Pattern Γ ℤ) (hp : Seamless p) (m : Γ) (w : Arc)
    (v : ℤ) :
    ((∀ a b : Arc, a.start ≤ a.stop → b.start ≤ b.stop → ∀ e ∈ p.query ⟨a, m⟩, ∀ e' ∈ p.query ⟨b, m⟩,
        (e.whole, e.value) = (some w, v) → (e'.whole, e'.value) = (some w, v) →
          ((fitEvent perCycle e).map xs.at).value = ((fitEvent perCycle e').map xs.at).value) ↔
      ∀ s s', ((some w, v) ∈ behaviour p m s ∨ ThinAt p m w v s) →
        ((some w, v) ∈ behaviour p m s' ∨ ThinAt p m w v s') →
          xs.at (fitAt perCycle v ⌊s⌋) = xs.at (fitAt perCycle v ⌊s'⌋)) ∧
    ((∀ a b : Arc, a.start < a.stop → b.start < b.stop → ∀ e ∈ p.query ⟨a, m⟩, ∀ e' ∈ p.query ⟨b, m⟩,
        e.part.start < e.part.stop → e'.part.start < e'.part.stop →
          (e.whole, e.value) = (some w, v) → (e'.whole, e'.value) = (some w, v) →
            ((fitEvent perCycle e).map xs.at).value = ((fitEvent perCycle e').map xs.at).value) ↔
      ∀ s s', (some w, v) ∈ behaviour p m s → (some w, v) ∈ behaviour p m s' →
        xs.at (fitAt perCycle v ⌊s⌋) = xs.at (fitAt perCycle v ⌊s'⌋)) ∧
    (∀ st, (_fit perCycle xs p).query st = (p.query st).map fun e => (fitEvent perCycle e).map xs.at) := by
  refine ⟨⟨?_, ?_⟩, ⟨?_, ?_⟩, fit_query perCycle xs p⟩
  · intro h s s' hs hs'
    obtain ⟨a, ha, e, he, hw, hv, rfl⟩ := (hp.cutFree.fragmentAt_iff s).mpr hs
    obtain ⟨b, hb, e', he', hw', hv', rfl⟩ := (hp.cutFree.fragmentAt_iff s').mpr hs'
    have hsame := h a b ha hb e he e' he' (by rw [hw, hv]) (by rw [hw', hv'])
    rwa [fit_value, fit_value, hv, hv'] at hsame
  · intro h a b ha hb e he e' he' heq heq'
    obtain ⟨hw, hv⟩ := Prod.mk.inj heq
    obtain ⟨hw', hv'⟩ := Prod.mk.inj heq'
    rw [fit_value, fit_value, hv, hv']
    exact h _ _ ((hp.cutFree.fragmentAt_iff _).mp ⟨a, ha, e, he, hw, hv, rfl⟩)
      ((hp.cutFree.fragmentAt_iff _).mp ⟨b, hb, e', he', hw', hv', rfl⟩)
  · intro h s s' hs hs'
    obtain ⟨a, ha, e, he, hpos, hw, hv, rfl⟩ := hp.cutFree.audibleAt hs
    obtain ⟨b, hb, e', he', hpos', hw', hv', rfl⟩ := hp.cutFree.audibleAt hs'
    have hsame := h a b ha hb e he e' he' hpos hpos' (by rw [hw, hv]) (by rw [hw', hv'])
    rwa [fit_value, fit_value, hv, hv'] at hsame
  · intro h a b ha hb e he e' he' hpos hpos' heq heq'
    have hplays := hp.cutFree.plays_at_start ha he hpos
    have hplays' := hp.cutFree.plays_at_start hb he' hpos'
    rw [heq] at hplays
    rw [heq'] at hplays'
    rw [fit_value, fit_value, (Prod.mk.inj heq).2, (Prod.mk.inj heq').2]
    exact h _ _ hplays hplays'

/-- A note that lasts for two cycles. -/
def longNote : Pattern Unit ℤ := _slow 2 (Pattern.pure 0)

theorem seamless_longNote : Seamless longNote := by
  rw [longNote, _slow, if_neg (by decide)]
  exact (regular_fast _ (regular_pure 0)).seamless

/-- With steps of two elements the note stays on the first one. -/
theorem fit_same_iff_longNote :
    (∀ a b : Arc, a.start < a.stop → b.start < b.stop → ∀ e ∈ longNote.query ⟨a, ()⟩,
      ∀ e' ∈ longNote.query ⟨b, ()⟩, e.part.start < e.part.stop → e'.part.start < e'.part.stop →
        (e.whole, e.value) = (some ⟨0, 2⟩, 0) → (e'.whole, e'.value) = (some ⟨0, 2⟩, 0) →
          ((fitEvent 2 e).map (Choices.mk [5, 7] (by decide)).at).value =
            ((fitEvent 2 e').map (Choices.mk [5, 7] (by decide)).at).value) ∧
    (_fit 2 ⟨[5, 7], by decide⟩ longNote).query ⟨⟨0, 1⟩, ()⟩ =
      (longNote.query ⟨⟨0, 1⟩, ()⟩).map fun e => (fitEvent 2 e).map (Choices.mk [5, 7] (by decide)).at := by
  obtain ⟨-, hwide, hquery⟩ := fit_same_iff 2 ⟨[5, 7], by decide⟩ longNote seamless_longNote () ⟨0, 2⟩ 0
  refine ⟨hwide.mpr ?_, hquery _⟩
  intro s s' hs hs'
  have hcycle : ∀ u, (some ⟨0, 2⟩, 0) ∈ behaviour longNote () u → ⌊u⌋ = 0 ∨ ⌊u⌋ = 1 := by
    intro u hu
    obtain ⟨e, he, hpart, heq⟩ := mem_activeIn.mp hu
    have hin := (seamless_longNote.inWhole _ () (by simp) e he _ (Prod.mk.inj heq).1)
    have h0 : (0 : ℚ) ≤ u := hin.1.trans hpart.1
    have h2 : u < 2 := hpart.2.trans_le hin.2.2
    have h3 : 0 ≤ ⌊u⌋ := Int.floor_nonneg.mpr h0
    have h4 : ⌊u⌋ < 2 := Int.floor_lt.mpr (by exact_mod_cast h2)
    omega
  rcases hcycle s hs with h | h <;> rcases hcycle s' hs' with h' | h' <;> rw [h, h'] <;> rfl

/-- The note plays the first element in its first cycle and the second in the next. -/
theorem fit_longNote_changes :
    Seamless longNote ∧
    (_fit 1 ⟨[5, 7], by decide⟩ longNote).query ⟨⟨0, 1⟩, ()⟩ = [⟨⟨[]⟩, some ⟨0, 2⟩, ⟨0, 1⟩, 5⟩] ∧
    (_fit 1 ⟨[5, 7], by decide⟩ longNote).query ⟨⟨1, 2⟩, ()⟩ = [⟨⟨[]⟩, some ⟨0, 2⟩, ⟨1, 2⟩, 7⟩] :=
  ⟨seamless_longNote, by with_unfolding_all decide, by with_unfolding_all decide⟩

end Tidal
