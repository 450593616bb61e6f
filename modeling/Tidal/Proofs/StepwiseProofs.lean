import Tidal.Stepwise
import Tidal.Proofs.PureValueProofs
import Tidal.Proofs.TimeCatProofs
import Tidal.Proofs.ZoomProofs

/-!
# Proofs: stepwise joins, and the cycle they are built from

A query of `stepJoin` lays out the cycle of the outer pattern in which the query starts, and plays it for
all of its span. The layout is a pattern that does not depend on how it is asked; which cycle is laid out
does.
-/

namespace Tidal

open EventF Pattern

variable {Γ α β : Type} {p : Pattern Γ α} {m : Γ} {a b : Arc} {t : Time}

/-! ## Patterns that do not depend on the cut -/

/-- A digital pattern with a positive tactus, whose answers do not depend on how the query is cut. -/
structure Stepping (p : Pattern Γ α) : Prop where
  digital : ∀ a m, a.start ≤ a.stop → ∀ e ∈ p.query ⟨a, m⟩, e.isDigital
  tactus : ∃ t, p.tactus = some t ∧ 0 < t
  cutFree : CutFree p

theorem cutFree_nothing : CutFree (nothing : Pattern Γ α) :=
  cutFree_iff.mpr ⟨fun _ _ _ _ _ _ => rfl, fun _ _ _ _ _ => rfl⟩

theorem cutFree_stack {ps : List (Pattern Γ α)} (h : ∀ p ∈ ps, CutFree p) : CutFree (stack ps) := by
  refine cutFree_iff.mpr ⟨steady_stack fun p hp => (h p hp).steady, fun a m t ha hat => ?_⟩
  rw [act_stack]
  refine List.sum_eq_zero fun s hs => ?_
  obtain ⟨p, hp, rfl⟩ := List.mem_map.mp hs
  exact (h p hp).isLocal a m t ha hat

/-- An arc that is no timespan of the cycle leaves nothing to play. -/
theorem compressArc_query_nil {s e : Time} (h : ¬ (0 ≤ s ∧ s < e ∧ e ≤ 1)) (st : State Γ) :
    (compressArc ⟨s, e⟩ p).query st = [] := by
  unfold compressArc
  split_ifs with h1 h2 h3
  · rfl
  · rfl
  · rfl
  · have hse : s = e := by
      by_contra hne
      simp only [not_lt, not_or] at h1 h2 h3
      exact h ⟨h3.1, lt_of_le_of_ne h1 hne, h2.2⟩
    simp only [hse, sub_self, div_zero, _fastGap]
    rfl

theorem CutFree.compressArc (h : CutFree p) (c : Arc) : CutFree (compressArc c p) := by
  obtain ⟨s, e⟩ := c
  refine cutFree_iff.mpr ⟨fun a b m t ha hb => ?_, h.isLocal.compressArc _⟩
  by_cases hplace : 0 ≤ s ∧ s < e ∧ e ≤ 1
  · obtain ⟨h0, hse, he⟩ := hplace
    rw [act_compressArc_steady h.isLocal h.steady h0 hse he ha,
      act_compressArc_steady h.isLocal h.steady h0 hse he hb]
  · rw [act, act, compressArc_query_nil hplace, compressArc_query_nil hplace]

theorem cutFree_timeCat {tps : List (Time × Pattern Γ α)} (h : ∀ x ∈ tps, CutFree x.2) :
    CutFree (timeCat tps) := by
  have hstack : ∀ T : Time, CutFree (stack ((Pattern.arrange 0 (tps.filter fun x => x.1 > 0)).map fun x =>
      compressArc ⟨x.1 / T, x.2.1 / T⟩ x.2.2)) := fun T => cutFree_stack fun q hq => by
    obtain ⟨z, hz, rfl⟩ := List.mem_map.mp hq
    obtain ⟨-, -, -, x, hx, heq⟩ := mem_arrange (fun v hv => by simpa using (List.mem_filter.mp hv).2) hz
    rw [← heq]
    exact (h x (List.mem_filter.mp hx).1).compressArc _
  match tps, h, hstack with
  | [], _, hstack => exact hstack 0
  | [x], h, _ => exact h x (List.mem_singleton_self x)
  | _ :: _ :: _, _, hstack => exact hstack _

theorem CutFree.zoomArc (h : CutFree p) {c : Arc} (h0 : 0 ≤ c.start) (hlt : c.start < c.stop)
    (h1 : c.stop ≤ 1) : CutFree (zoomArc c p) := by
  refine cutFree_iff.mpr ⟨fun a b m t ha hb => ?_, fun a m t ha hat => ?_⟩
  · rw [act_zoomArc h.isLocal h.steady h0 hlt h1 ha, act_zoomArc h.isLocal h.steady h0 hlt h1 hb]
  · exact activeIn_cycles_eq_zero (g := fun b => (p.query ⟨zoomQuery c b, m⟩).map (mapArc (zoomResult c)))
      ha hat fun b hb hn hbt => by rw [activeIn_zoomPiece h.isLocal h.steady h0 hlt h1 hb hn, if_neg hbt]

/-! ## Taking and dropping steps -/

theorem Stepping.s_add (h : Stepping p) (r : ℚ) : CutFree (_s_add r p) := by
  obtain ⟨t, ht, hpos⟩ := h.tactus
  rw [_s_add, ht]
  simp only
  split_ifs with h0 hall hneg
  · exact cutFree_nothing
  · exact h.cutFree
  · have hlt : |r| / t < 1 := by rw [div_lt_one hpos]; exact not_le.mp hall
    have hr : 0 < |r| / t := div_pos (abs_pos.mpr h0) hpos
    exact h.cutFree.zoomArc (c := ⟨1 - |r| / t, 1⟩) (by simp only; linarith) (by simp only; linarith) le_rfl
  · have hr : 0 < r := lt_of_le_of_ne (not_lt.mp hneg) (Ne.symm h0)
    rw [abs_of_pos hr, ge_iff_le, not_le] at hall
    exact h.cutFree.zoomArc (c := ⟨0, r / t⟩) le_rfl (div_pos hr hpos) (by
      simp only; rw [div_le_one hpos]; exact hall.le)

theorem Stepping.s_sub (h : Stepping p) (r : ℚ) : CutFree (_s_sub r p) := by
  obtain ⟨t, ht, _⟩ := h.tactus
  rw [_s_sub, ht]
  simp only
  split_ifs
  · exact cutFree_nothing
  · exact h.s_add _
  · exact h.s_add _

/-! ## One cycle, laid out -/

theorem mem_cycleSteps {pp : Pattern Γ (Pattern Γ α)} {s : Time} {x : Time × Pattern Γ α}
    (hx : x ∈ cycleSteps pp m s) : ∃ vs, x.2 = stack vs ∧
      ∀ v ∈ vs, ∃ e ∈ pp.query ⟨⟨0 + s, 1 + s⟩, m⟩, e.value = v := by
  obtain ⟨y, hy, hxy⟩ := List.mem_map.mp hx
  obtain ⟨z, _, rfl⟩ := List.mem_map.mp hy
  have hsnd : x.2 = stack ((Pattern.fit z.1 z.2 ((rotL s pp).query ⟨⟨0, 1⟩, m⟩)).map EventF.value) := by
    rw [← hxy]
    simp only
    split <;> rfl
  refine ⟨_, hsnd, fun v hv => ?_⟩
  obtain ⟨e, he, rfl⟩ := List.mem_map.mp hv
  obtain ⟨e', he', hmatch⟩ := List.mem_filterMap.mp he
  obtain ⟨e'', he'', rfl⟩ := List.mem_map.mp he'
  refine ⟨e'', he'', ?_⟩
  unfold Pattern.match' at hmatch
  obtain ⟨_, _, hval⟩ := Option.bind_eq_some_iff.mp hmatch
  rw [← Option.some.inj hval]
  rfl

/-- The values of an outer pattern do not depend on the cut. -/
theorem cutFree_cycleSteps {pp : Pattern Γ (Pattern Γ α)} (h : Values CutFree pp) (s : Time) :
    CutFree (timeCat (cycleSteps pp m s)) :=
  cutFree_timeCat fun x hx => by
    obtain ⟨vs, heq, hvs⟩ := mem_cycleSteps hx
    rw [heq]
    refine cutFree_stack fun v hv => ?_
    obtain ⟨e, he, rfl⟩ := hvs v hv
    exact h _ _ (by simp) e he

theorem values_fmap {f : β → α} {P : α → Prop} {q : Pattern Γ β} (h : Values (fun v => P (f v)) q) :
    Values P (Pattern.fmap f q) := by
  intro a m ha e he
  obtain ⟨e', he', rfl⟩ := List.mem_map.mp he
  exact h a m ha e' he'

/-! ## An outer pattern of one event -/

/-- The value `v` in cycle `k`, and nothing in the others. -/
def inCycle (k : ℤ) (v : β) : Pattern Γ β :=
  pattern (filterWhen (fun s => s = k) (Pattern.pure v)).query

theorem slices_one (e : Event (Pattern Γ α)) (he : e.part = ⟨0, 1⟩) : slices [e] = [(1, stack [e.value])] := by
  have hpoints : pairs (([0, 1, 0, 1] : List Time).eraseDups.insertionSort (· ≤ ·)) = [(0, 1)] := by
    decide
  have hmatch : Pattern.match' 0 1 e = some e := by
    have hsub : subArc ⟨0, 1⟩ ⟨0, 1⟩ = some ⟨0, 1⟩ := by decide
    unfold Pattern.match'
    rw [he, hsub, ← he]
    rfl
  simp only [slices, List.flatMap_cons, List.flatMap_nil, List.append_nil, he, hpoints, List.map_cons,
    List.map_nil, sub_zero, Pattern.fit, List.filterMap_cons, hmatch, List.filterMap_nil]

theorem slices_nil : slices ([] : List (Event (Pattern Γ α))) = [(1, stack [])] := by
  have hpoints : pairs (([0, 1] : List Time).eraseDups.insertionSort (· ≤ ·)) = [(0, 1)] := by
    decide
  simp only [slices, List.flatMap_nil, hpoints, List.map_cons, List.map_nil, sub_zero, Pattern.fit,
    List.filterMap_nil]

theorem timeCat_retime_one (w : Time) (q : Pattern Γ α) : timeCat (retime [(w, q)]) = q := by
  simp only [retime, List.map_cons, List.map_nil]
  split <;> rfl

theorem inCycle_query (k : ℤ) (f : β → Pattern Γ α) (r : β) (j : ℤ) :
    (rotL (j : Time) (Pattern.fmap f (inCycle k r))).query ⟨⟨0, 1⟩, m⟩ =
      if j = k then [⟨⟨[]⟩, some ⟨0, 1⟩, ⟨0, 1⟩, f r⟩] else [] := by
  have hquery : (Pattern.fmap f (inCycle k r)).query ⟨⟨j, j + 1⟩, m⟩ =
      if j = k then [⟨⟨[]⟩, some ⟨j, j + 1⟩, ⟨j, j + 1⟩, f r⟩] else [] := by
    show (((Pattern.pure r : Pattern Γ β).query ⟨⟨j, j + 1⟩, m⟩).filter _).map _ = _
    rw [pure_query_cycle]
    split_ifs with hj
    · subst hj
      simp [wholeStart, wholeOrPart, EventF.map]
    · simp [wholeStart, wholeOrPart, hj]
  show ((Pattern.fmap f (inCycle k r)).query ⟨⟨0 + j, 1 + j⟩, m⟩).map _ = _
  rw [zero_add, add_comm 1, hquery]
  split_ifs
  · simp [mapArc, ArcF.map]
  · rfl

/-! ## Joins -/

section Join

variable [EmptyCollection Γ] {pp : Pattern Γ (Pattern Γ α)}

/-- A query plays the cycle of the outer pattern in which it starts. -/
theorem act_stepJoin (pp : Pattern Γ (Pattern Γ α)) :
    act (stepJoin pp) m a t = act (timeCat (cycleSteps pp m (sam a.start))) m a t := by
  unfold act stepJoin
  rfl

theorem act_stepJoin_behaviour (h : Values CutFree pp) (hat : isIn a t) :
    act (stepJoin pp) m a t = behaviour (timeCat (cycleSteps pp m (sam a.start))) m t := by
  rw [act_stepJoin]
  exact (cutFree_cycleSteps h _).steady.act_eq m hat

theorem act_stepJoin_same (h : Values CutFree pp) (ha : isIn a t) (hb : isIn b t)
    (hsam : sam a.start = sam b.start) : act (stepJoin pp) m a t = act (stepJoin pp) m b t := by
  rw [act_stepJoin_behaviour h ha, act_stepJoin_behaviour h hb, hsam]

/-- It is heard, as `f` makes it, by the queries that start in its cycle. -/
theorem act_stepJoin_inCycle (f : β → Pattern Γ α) (r : β) (k : ℤ) :
    act (stepJoin (Pattern.fmap f (inCycle k r))) m a t =
      if ⌊a.start⌋ = k then act (f r) m a t else 0 := by
  rw [act_stepJoin, cycleSteps, sam, inCycle_query]
  split_ifs
  · rw [slices_one _ rfl, timeCat_retime_one, act_stack]
    simp
  · rw [slices_nil, timeCat_retime_one, act_stack]
    rfl

/-- If all such outer patterns sound the same to two queries, these start in the same cycle. -/
theorem sam_eq_of_inCycle {f : β → Pattern Γ α} {r : β} (hf : act (f r) m a t ≠ 0)
    (h : act (stepJoin (Pattern.fmap f (inCycle ⌊a.start⌋ r))) m a t =
      act (stepJoin (Pattern.fmap f (inCycle ⌊a.start⌋ r))) m b t) : sam a.start = sam b.start := by
  rw [act_stepJoin_inCycle, act_stepJoin_inCycle, if_pos rfl] at h
  split_ifs at h with hsame
  · rw [sam, sam, hsame]
  · exact absurd h hf

/-- A function of a patterned number, joined stepwise: it does not depend on the slicing exactly when both
queries start in the same cycle. -/
theorem s_patternify_slicing_iff {F : ℚ → Pattern Γ α → Pattern Γ α} {D : ℚ → Prop} {q : Pattern Γ α}
    {r : ℚ} (hq : Stepping q) (hr : D r) (hplay : ∀ m, act (F r q) m a t ≠ 0)
    (hcut : ∀ r p, D r → Stepping p → CutFree (F r p)) (ha : isIn a t) (hb : isIn b t) :
    (∀ (pa : Pattern Γ ℚ) (p : Pattern Γ α) (m : Γ), pa.pureValue = none → Values D pa → Stepping p →
        act (s_patternify (strict F) pa p) m a t = act (s_patternify (strict F) pa p) m b t) ↔
      sam a.start = sam b.start := by
  have hjoin : ∀ (pa : Pattern Γ ℚ) (p : Pattern Γ α), pa.pureValue = none →
      s_patternify (strict F) pa p = stepJoin (Pattern.fmap (fun r => F r p) pa) := fun pa p h => by
    rw [s_patternify, h]
    rfl
  constructor
  · intro h
    have hD : ∀ k, Values D (inCycle k r : Pattern Γ ℚ) := by
      intro k a m _ e he
      obtain ⟨_, _, rfl⟩ := List.mem_map.mp (List.mem_filter.mp he).1
      exact hr
    have heq := h (inCycle ⌊a.start⌋ r) q ∅ rfl (hD _) hq
    rw [hjoin _ _ rfl] at heq
    exact sam_eq_of_inCycle (f := fun r => F r q) (r := r) (hplay ∅) heq
  · intro hsam pa p m hpa hD hp
    rw [hjoin pa p hpa]
    exact act_stepJoin_same (values_fmap fun a m ha e he => hcut _ _ (hD a m ha e he) hp) ha hb hsam

end Join

/-! ## Joins of slices -/

theorem stepping_pure (v : α) : Stepping (Pattern.pure v : Pattern Γ α) where
  digital := (regular_pure v).digital
  tactus := ⟨1, rfl, one_pos⟩
  cutFree := (cyclewise_pure v).cutFree

theorem act_pure_ne_zero (v : α) (hat : isIn a t) : act (Pattern.pure v : Pattern Γ α) m a t ≠ 0 := by
  rw [act_pure v hat]
  exact Multiset.singleton_ne_zero _

section Slicing

variable [EmptyCollection Γ] [Inhabited α]

/-- **A stepwise join depends on the slicing** by the cycles in which the queries start, and by nothing
else: two queries agree at a moment that both hold, for all outer patterns, exactly when they start in the
same cycle; and so for the operators that are such joins. For one outer pattern they agree exactly when its cycles
in which they start, laid out, play the same there. -/
theorem stepJoin_slicing (a b : Arc) (t : Time) (ha : isIn a t) (hb : isIn b t) :
    ((∀ (pp : Pattern Γ (Pattern Γ α)) (m : Γ), Values Stepping pp →
        act (stepJoin pp) m a t = act (stepJoin pp) m b t) ↔ sam a.start = sam b.start) ∧
    (∀ f ∈ [s_add, s_sub], (∀ (pa : Pattern Γ ℚ) (p : Pattern Γ α) (m : Γ), pa.pureValue = none →
        Stepping p → act (f pa p) m a t = act (f pa p) m b t) ↔ sam a.start = sam b.start) ∧
    (∀ f ∈ [s_expand, s_contract], (∀ (pa : Pattern Γ ℚ) (p : Pattern Γ α) (m : Γ),
        pa.pureValue = none → Values (fun r => 0 < r) pa → Stepping p →
          act (f pa p) m a t = act (f pa p) m b t) ↔ sam a.start = sam b.start) ∧
    ∀ (pp : Pattern Γ (Pattern Γ α)) (m : Γ), Values Stepping pp →
      (act (stepJoin pp) m a t = act (stepJoin pp) m b t ↔
        behaviour (timeCat (cycleSteps pp m (sam a.start))) m t =
          behaviour (timeCat (cycleSteps pp m (sam b.start))) m t) := by
  have hvalues : ∀ pp : Pattern Γ (Pattern Γ α), Values Stepping pp → Values CutFree pp :=
    fun pp h a m ha e he => (h a m ha e he).cutFree
  set q : Pattern Γ α := Pattern.pure default with hq
  have hplay : ∀ m, act q m a t ≠ 0 := fun m => act_pure_ne_zero default ha
  have hadd : _s_add 1 q = q := by simp [_s_add, hq, Pattern.pure]
  have hsub : _s_sub 0 q = q := by simp [_s_sub, _s_add, hq, Pattern.pure]
  refine ⟨?_, fun f hf => ?_, fun f hf => ?_, fun pp m h => ?_⟩
  · constructor
    · intro h
      refine sam_eq_of_inCycle (f := id) (r := q) (hplay ∅) (h _ ∅ (values_fmap fun a m _ e he => ?_))
      obtain ⟨_, _, rfl⟩ := List.mem_map.mp (List.mem_filter.mp he).1
      exact stepping_pure default
    · intro hsam pp m h
      exact act_stepJoin_same (hvalues pp h) ha hb hsam
  · have htrue : ∀ pa : Pattern Γ ℚ, Values (fun _ => True) pa := fun _ _ _ _ _ _ => trivial
    rcases List.mem_cons.mp hf with rfl | hf
    · have h := s_patternify_slicing_iff (F := _s_add) (D := fun _ => True) (stepping_pure default)
        trivial (fun m => hadd.symm ▸ hplay m) (fun r p _ hp => hp.s_add r) ha hb
      simp only [htrue, true_imp_iff] at h
      exact h
    · obtain rfl := List.mem_singleton.mp hf
      have h := s_patternify_slicing_iff (F := _s_sub) (D := fun _ => True) (stepping_pure default)
        trivial (fun m => hsub.symm ▸ hplay m) (fun r p _ hp => hp.s_sub r) ha hb
      simp only [htrue, true_imp_iff] at h
      exact h
  · rcases List.mem_cons.mp hf with rfl | hf
    · exact s_patternify_slicing_iff (F := _s_expand) (r := 1) (stepping_pure default) one_pos hplay
        (fun r p _ hp => hp.cutFree) ha hb
    · obtain rfl := List.mem_singleton.mp hf
      exact s_patternify_slicing_iff (F := _s_contract) (r := 1) (stepping_pure default) one_pos hplay
        (fun r p _ hp => hp.cutFree) ha hb
  · rw [act_stepJoin_behaviour (hvalues pp h) ha, act_stepJoin_behaviour (hvalues pp h) hb]

end Slicing

/-- One pattern in the even cycles, another in the odd ones. -/
def alternating : Pattern Controls (Pattern Controls ℕ) :=
  fmap (fun b => Pattern.pure (if b then 0 else 1)) (cat [Pattern.pure true, Pattern.pure false])

/-- Over two cycles, the second one plays what the first one does. -/
theorem stepJoin_sliced :
    Values Stepping alternating ∧ isIn ⟨0, 2⟩ 1 ∧ isIn ⟨1, 2⟩ 1 ∧
    act (stepJoin alternating) ∅ ⟨0, 2⟩ 1 = {(some ⟨1, 2⟩, 0)} ∧
    act (stepJoin alternating) ∅ ⟨1, 2⟩ 1 = {(some ⟨1, 2⟩, 1)} :=
  ⟨values_fmap fun _ _ _ _ _ => stepping_pure _, by norm_num [isIn], by norm_num [isIn],
    by with_unfolding_all decide, by with_unfolding_all decide⟩

/-- In the first cycle the queries agree, and in the second they need not. -/
theorem stepJoin_slicing_two :
    act (stepJoin alternating) ∅ ⟨0, 2⟩ (3 / 4) = act (stepJoin alternating) ∅ ⟨1 / 2, 1⟩ (3 / 4) ∧
    ¬ ∀ (pp : Pattern Controls (Pattern Controls ℕ)) (m : Controls), Values Stepping pp →
      act (stepJoin pp) m ⟨0, 2⟩ 1 = act (stepJoin pp) m ⟨1, 2⟩ 1 := by
  constructor
  · exact (stepJoin_slicing ⟨0, 2⟩ ⟨1 / 2, 1⟩ (3 / 4) (by norm_num [isIn]) (by norm_num [isIn])).1.mpr
      (by with_unfolding_all decide) alternating ∅ (values_fmap fun _ _ _ _ _ => stepping_pure _)
  · intro h
    exact absurd ((stepJoin_slicing ⟨0, 2⟩ ⟨1, 2⟩ 1 (by norm_num [isIn]) (by norm_num [isIn])).1.mp h)
      (by decide)

end Tidal
