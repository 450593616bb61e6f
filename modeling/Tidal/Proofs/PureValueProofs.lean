import Tidal.PureValue
import Tidal.Proofs.CompressProofs

/-!
# Proofs: when the cached value is truthful

One lemma per transformer says when it keeps a constant pattern constant, and one when it keeps a local
pattern local; the runs follow by induction. The transformers that drop events, leave gaps or count
cycles do not reset the cache, so each needs its condition.
-/

namespace Tidal

open EventF Pattern

variable {Γ α β : Type} {p : Pattern Γ α} {m : Γ} {a b : Arc} {t : Time} {v : α}

/-! ## Values -/

theorem map_snd_onWhole (F : Arc → Arc) (s : Multiset (Option Arc × α)) :
    (s.map (onWhole F)).map Prod.snd = s.map Prod.snd := by
  rw [Multiset.map_map]
  rfl

theorem playing_fmap (f : α → β) (p : Pattern Γ α) :
    playing (fmap f p) m a t = (playing p m a t).map f := by
  rw [playing, playing, act_fmap, Multiset.map_map, Multiset.map_map]
  rfl

theorem playing_rotL (s : Time) (p : Pattern Γ α) :
    playing (rotL s p) m a t = playing p m (a.map (· + s)) (t + s) := by
  rw [playing, playing, act_rotL, map_snd_onWhole]

/-- Filtering out nothing that is active. -/
theorem activeIn_filter_of_forall {q : Event α → Bool} {es : List (Event α)}
    (h : ∀ e ∈ es, isIn e.part t → q e) : activeIn (es.filter q) t = activeIn es t := by
  rw [activeIn_filter q (fun _ => true) h]
  exact Multiset.filter_eq_self.mpr fun _ _ => rfl

/-! ## Constant patterns -/

theorem constant_pure (v : α) : Constant v (Pattern.pure v : Pattern Γ α) := by
  intro m a t hat
  rw [playing, act_pure v hat, Multiset.map_singleton]

theorem Constant.fmap (f : α → β) (h : Constant v p) : Constant (f v) (fmap f p) := by
  intro m a t hat
  rw [playing_fmap, h m a t hat, Multiset.map_singleton]

theorem Constant.rotL (s : Time) (h : Constant v p) : Constant v (rotL s p) := by
  intro m a t hat
  rw [playing_rotL]
  exact h m _ _ (isIn_map_add hat)

theorem Constant.fastForward {r : Time} (hr : 0 < r) (h : Constant v p) :
    Constant v (_fastForward r p) := by
  intro m a t hat
  rw [playing, act_fastForward hr, map_snd_onWhole]
  exact h m _ _ (isIn_map_mul hr hat)

theorem Constant.splitQueries (hl : Local p) (h : Constant v p) : Constant v (splitQueries p) := by
  intro m a t hat
  rw [playing, act_splitQueries hl hat]
  exact h m _ _ (isIn_piece hat)

/-- Mirrored, what is active is what was active just before some moment. -/
theorem Constant.rev (hl : Local p) (h : Constant v p) : Constant v (rev p) := by
  intro m a t hat
  obtain ⟨h1, h2⟩ := isIn_mirrorArc_piece hat (sam t + 1 / 2)
  obtain ⟨u, hu1, hu2, heq⟩ := exists_actLeft_eq p m
    (mirrorArc (sam t + 1 / 2) (sect a (timeToCycleArc t))) h1
  rw [playing, act_rev hl hat, map_snd_onWhole, heq]
  exact h m _ u ⟨hu1.le, hu2.trans_le h2⟩

/-- A rate of one or less leaves no gap. -/
theorem fastGap_query_le {r : Time} (hr0 : r ≠ 0) (hr : r ≤ 1) (p : Pattern Γ α) :
    (_fastGap r p).query = (splitQueries p).query := by
  have hmunge : ∀ x : Time, mungeQuery 1 x = x := by
    intro x
    rw [mungeQuery, one_mul, min_eq_right (cyclePos_lt_one x).le, cyclePos]
    ring
  have harc : (fun b : Arc => (⟨sam b.start + (b.start - sam b.start) / 1,
      sam b.start + (b.stop - sam b.start) / 1⟩ : Arc)) = id := by
    funext b
    cases b
    simp
  have hid : (mapArc id : Event α → Event α) = id := by
    funext e
    cases e with
    | mk c w q x => cases w <;> rfl
  funext st
  rw [_fastGap, if_neg hr0, max_eq_right hr]
  simp only [splitQueries, withResultArc, hmunge, harc, hid, List.map_id]
  refine List.flatMap_congr fun b _ => ?_
  rw [if_neg (lt_nextSam b.start).ne]

theorem Constant.fastGap {r : Time} (hr0 : r ≠ 0) (hr : r ≤ 1) (hl : Local p) (h : Constant v p) :
    Constant v (_fastGap r p) := by
  intro m a t hat
  rw [playing, act, fastGap_query_le hr0 hr]
  exact h.splitQueries hl m a t hat

theorem Constant.filterValues {f : α → Bool} (hf : f v) (h : Constant v p) :
    Constant v (filterValues f p) := by
  intro m a t hat
  have hmem : ∀ x ∈ act p m a t, f x.2 = true := by
    intro x hx
    have : x.2 ∈ playing p m a t := Multiset.mem_map_of_mem _ hx
    rw [h m a t hat, Multiset.mem_singleton] at this
    rw [this]; exact hf
  rw [playing, act_filterValues, Multiset.filter_eq_self.mpr hmem]
  exact h m a t hat

theorem playing_filterJust (p : Pattern Γ (Option α)) :
    playing (filterJust p) m a t = (playing p m a t).filterMap id := by
  have h : act (filterJust p) m a t =
      (act p m a t).filterMap fun x => x.2.map fun v => (x.1, v) := by
    have hq : (filterJust p).query ⟨a, m⟩ = (p.query ⟨a, m⟩).filterMap fun e =>
        e.value.map fun v => (⟨e.context, e.whole, e.part, v⟩ : Event α) := by
      simp only [filterJust, Pattern.filterValues, List.filterMap_filter]
      refine List.filterMap_congr fun e _ => ?_
      cases e.value <;> rfl
    rw [act, hq]
    refine activeIn_filterMap (fun e _ hnone _ => ?_) fun e _ e' he' => ?_
    · simpa using hnone
    · obtain ⟨v, hv, rfl⟩ := Option.map_eq_some_iff.mp he'
      exact ⟨Iff.rfl, fun _ => by simp [hv]⟩
  rw [playing, h, playing, Multiset.map_filterMap, Multiset.filterMap_map]
  refine congrArg (Multiset.filterMap · _) (funext fun x => ?_)
  obtain ⟨w, _ | v⟩ := x <;> rfl

theorem Constant.filterJust {p : Pattern Γ (Option α)} (h : Constant (some v) p) :
    Constant v (filterJust p) := by
  intro m a t hat
  rw [playing_filterJust, h m a t hat]
  rfl

theorem Constant.filterWhen {test : Time → Bool} (ht : AllActive (fun e => test e.wholeStart) p)
    (h : Constant v p) : Constant v (filterWhen test p) := by
  intro m a t hat
  rw [playing, act, Pattern.filterWhen, activeIn_filter_of_forall fun e he hin => ht a m t hat e he hin]
  exact h m a t hat

theorem Constant.filterOnsets
    (ht : AllActive (fun e => e.isDigital ∧ e.eventPartStart = e.wholeStart) p) (h : Constant v p) :
    Constant v (filterOnsets p) := by
  intro m a t hat
  simp only [playing, act, Pattern.filterOnsets, filterDigital, filterEvents]
  rw [activeIn_filter_of_forall fun e he hin => ?_,
    activeIn_filter_of_forall fun e he hin => (ht a m t hat e he hin).1]
  · exact h m a t hat
  · simpa using (ht a m t hat e (List.mem_filter.mp he).1 hin).2

theorem Constant.when {test : ℤ → Bool} {f : Pattern Γ α → Pattern Γ α} (hl : Local p)
    (hf : ∀ b m t, b.start < b.stop → b.stop ≤ nextSam b.start → test ⌊b.start⌋ →
      playing (f p) m b t = if isIn b t then {v} else 0) (h : Constant v p) :
    Constant v (when test f p) := by
  intro m a t hat
  have hpiece := isIn_piece hat
  have hn := piece_stop_le hat
  have hact : act (Pattern.when test f p) m a t =
      activeIn (whenCycle test f p ⟨sect a (timeToCycleArc t), m⟩) t :=
    act_cycles (g := whenCycle test f p) hat fun b hb hn hbt => by
      unfold whenCycle
      split_ifs with htest
      · refine Multiset.map_eq_zero.mp (?_ : playing (f p) m b t = 0)
        rw [hf b m t hb hn htest, if_neg hbt]
      · exact hl b m t hb hbt
  rw [playing, hact, whenCycle]
  split_ifs with htest
  · refine (hf _ m t (isIn_pos hpiece) hn htest).trans (if_pos hpiece)
  · exact h m _ t hpiece

theorem Constant.fit {p : Pattern Γ ℤ} {k n : ℤ} {xs : Choices α}
    (hx : AllActive (fun e => xs.at (fitAt n k ⌊e.part.start⌋) = xs.at k) p) (h : Constant k p) :
    Constant (xs.at k) (_fit n xs p) := by
  intro m a t hat
  have hval : ∀ e ∈ p.query ⟨a, m⟩, isIn e.part t → e.value = k := by
    intro e he hin
    have hmem : e.value ∈ playing p m a t :=
      Multiset.mem_map_of_mem Prod.snd (mem_activeIn.mpr ⟨e, he, hin, rfl⟩)
    rwa [h m a t hat, Multiset.mem_singleton] at hmem
  have hact : act (_fit n xs p) m a t = (act p m a t).map fun x => (x.1, xs.at k) := by
    simp only [act, _fit, Pattern.fmap, List.map_map]
    refine HalfOpen.pick_map (fun _ _ => Iff.rfl) fun e he hin => ?_
    simp only [Function.comp, fitEvent, EventF.map, hval e he hin]
    rw [hx a m t hat e he hin]
  have hone : (playing p m a t).map (fun _ => xs.at k) = {xs.at k} := by
    rw [h m a t hat, Multiset.map_singleton]
  rw [playing, hact, Multiset.map_map, ← hone, playing, Multiset.map_map]
  rfl

/-! ## Local patterns -/

theorem local_pure (v : α) : Local (Pattern.pure v : Pattern Γ α) :=
  (wellFormed_pure v : WellFormed False _).isLocal

theorem Local.fmap (f : α → β) (h : Local p) : Local (fmap f p) := by
  intro a m t ha hat
  rw [act_fmap, h a m t ha hat, Multiset.map_zero]

theorem Local.rotL (s : Time) (h : Local p) : Local (rotL s p) := by
  intro a m t ha hat
  have hshift : ¬ isIn (a.map (· + s)) (t + s) := fun hin =>
    hat ⟨le_of_add_le_add_right hin.1, lt_of_add_lt_add_right hin.2⟩
  rw [act_rotL, h _ m _ (add_lt_add_left ha s) hshift, Multiset.map_zero]

theorem Local.fastForward {r : Time} (hr : 0 < r) (h : Local p) : Local (_fastForward r p) := by
  intro a m t ha hat
  have hscale : ¬ isIn (a.map (· * r)) (t * r) := fun hin =>
    hat ⟨le_of_mul_le_mul_right hin.1 hr, lt_of_mul_lt_mul_right hin.2 hr.le⟩
  rw [act_fastForward hr, h _ m _ (mul_lt_mul_of_pos_right ha hr) hscale, Multiset.map_zero]

/-- Answers that are local piece by piece are local. -/
theorem activeIn_cycles_eq_zero {g : Arc → List (Event α)} (ha : a.start < a.stop) (hat : ¬ isIn a t)
    (hg : ∀ b, b.start < b.stop → b.stop ≤ nextSam b.start → ¬ isIn b t → activeIn (g b) t = 0) :
    activeIn ((arcCyclesZW a).flatMap g) t = 0 := by
  refine activeIn_eq_zero fun e he hin => ?_
  obtain ⟨b, hb, he⟩ := List.mem_flatMap.mp he
  have hab := piece_of_mem hb
  have hbt : ¬ isIn b t := fun h => hat ⟨hab.start_le.trans h.1, h.2.trans_le hab.stop_le⟩
  have hmem : (e.whole, e.value) ∈ activeIn (g b) t := mem_activeIn.mpr ⟨e, he, hin, rfl⟩
  rw [hg b (hab.pos ha) hab.stop_le_nextSam hbt] at hmem
  simp at hmem

theorem Local.splitQueries (h : Local p) : Local (splitQueries p) := fun _ m t ha hat =>
  activeIn_cycles_eq_zero (g := fun b => p.query ⟨b, m⟩) ha hat fun b hb _ hbt => h b m t hb hbt

theorem Local.rev (h : Local p) : Local (rev p) := fun _ m _ ha hat =>
  activeIn_cycles_eq_zero (g := fun b => revCycle p ⟨b, m⟩) ha hat fun _ hb _ hbt =>
    activeIn_revCycle_eq_zero h hb hbt

theorem Local.fast (r : Time) (h : Local p) : Local (_fast r p) := by
  unfold _fast
  split_ifs with h0 hneg
  · exact fun _ _ _ _ _ => rfl
  · exact (h.fastForward (by linarith)).rev
  · exact h.fastForward (lt_of_le_of_ne (not_lt.mp hneg) (Ne.symm h0))

theorem Local.fastGap (r : Time) (h : Local p) : Local (_fastGap r p) := by
  by_cases hr0 : r = 0
  · rw [_fastGap, if_pos hr0]
    exact fun _ _ _ _ _ => rfl
  rcases le_or_gt r 1 with hr | hr
  · intro a m t ha hat
    rw [act, fastGap_query_le hr0 hr]
    exact h.splitQueries a m t ha hat
  · intro a m t ha hat
    rw [act, fastGap_query hr.le]
    refine activeIn_cycles_eq_zero ha hat fun b hb hn hbt => ?_
    rw [activeIn_gapPiece h hr.le hb hn, if_neg fun hin => hbt hin.1]

theorem Local.compressArc (c : Arc) (h : Local p) : Local (compressArc c p) := by
  unfold Pattern.compressArc
  split_ifs
  · exact fun _ _ _ _ _ => rfl
  · exact fun _ _ _ _ _ => rfl
  · exact fun _ _ _ _ _ => rfl
  · exact (h.fastGap _).rotL _

/-- Dropping events keeps a pattern local. -/
theorem Local.filter {q : Pattern Γ α} (h : Local p)
    (hq : ∀ a m, ∀ e ∈ q.query ⟨a, m⟩, e ∈ p.query ⟨a, m⟩) : Local q := by
  intro a m t ha hat
  refine activeIn_eq_zero fun e he hin => ?_
  have hmem : (e.whole, e.value) ∈ act p m a t := mem_activeIn.mpr ⟨e, hq a m e he, hin, rfl⟩
  rw [h a m t ha hat] at hmem
  simp at hmem

theorem Local.filterJust {p : Pattern Γ (Option α)} (h : Local p) : Local (filterJust p) := by
  intro a m t ha hat
  refine activeIn_eq_zero fun e he hin => ?_
  obtain ⟨e', he', hval⟩ := List.mem_filterMap.mp he
  obtain ⟨v, _, rfl⟩ := Option.map_eq_some_iff.mp hval
  have hmem : (e'.whole, e'.value) ∈ act p m a t :=
    mem_activeIn.mpr ⟨e', (List.mem_filter.mp he').1, hin, rfl⟩
  rw [h a m t ha hat] at hmem
  simp at hmem

theorem Local.when (test : ℤ → Bool) {f : Pattern Γ α → Pattern Γ α} (hf : Local (f p)) (h : Local p) :
    Local (when test f p) := fun _ m t ha hat =>
  activeIn_cycles_eq_zero (g := fun b => whenCycle test f p ⟨b, m⟩) ha hat fun b hb _ hbt => by
    unfold whenCycle
    split_ifs
    · exact hf b m t hb hbt
    · exact h b m t hb hbt

theorem Local.fit {p : Pattern Γ ℤ} (n : ℤ) (xs : Choices α) (h : Local p) : Local (_fit n xs p) := by
  refine Local.fmap xs.at (fun a m t ha hat => ?_)
  refine activeIn_eq_zero fun e he hin => ?_
  obtain ⟨e', he', rfl⟩ := List.mem_map.mp he
  have hmem : (e'.whole, e'.value) ∈ act p m a t := mem_activeIn.mpr ⟨e', he', hin, rfl⟩
  rw [h a m t ha hat] at hmem
  simp at hmem

/-! ## Truthful caches -/

/-- A transformer that carries the cache over as it is. -/
theorem Truthful.carry {q : Pattern Γ α} (h : Truthful p) (hpv : q.pureValue = p.pureValue)
    (hq : ∀ v, p.pureValue = some (some v) → Constant v p → Constant v q) : Truthful q := by
  intro c hc
  rw [hpv] at hc
  obtain ⟨v, rfl, hv⟩ := h c hc
  exact ⟨v, rfl, hq v hc hv⟩

theorem truthful_of_none {q : Pattern Γ α} (h : q.pureValue = none) : Truthful q := by
  intro c hc
  rw [h] at hc
  cases hc

theorem Truthful.fast {r : Time} (h : Truthful p)
    (hk : ∀ v, p.pureValue = some (some v) → r < 0 → Local p) : Truthful (_fast r p) := by
  rcases lt_trichotomy r 0 with hr | hr | hr
  · have hr' : 0 < -r := by linarith
    rw [_fast, if_neg hr.ne, if_pos hr]
    exact h.carry rfl fun v hpv hv => (hv.fastForward hr').rev ((hk v hpv hr).fastForward hr')
  · rw [_fast, if_pos hr]
    exact truthful_of_none rfl
  · rw [fast_of_pos hr]
    exact h.carry rfl fun v _ hv => hv.fastForward hr

theorem Truthful.fastGap {r : Time} (h : Truthful p)
    (hk : ∀ v, p.pureValue = some (some v) → r ≠ 0 → r ≤ 1 ∧ Local p) : Truthful (_fastGap r p) := by
  by_cases hr0 : r = 0
  · rw [_fastGap, if_pos hr0]
    exact truthful_of_none rfl
  · have hpv : (_fastGap r p).pureValue = p.pureValue := by rw [_fastGap, if_neg hr0]; rfl
    refine h.carry hpv fun v hc hv => ?_
    obtain ⟨hr, hl⟩ := hk v hc hr0
    exact hv.fastGap hr0 hr hl

theorem Truthful.compressArc {c : Arc} (h : Truthful p)
    (hk : ∀ v, p.pureValue = some (some v) → 0 ≤ c.start ∧ c.start < c.stop ∧ c.stop ≤ 1 →
      c.start = 0 ∧ c.stop = 1 ∧ Local p) : Truthful (compressArc c p) := by
  unfold Pattern.compressArc
  split_ifs with h1 h2 h3
  · exact truthful_of_none rfl
  · exact truthful_of_none rfl
  · exact truthful_of_none rfl
  · simp only [gt_iff_lt, not_or, not_lt] at h1 h2 h3
    have hgap : Truthful (_fastGap (1 / (c.stop - c.start)) p) := by
      refine h.fastGap fun v hpv hr0 => ?_
      -- a rate that is not zero comes from an arc of positive width, so the arc is the whole cycle
      have hne : c.stop - c.start ≠ 0 := fun hz => hr0 (by rw [hz, div_zero])
      have hlt : c.start < c.stop := lt_of_le_of_ne h1 fun he => hne (by linarith)
      obtain ⟨hs, he, hl⟩ := hk v hpv ⟨h3.1, hlt, h2.2⟩
      refine ⟨?_, hl⟩
      rw [hs, he, sub_zero, div_one]
    exact hgap.carry rfl fun v _ hv => hv.rotL _

/-! ## The short cut -/

/-- The short cut of `patternify` takes a truthful cache at its word. -/
theorem Truthful.shortCutAgrees (h : Truthful p) : ShortCutAgrees p := by
  intro β τ f x hpv hsharp m a t hat
  obtain ⟨c, hc⟩ := Option.isSome_iff_exists.mp hpv
  obtain ⟨v, rfl, hv⟩ := h c hc
  have hcut : patternify f p x = f (some v) x := by rw [patternify, hc]
  have hjoin : act (innerJoin (Pattern.fmap (fun v => f (some v) x) p)) m a t =
      TaggedBag.bind (fun _ w => w) (act (Pattern.fmap (fun v => f (some v) x) p) m a t)
        fun q => behaviour q m t := by
    refine act_innerJoin_of hat fun e he => ?_
    obtain ⟨e', _, rfl⟩ := List.mem_map.mp he
    have hs := hsharp e'.value
    split_ifs with hin
    · exact hs.1.act_eq m hin
    · exact hs.2 _ m t hin
  have hone : (act (Pattern.fmap (fun v => f (some v) x) p) m a t).map Prod.snd = {f (some v) x} :=
    hv.fmap (fun v => f (some v) x) m a t hat
  rw [hcut, playing, playing, hjoin, TaggedBag.map_snd_bind, hone, Multiset.singleton_bind,
    (hsharp v).1.act_eq m hat]

/-! ## `substruct` -/

/-- A timespan of no width plays nothing. -/
theorem compressArcTo_query_eq_nil {w : Arc} (h : w.stop ≤ w.start) (st : State Γ) :
    (compressArcTo w p).query st = [] := by
  rw [compressArcTo]
  rcases lt_or_eq_of_le h with hgt | heq
  · rw [Pattern.compressArc, if_pos (by simp only [cyclePos]; linarith)]
    rfl
  · have hzero : w.stop - sam w.start - cyclePos w.start = 0 := by rw [cyclePos]; linarith
    unfold Pattern.compressArc
    split_ifs
    · rfl
    · rfl
    · rfl
    · simp [hzero, _fastGap, rotR, Pattern.rotL, withResultTime, withResultArc, withQueryTime,
        withQueryArc, Pattern.empty]

/-- A timespan that goes on into the next cycle is refused. -/
theorem compressArcTo_eq_empty {w : Arc} (hw : w.start < w.stop) (h : nextSam w.start < w.stop) :
    compressArcTo w p = Pattern.empty := by
  unfold nextSam at h
  have hlt : ¬ cyclePos w.start > w.stop - sam w.start := by rw [cyclePos]; linarith
  have hone : w.stop - sam w.start > 1 := by linarith
  rw [compressArcTo, Pattern.compressArc, if_neg hlt, if_pos (Or.inr hone)]

/-- Within one cycle, a pattern compressed to a timespan plays there what it plays in the cycle. -/
theorem act_compressArcTo (hl : Local p) {w : Arc} (hin : isIn w t) (hstop : w.stop ≤ nextSam w.start)
    (hat : isIn a t) :
    ∃ q, isIn q (fromSpan w t) ∧ act (compressArcTo w p) m a t = (act p m q (fromSpan w t)).map
      (onWhole fun z => (gapArc (1 / (w.stop - w.start)) z).map (· + cyclePos w.start)) := by
  have hsam : sam t = sam w.start :=
    sam_eq (c := ⌊w.start⌋) ((sam_le w.start).trans hin.1) ((hin.2.trans_le hstop).trans_eq (add_comm _ _))
  have hwidth : w.stop - sam w.start - cyclePos w.start = w.stop - w.start := by rw [cyclePos]; ring
  have hpos : cyclePos w.start < w.stop - sam w.start := by
    rw [← sub_pos, hwidth, sub_pos]
    exact isIn_pos hin
  have hend : w.stop - sam w.start ≤ 1 := by unfold nextSam at hstop; linarith
  have hxt : cyclePos w.start ≤ cyclePos t ∧ cyclePos t < w.stop - sam w.start := by
    rw [cyclePos, cyclePos, hsam]
    exact ⟨sub_le_sub_right hin.1 _, sub_lt_sub_right hin.2 _⟩
  have ht : ((⌊t⌋ : ℤ) : Time) + cyclePos t = t := sam_add_cyclePos t
  have htime : ((⌊t⌋ : ℤ) : Time) + (cyclePos t - cyclePos w.start) / (w.stop - w.start) = fromSpan w t := by
    have hdiff : cyclePos t - cyclePos w.start = t - w.start := by rw [cyclePos, cyclePos, hsam]; ring
    rw [fromSpan, ← hsam, hdiff]
    rfl
  obtain ⟨q, hq, hact⟩ := act_compressArc (m := m) (a := a) hl (cyclePos_nonneg w.start) hpos hend (c := ⌊t⌋)
    (cyclePos_nonneg t) (cyclePos_lt_one t) (by rwa [ht])
  rw [ht, if_pos hxt, hwidth, htime] at hact
  rw [hwidth, htime] at hq
  exact ⟨q, hq hxt, hact⟩

/-- Within one cycle, a constant pattern compressed to a timespan fills it. -/
theorem playing_compressArcTo_of_isIn (hl : Local p) (h : Constant v p) {w : Arc} (m : Γ)
    (hin : isIn w t) (hstop : w.stop ≤ nextSam w.start) : playing (compressArcTo w p) m w t = {v} := by
  obtain ⟨q, hq, hact⟩ := act_compressArcTo (m := m) hl hin hstop hin
  rw [playing, hact, map_snd_onWhole]
  exact h m q _ hq

/-- A constant pattern compressed to a timespan fills it, if it lies in one cycle. -/
theorem playing_compressArcTo (hl : Local p) (h : Constant v p) (w : Arc) (m : Γ) :
    playing (compressArcTo w p) m w t = if isIn w t ∧ w.stop ≤ nextSam w.start then {v} else 0 := by
  by_cases hin : isIn w t
  · by_cases hstop : w.stop ≤ nextSam w.start
    · rw [if_pos ⟨hin, hstop⟩, playing_compressArcTo_of_isIn hl h m hin hstop]
    · rw [if_neg fun hc => hstop hc.2, compressArcTo_eq_empty (isIn_pos hin) (not_le.mp hstop)]
      rfl
  · rw [if_neg fun hc => hin hc.1, playing]
    rcases lt_or_ge w.start w.stop with hlt | hge
    · rw [compressArcTo, hl.compressArc _ w m t hlt hin]
      rfl
    · rw [act, compressArcTo_query_eq_nil hge]
      rfl

variable [EmptyCollection Γ]

theorem playing_substruct (s : Pattern Γ Bool) (hl : Local p) (h : Constant v p) :
    playing (substruct s p) m a t = Multiset.replicate ((s.query ⟨a, m⟩).countP (covers t)) v := by
  have hlist : ∀ es : List (Event Bool), (activeIn ((es.filter fun e => e.value).flatMap fun e =>
      queryArc (compressArcTo e.wholeOrPart p) e.wholeOrPart) t).map Prod.snd =
        Multiset.replicate (es.countP (covers t)) v := by
    intro es
    induction es with
    | nil => rfl
    | cons e es ih =>
      rw [List.countP_cons, add_comm, Multiset.replicate_add]
      cases hval : e.value with
      | false =>
        rw [List.filter_cons_of_neg (by simp [hval]), ih, if_neg (by simp [covers, hval])]
        simp
      | true =>
        have hone : (activeIn (queryArc (compressArcTo e.wholeOrPart p) e.wholeOrPart) t).map Prod.snd =
            if isIn e.wholeOrPart t ∧ e.wholeOrPart.stop ≤ nextSam e.wholeOrPart.start then {v} else 0 :=
          playing_compressArcTo hl h e.wholeOrPart ∅
        rw [List.filter_cons_of_pos (by simp [hval]), List.flatMap_cons, activeIn_append,
          Multiset.map_add, ih, hone]
        congr 1
        by_cases hc : isIn e.wholeOrPart t ∧ e.wholeOrPart.stop ≤ nextSam e.wholeOrPart.start
        · rw [if_pos hc, if_pos (by simpa [covers, hval] using hc)]
          rfl
        · rw [if_neg hc, if_neg (by simpa [covers, hval] using hc)]
          rfl
  exact hlist _

theorem Constant.substruct {s : Pattern Γ Bool} (hl : Local p)
    (hs : ∀ a m t, isIn a t → (s.query ⟨a, m⟩).countP (covers t) = 1) (h : Constant v p) :
    Constant v (substruct s p) := by
  intro m a t hat
  rw [playing_substruct s hl h, hs a m t hat]
  rfl

/-! ## Steps and runs -/

/-- One step: a transformer that keeps the cached value keeps the cache truthful. -/
theorem Truthful.apply {T : Transformer Γ α β} (h : Truthful p) (hk : Kept T p) :
    Truthful (T.apply p) := by
  cases T with
  | fmap f =>
    intro c hc
    obtain ⟨c', hc', rfl⟩ := Option.map_eq_some_iff.mp hc
    obtain ⟨v, rfl, hv⟩ := h c' hc'
    exact ⟨f v, rfl, hv.fmap f⟩
  | rotL s => exact h.carry rfl fun v _ hv => hv.rotL s
  | fast r => exact h.fast hk
  | splitQueries => exact h.carry rfl fun v hpv hv => hv.splitQueries (hk v hpv)
  | fastGap r => exact h.fastGap hk
  | compressArc a => exact h.compressArc hk
  | filterValues f => exact h.carry rfl fun v hpv hv => hv.filterValues (hk v hpv)
  | filterJust =>
    intro c hc
    obtain ⟨c', hc', rfl⟩ := Option.map_eq_some_iff.mp hc
    obtain ⟨v, rfl, hv⟩ := h c' hc'
    obtain ⟨x, rfl⟩ := Option.isSome_iff_exists.mp (hk v hc')
    exact ⟨x, rfl, hv.filterJust⟩
  | filterWhen test => exact h.carry rfl fun v hpv hv => hv.filterWhen (hk v hpv)
  | filterOnsets => exact h.carry rfl fun v hpv hv => hv.filterOnsets (hk v hpv)
  | «when» test f => exact h.carry rfl fun v hpv hv => hv.when (hk v hpv).1 (hk v hpv).2
  | fit n xs =>
    intro c hc
    obtain ⟨c', hc', rfl⟩ := Option.map_eq_some_iff.mp hc
    obtain ⟨v, rfl, hv⟩ := h c' hc'
    exact ⟨xs.at v, rfl, hv.fit (hk v hc')⟩
  | substruct s => exact h.carry rfl fun v hpv hv => hv.substruct (hk v hpv).1 (hk v hpv).2

theorem Local.apply {T : Transformer Γ α β} (h : Local p) (hk : T.KeepsLocal p) : Local (T.apply p) := by
  cases T with
  | fmap f => exact h.fmap f
  | rotL s => exact h.rotL s
  | fast r => exact h.fast r
  | splitQueries => exact h.splitQueries
  | fastGap r => exact h.fastGap r
  | compressArc a => exact h.compressArc a
  | filterValues f => exact h.filter fun a m e he => (List.mem_filter.mp he).1
  | filterJust => exact h.filterJust
  | filterWhen test => exact h.filter fun a m e he => (List.mem_filter.mp he).1
  | filterOnsets =>
    exact h.filter fun a m e he => (List.mem_filter.mp (List.mem_filter.mp he).1).1
  | «when» test f => exact Local.when test hk h
  | fit n xs => exact h.fit n xs
  | substruct s => exact hk.elim

theorem Obtained.truthful (h : Obtained (fun T p => Kept T p) p) : Truthful p := by
  induction h with
  | pure v =>
    intro c hc
    obtain rfl := Option.some.inj hc
    exact ⟨v, rfl, constant_pure v⟩
  | step T _ hk ih => exact ih.apply hk

theorem Obtained.isLocal (h : Obtained (fun T p => T.KeepsLocal p) p) : Local p := by
  induction h with
  | pure v => exact local_pure v
  | step T _ hk ih => exact ih.apply hk

/-- **When the cached value does not lie.** In every run whose steps keep the cached value, the cache of
every pattern obtained is truthful and the short cut of `patternify` is heard as the general path is. The
locality that splitting the query needs holds in every run without `substruct`. -/
theorem pureValue_truthful :
    (∀ {α : Type} (p : Pattern Γ α), Obtained (fun T p => Kept T p) p → Truthful p ∧ ShortCutAgrees p) ∧
    (∀ {α : Type} (p : Pattern Γ α), Obtained (fun T p => T.KeepsLocal p) p → Local p) :=
  ⟨fun _ h => ⟨h.truthful, h.truthful.shortCutAgrees⟩, fun _ h => h.isLocal⟩

/-- A constant that is changed and sped up. -/
def fastConstant : Pattern (List ℕ) ℕ :=
  (Transformer.fast 2).apply ((Transformer.fmap (· + 1)).apply (Pattern.pure 3))

theorem pureValue_fastConstant : fastConstant.pureValue = some (some 4) := by
  show (_fast 2 ((Transformer.fmap (· + 1)).apply (Pattern.pure 3)) : Pattern (List ℕ) ℕ).pureValue = _
  rw [fast_of_pos two_pos]
  rfl

/-- It is filtered with a test that it passes. -/
theorem pureValue_truthful_filtered :
    Truthful ((Transformer.filterValues fun x => decide (x < 9)).apply fastConstant) ∧
      ShortCutAgrees ((Transformer.filterValues fun x => decide (x < 9)).apply fastConstant) ∧
      Local ((Transformer.filterValues fun x => decide (x < 9)).apply fastConstant) := by
  have hkept : Obtained (fun T p => Kept T p) fastConstant :=
    .step (.fast 2) (.step (.fmap (· + 1)) (.pure 3) fun _ _ => trivial) fun _ _ h => absurd h (by norm_num)
  have hlocal : Obtained (fun T p => T.KeepsLocal p) fastConstant :=
    .step (.fast 2) (.step (.fmap (· + 1)) (.pure 3) trivial) trivial
  obtain ⟨htruthful, hagrees⟩ := pureValue_truthful.1 _ (.step (.filterValues fun x => decide (x < 9)) hkept
    fun v hv => by
      obtain rfl := Option.some.inj (Option.some.inj (pureValue_fastConstant.symm.trans hv))
      rfl)
  exact ⟨htruthful, hagrees, pureValue_truthful.2 _ (.step (.filterValues fun x => decide (x < 9)) hlocal trivial)⟩

/-- A constant whose events are all filtered out; its cache is still there. -/
def filteredOut : Pattern (List ℕ) Unit := filterValues (fun _ => false) (Pattern.pure ())

theorem filteredOut_lies :
    Obtained (fun _ _ => True) filteredOut ∧ filteredOut.pureValue = some (some ()) ∧
    playing filteredOut [] ⟨0, 1⟩ 0 = 0 ∧
    playing (patternify (fun _ _ => (Pattern.pure 1 : Pattern (List ℕ) ℕ)) filteredOut ()) [] ⟨0, 1⟩ 0 =
      {1} ∧
    playing (innerJoin (fmap (fun _ => (Pattern.pure 1 : Pattern (List ℕ) ℕ)) filteredOut)) [] ⟨0, 1⟩ 0 =
      0 :=
  ⟨.step (.filterValues fun _ => false) (.pure ()) trivial, rfl, by decide, by with_unfolding_all decide,
    by decide⟩

end Tidal
