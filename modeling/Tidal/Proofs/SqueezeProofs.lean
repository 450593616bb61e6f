import Tidal.Warp
import Tidal.Regular
import Tidal.Proofs.SteadyProofs

/-!
# Proofs: which inner cycle `squeezeJoin` plays

`focusArc` plays the intended time of the inner pattern plus the drift. The drift is zero in cycle 0 and
for events that last one cycle; elsewhere the inner pattern has to repeat itself for the two to agree.
-/

namespace Tidal

open EventF Pattern

variable {Γ α : Type} {m : Γ} {a : Arc} {t : Time}

/-! ## Moved and clipped pairs -/

theorem sect_map {f : Time → Time} (hf : StrictMono f) (a b : Arc) :
    sect (a.map f) (b.map f) = (sect a b).map f := by
  simp only [sect, ArcF.map, hf.monotone.map_max, hf.monotone.map_min]

theorem subArc_map {f : Time → Time} (hf : StrictMono f) (a b : Arc) :
    subArc (a.map f) (b.map f) = (subArc a b).map (ArcF.map f) := by
  simp only [subArc, sect_map hf]
  simp only [ArcF.map, hf.injective.eq_iff, hf.lt_iff_lt, hf.le_iff_le]
  split_ifs <;> rfl

/-- Clipping commutes with moving both arcs. -/
theorem clip_map {f : Time → Time} (hf : StrictMono f) (c : Arc) (x : Option Arc × α) :
    clip (c.map f) (onWhole (ArcF.map f) x) = (clip c x).map (onWhole (ArcF.map f)) := by
  obtain ⟨_ | w, v⟩ := x
  · rfl
  · simp only [clip, onWhole, subMaybeArc, Option.map_some, subArc_map hf]
    cases subArc c w <;> rfl

theorem filterMap_clip_map {f : Time → Time} (hf : StrictMono f) (c : Arc)
    (s : Multiset (Option Arc × α)) :
    (s.map (onWhole (ArcF.map f))).filterMap (clip (c.map f)) =
      (s.filterMap (clip c)).map (onWhole (ArcF.map f)) := by
  rw [Multiset.filterMap_map, Multiset.map_filterMap]
  exact congrArg (Multiset.filterMap · s) (funext fun x => clip_map hf c x)

theorem arcMap_injective {f : Time → Time} (hf : StrictMono f) : Function.Injective (ArcF.map f) := by
  intro a b h
  cases a; cases b
  simp only [ArcF.map, ArcF.mk.injEq] at h
  exact ArcF.mk.injEq .. ▸ ⟨hf.injective h.1, hf.injective h.2⟩

theorem onWhole_injective {f : Time → Time} (hf : StrictMono f) :
    Function.Injective (onWhole (α := α) (ArcF.map f)) := by
  rintro ⟨w, v⟩ ⟨w', v'⟩ h
  obtain ⟨hw, hv⟩ := Prod.mk.inj h
  exact Prod.ext (Option.map_injective (arcMap_injective hf) hw) hv

/-! ## The span of an outer event -/

variable {w : Arc}

theorem intoSpan_strictMono (hw : w.start < w.stop) : StrictMono (intoSpan w) := by
  intro x y hxy
  have := mul_lt_mul_of_pos_right (sub_lt_sub_right hxy (sam w.start)) (sub_pos.mpr hw)
  simp only [intoSpan]; linarith

/-- The whole is the cycle it starts in, moved into the whole. -/
theorem intoSpan_cycle (w : Arc) : (timeToCycleArc w.start).map (intoSpan w) = w := by
  cases w
  simp [ArcF.map, timeToCycleArc, intoSpan]

theorem oneCycle_eq (hw : w.start < w.stop) (s : Multiset (Option Arc × α)) :
    oneCycle w s = (s.filterMap (clip (timeToCycleArc w.start))).map
      (onWhole (ArcF.map (intoSpan w))) := by
  have h := filterMap_clip_map (intoSpan_strictMono hw) (timeToCycleArc w.start) s
  rwa [intoSpan_cycle w] at h

/-- What `focusArc` plays in `w` is what the pattern plays one drift away. -/
theorem act_focusArc (hw : w.start < w.stop) {v : Pattern Γ α} (hv : Steady v) (hat : isIn a t) :
    act (focusArc w v) m a t =
      ((behaviour v m (fromSpan w t + drift w)).map (onWhole (ArcF.map (· - drift w)))).map
        (onWhole (ArcF.map (intoSpan w))) := by
  have hd := sub_pos.mpr hw
  have hr : 0 < 1 / (w.stop - w.start) := one_div_pos.mpr hd
  have htime : (t + -cyclePos w.start) * (1 / (w.stop - w.start)) = fromSpan w t + drift w := by
    simp only [cyclePos, fromSpan, drift]; field_simp; ring
  rw [focusArc, rotR, act_rotL, fast_of_pos hr, act_fastForward hr,
    hv.act_eq m (isIn_map_mul hr (isIn_map_add hat)), htime, Multiset.map_map, Multiset.map_map]
  refine Multiset.map_congr rfl fun x _ => ?_
  obtain ⟨_ | ⟨s, e⟩, y⟩ := x
  · rfl
  · simp only [Function.comp, onWhole, Option.map_some, ArcF.map, intoSpan, drift, cyclePos]
    congr 3 <;> field_simp <;> ring

/-- What an outer event contributes to `squeezeJoin` at a moment of its part. -/
theorem activeIn_squeezeEvent_clip {e : Event (Pattern Γ α)} (he : e.whole = some w)
    (hw : w.start < w.stop) (hv : Steady e.value) (ht : isIn e.part t) :
    activeIn (squeezeEvent ⟨a, m⟩ e) t =
      oneCycle w ((behaviour e.value m (fromSpan w t + drift w)).map
        (onWhole (ArcF.map (· - drift w)))) := by
  have hact := act_focusArc (m := m) hw hv ht
  rw [oneCycle, ← hact]
  simp only [squeezeEvent, wholeOrPart, he, Option.getD_some]
  refine activeIn_filterMap (fun ie _ hnone hie => ?_) fun ie _ e' he' => ?_
  · -- both parts hold `t`, so it is the wholes that do not intersect
    cases hsub : subMaybeArc (some w) ie.whole with
    | none => simp [clip, hsub]
    | some w' =>
      rw [munge_some.mpr ⟨_, _, hsub, subArc_of_isIn ht hie, rfl⟩] at hnone
      cases hnone
  · obtain ⟨w', p', hw', hp', rfl⟩ := munge_some.mp he'
    refine ⟨by rw [isIn_of_subArc hp']; tauto, fun _ => ?_⟩
    simp [clip, hw']

theorem squeezeEvent_eq_iff {e : Event (Pattern Γ α)} (he : e.whole = some w) (hw : w.start < w.stop)
    (hv : Steady e.value) (ht : isIn e.part t) :
    activeIn (squeezeEvent ⟨a, m⟩ e) t = oneCycle w (behaviour e.value m (fromSpan w t)) ↔
      Repeats e.value m w (fromSpan w t) := by
  rw [activeIn_squeezeEvent_clip he hw hv ht, oneCycle_eq hw, oneCycle_eq hw]
  exact (Multiset.map_injective (onWhole_injective (intoSpan_strictMono hw))).eq_iff

/-! ## Where the drift matters -/

theorem drift_eq_zero_iff (hw : w.start < w.stop) :
    drift w = 0 ↔ sam w.start = 0 ∨ w.stop - w.start = 1 := by
  have hd := sub_pos.mpr hw
  rw [drift, mul_eq_zero, sub_eq_zero, div_eq_one_iff_eq hd.ne', eq_comm (a := (1 : Time))]

theorem repeats_of_drift (hdrift : drift w = 0) (v : Pattern Γ α) (m : Γ) (τ : Time) :
    Repeats v m w τ := by
  have hid : (onWhole (ArcF.map (· - (0 : Time))) : Option Arc × α → Option Arc × α) = id := by
    funext ⟨x, y⟩
    cases x <;> simp [onWhole, ArcF.map]
  rw [Repeats, hdrift, add_zero, hid, Multiset.map_id]

/-- A pattern that plays `x` in the cycle that starts at `s`, and nothing else. -/
def onlyIn (s : Time) (x : α) : Pattern Γ α := filterWhen (fun o => o = s) (Pattern.pure x)

theorem act_onlyIn (s : Time) (x : α) (hat : isIn a t) :
    act (onlyIn s x : Pattern Γ α) m a t = if sam t = s then {(some (timeToCycleArc t), x)} else 0 := by
  have h : act (onlyIn s x : Pattern Γ α) m a t =
      (act (Pattern.pure x) m a t).filter fun y => onsetTest (fun o => o = s) y :=
    act_filterWhen _ ((regular_pure x).digital a m (isIn_pos hat).le)
  rw [h, act_pure x hat, Multiset.filter_singleton]
  simp [onsetTest, timeToCycleArc]

theorem settled_onlyIn (s : Time) (x : α) : Settled (onlyIn s x : Pattern Γ α) where
  digital a m ha e he := (regular_pure x).digital a m ha e (List.mem_filter.mp he).1
  inWhole a m ha e he := (regular_pure x).inWhole a m ha e (List.mem_filter.mp he).1
  steady a b m t ha hb := by rw [act_onlyIn s x ha, act_onlyIn s x hb]

/-- A cycle moved by a drift other than zero no longer fills the cycle. -/
theorem not_repeats_onlyIn (hdrift : drift w ≠ 0) (m : Γ) (x : α) :
    ¬ Repeats (onlyIn (sam w.start) x) m w (sam w.start) := by
  have hcycle : timeToCycleArc (sam w.start) = timeToCycleArc w.start := by
    simp [timeToCycleArc, sam]
  have hself : subArc (timeToCycleArc w.start) (timeToCycleArc w.start) =
      some (timeToCycleArc w.start) := by
    rw [subArc_of_isIn (isIn_timeToCycleArc w.start) (isIn_timeToCycleArc w.start)]
    simp [sect]
  rw [Repeats, behaviour, behaviour, act_onlyIn _ x (isIn_now _), act_onlyIn _ x (isIn_now _),
    if_pos (sam_sam w.start), hcycle]
  intro h
  have hmem : (some (timeToCycleArc w.start), x) ∈ Multiset.filterMap
      (clip (timeToCycleArc w.start)) {(some (timeToCycleArc w.start), x)} := by
    simp [clip, subMaybeArc, hself]
  rw [← h] at hmem
  obtain ⟨y, hy, hclip⟩ := (Multiset.mem_filterMap _ _).mp hmem
  split_ifs at hy with hs
  · -- the moved cycle would have to reach from the start of the cycle to its end
    rw [Multiset.map_singleton, Multiset.mem_singleton] at hy
    subst hy
    have hcyc : timeToCycleArc (sam w.start + drift w) = timeToCycleArc w.start := by
      rw [timeToCycleArc, hs]; rfl
    simp only [clip, onWhole, subMaybeArc, hcyc, Option.map_some, Option.bind_eq_bind,
      Option.map_eq_some_iff, Prod.mk.injEq, and_true, Option.bind_eq_some_iff, Option.pure_def,
      Option.some.injEq] at hclip
    obtain ⟨_, ⟨c, hc, rfl⟩, hc'⟩ := hclip
    obtain rfl := Option.some.inj hc'
    obtain ⟨hsect, _⟩ := subArc_some hc
    simp only [sect, ArcF.map, timeToCycleArc, ArcF.mk.injEq] at hsect
    have h1 := le_max_right (sam w.start) (sam w.start - drift w)
    have h2 := min_le_right (sam w.start + 1) (sam w.start + 1 - drift w)
    rw [← hsect.1] at h1
    rw [← hsect.2] at h2
    exact hdrift (by linarith)
  · simp at hy

/-! ## One inner cycle -/

/-- **Which cycle `squeezeJoin` plays.** What an outer event contributes at a moment of its part is one
inner cycle moved into its whole exactly when the inner pattern repeats itself after the drift; this is
so for every inner pattern exactly when the outer event is in cycle 0 or lasts one cycle. -/
theorem squeezeJoin_one_cycle (m : Γ) (x : α) :
    (∀ (pp : Pattern Γ (Pattern Γ α)) (a : Arc), ∀ e ∈ pp.query ⟨a, m⟩, ∀ w, e.whole = some w →
      w.start < w.stop → Settled e.value → ∀ t, isIn e.part t →
        (activeIn (squeezeEvent ⟨a, m⟩ e) t = oneCycle w (behaviour e.value m (fromSpan w t)) ↔
          Repeats e.value m w (fromSpan w t))) ∧
    (∀ w : Arc, w.start < w.stop →
      ((∀ (pp : Pattern Γ (Pattern Γ α)) (a : Arc), ∀ e ∈ pp.query ⟨a, m⟩, e.whole = some w →
        Settled e.value → ∀ t, isIn e.part t →
          activeIn (squeezeEvent ⟨a, m⟩ e) t = oneCycle w (behaviour e.value m (fromSpan w t))) ↔
        sam w.start = 0 ∨ w.stop - w.start = 1)) := by
  refine ⟨fun pp a e _ w he hw hv t ht => squeezeEvent_eq_iff he hw hv.steady ht, fun w hw => ?_⟩
  rw [← drift_eq_zero_iff hw]
  constructor
  · intro h
    by_contra hdrift
    -- an outer event with the whole `w`, and an inner pattern that plays in one cycle only
    let e : Event (Pattern Γ α) := ⟨⟨[]⟩, some w, w, onlyIn (sam w.start) x⟩
    have hstart : isIn w w.start := ⟨le_rfl, hw⟩
    have hone := h (pattern fun _ => [e]) w e (List.mem_singleton_self e) rfl (settled_onlyIn _ x)
      w.start hstart
    rw [squeezeEvent_eq_iff rfl hw (settled_onlyIn _ x).steady hstart] at hone
    have hfrom : fromSpan w w.start = sam w.start := by simp [fromSpan]
    rw [hfrom] at hone
    exact not_repeats_onlyIn hdrift m x hone
  · intro hdrift pp a e _ he hv t ht
    exact (squeezeEvent_eq_iff he hw hv.steady ht).mpr (repeats_of_drift hdrift _ m _)

/-- An inner pattern that plays the number of the cycle, modulo 3. -/
def counting : Pattern Unit ℕ := cat [Pattern.pure 0, Pattern.pure 1, Pattern.pure 2]

/-- Two outer events for each cycle. -/
def halves : Pattern Unit (Pattern Unit ℕ) :=
  fmap (fun _ => counting) (fastCat [Pattern.pure (), Pattern.pure ()])

theorem settled_counting : Settled counting := by
  have h : Regular counting := regular_cat (by simp [regular_pure])
  exact ⟨h.digital, h.inWhole, h.cut⟩

/-- In cycle 0 the inner cycle is the one of the event; in cycle 1 the inner pattern would have to repeat
itself, which it does not. -/
theorem squeezeJoin_one_cycle_counting :
    activeIn (squeezeEvent ⟨⟨0, 1 / 2⟩, ()⟩ ⟨⟨[]⟩, some ⟨0, 1 / 2⟩, ⟨0, 1 / 2⟩, counting⟩) (1 / 4) =
      oneCycle ⟨0, 1 / 2⟩ (behaviour counting () (fromSpan ⟨0, 1 / 2⟩ (1 / 4))) ∧
    ¬ Repeats counting () ⟨1, 3 / 2⟩ (fromSpan ⟨1, 3 / 2⟩ 1) := by
  constructor
  · exact ((squeezeJoin_one_cycle () (0 : ℕ)).2 ⟨0, 1 / 2⟩ (by norm_num)).mpr (Or.inl (by decide))
      (pattern fun _ => [⟨⟨[]⟩, some ⟨0, 1 / 2⟩, ⟨0, 1 / 2⟩, counting⟩]) ⟨0, 1 / 2⟩ _ (List.mem_singleton_self _)
      rfl settled_counting (1 / 4) (by with_unfolding_all decide)
  · rw [← (squeezeJoin_one_cycle () (0 : ℕ)).1 (pattern fun _ => [⟨⟨[]⟩, some ⟨1, 3 / 2⟩, ⟨1, 3 / 2⟩, counting⟩])
      ⟨1, 3 / 2⟩ _ (List.mem_singleton_self _) _ rfl (by norm_num) settled_counting 1 (by norm_num [isIn])]
    with_unfolding_all decide

/-- In cycle 1 half an event long, cycle 2 of the inner pattern is heard. -/
theorem squeezeJoin_wrong_cycle :
    ∃ e ∈ halves.query ⟨⟨1, 3 / 2⟩, ()⟩, ∃ w, e.whole = some w ∧ w.start < w.stop ∧ Settled e.value ∧
      ∃ t, isIn e.part t ∧ activeIn (squeezeEvent ⟨⟨1, 3 / 2⟩, ()⟩ e) t = {(some ⟨1, 3 / 2⟩, 2)} ∧
        oneCycle w (behaviour e.value () (fromSpan w t)) = {(some ⟨1, 3 / 2⟩, 1)} := by
  have hq : (fastCat [Pattern.pure (), Pattern.pure ()] : Pattern Unit Unit).query
      ⟨⟨1, 3 / 2⟩, ()⟩ = [⟨⟨[]⟩, some ⟨1, 3 / 2⟩, ⟨1, 3 / 2⟩, ()⟩] := by with_unfolding_all decide
  refine ⟨⟨⟨[]⟩, some ⟨1, 3 / 2⟩, ⟨1, 3 / 2⟩, counting⟩, ?_, ⟨1, 3 / 2⟩, rfl, by norm_num,
    settled_counting, 1, by norm_num [isIn], by with_unfolding_all decide, by with_unfolding_all decide⟩
  exact List.mem_map.mpr ⟨_, by rw [hq]; exact List.mem_singleton_self _, rfl⟩

end Tidal
