import Tidal.Proofs.SteadyProofs
import Tidal.Proofs.CompressProofs

/-!
# Queries of no width

Functions that sample a pattern ask it about an arc of no width. The special branches for such arcs have
to answer as a query around the moment does: an event that ends at the moment must be left out, one that
starts there must be in. This is shown operator by operator, beside the equations for what is active.
-/

namespace Tidal

open Pattern EventF

variable {Γ α β : Type} {m : Γ} {a b : Arc} {t : Time}

/-! ## What a list of events shows -/

/-- The `(whole, value)` pairs of all events. -/
def seen (es : List (Event α)) : Multiset (Option Arc × α) :=
  (es.map fun e => (e.whole, e.value) : List (Option Arc × α))

theorem seen_eq_pick (es : List (Event α)) :
    seen es = HalfOpen.pick (fun _ => True) (fun e => (e.whole, e.value)) es := by
  simp [seen, HalfOpen.pick]

theorem mem_seen {es : List (Event α)} {e : Event α} (he : e ∈ es) : (e.whole, e.value) ∈ seen es :=
  Multiset.mem_coe.mpr (List.mem_map.mpr ⟨e, he, rfl⟩)

theorem seen_mapArc (F : Arc → Arc) (es : List (Event α)) :
    seen (es.map (mapArc F)) = (seen es).map (onWhole F) := by
  simp only [seen, List.map_map, Multiset.map_coe]
  rfl

theorem seen_flatMap {f : Event α → List (Event β)} {G : Option Arc × α → Multiset (Option Arc × β)}
    {es : List (Event α)} (h : ∀ e ∈ es, seen (f e) = G (e.whole, e.value)) :
    seen (es.flatMap f) = (seen es).bind G := by
  rw [seen_eq_pick, seen_eq_pick]
  refine HalfOpen.pick_flatMap fun e he => ?_
  rw [if_pos trivial, ← seen_eq_pick, h e he]

/-- Cut to a moment, the events that are active there are left. -/
theorem seen_filterMap_active {f : Event α → Option (Event β)} {g : Option Arc × α → Option Arc × β}
    {es : List (Event α)} (hnone : ∀ e ∈ es, f e = none → ¬ isIn e.part t)
    (hsome : ∀ e ∈ es, ∀ e', f e = some e' →
      isIn e.part t ∧ (e'.whole, e'.value) = g (e.whole, e.value)) :
    seen (es.filterMap f) = (activeIn es t).map g := by
  rw [seen_eq_pick, ← Multiset.filterMap_eq_map]
  refine HalfOpen.pick_filterMap (fun e he hn hin => absurd hin (hnone e he hn)) fun e he e' h => ?_
  obtain ⟨hin, hg⟩ := hsome e he e' h
  exact ⟨iff_of_true trivial hin, fun _ => congrArg some hg.symm⟩

/-- Events that are replaced one by one. -/
theorem seen_filterMap_all {f : Event α → Option (Event β)} {g : Option Arc × α → Option Arc × β}
    {es : List (Event α)}
    (h : ∀ e ∈ es, ∃ e', f e = some e' ∧ (e'.whole, e'.value) = g (e.whole, e.value)) :
    seen (es.filterMap f) = (seen es).map g := by
  rw [seen_eq_pick, seen_eq_pick, ← Multiset.filterMap_eq_map]
  refine HalfOpen.pick_filterMap (fun e he hn _ => ?_) fun e he e' hf => ⟨Iff.rfl, fun _ => ?_⟩
  · obtain ⟨e', hf, _⟩ := h e he
    rw [hn] at hf
    cases hf
  · obtain ⟨e'', hf', hg⟩ := h e he
    obtain rfl := Option.some.inj (hf.symm.trans hf')
    exact congrArg some hg.symm

/-! ## Sampled and active -/

variable {p : Pattern Γ α}

theorem sampled_eq_seen (p : Pattern Γ α) (m : Γ) (t : Time) :
    sampled p m t = seen (p.query ⟨⟨t, t⟩, m⟩) := rfl

theorem PointConsistent.eq_behaviour (h : PointConsistent p) (m : Γ) (t : Time) :
    sampled p m t = behaviour p m t := h.active _ m t (isIn_now t)

/-- The whole of a sampled event holds the moment. -/
theorem PointConsistent.wholeIn (h : PointConsistent p) (hp : Coherent p) {e : Event α}
    (he : e ∈ p.query ⟨⟨t, t⟩, m⟩) : WholeIn e.whole t := by
  have hmem : (e.whole, e.value) ∈ behaviour p m t := h.eq_behaviour m t ▸ mem_seen he
  obtain ⟨w, hw, hin⟩ := hp.wholeIn_behaviour hmem
  intro w' hw'
  obtain rfl := Option.some.inj (hw.symm.trans hw')
  exact hin

/-! ## Values, layers and shifts -/

theorem pure_query_point (v : α) (m : Γ) (t : Time) :
    (Pattern.pure v : Pattern Γ α).query ⟨⟨t, t⟩, m⟩ =
      [⟨⟨[]⟩, some (timeToCycleArc t), ⟨t, t⟩, v⟩] := by
  have hnext := lt_nextSam t
  have hsect : sect ⟨t, t⟩ (timeToCycleArc t) = ⟨t, t⟩ := by
    simp only [sect, timeToCycleArc, nextSam] at hnext ⊢
    rw [max_eq_left (sam_le t), min_eq_left (by linarith)]
  have hcycle : timeToCycleArc ((⌊t⌋ : ℤ) : Time) = timeToCycleArc t := by
    simp [timeToCycleArc, sam]
  simp [Pattern.pure, cycleArcsInArc, cyclesInArc, hcycle, hsect]

theorem pointConsistent_pure (v : α) : PointConsistent (Pattern.pure v : Pattern Γ α) := by
  refine ⟨fun m t e he => ?_, fun a m t hat => ?_⟩
  · rw [pure_query_point, List.mem_singleton] at he
    rw [he]
  · rw [sampled, pure_query_point, act_pure v hat]
    rfl

theorem pointConsistent_silence : PointConsistent (silence : Pattern Γ α) :=
  ⟨fun _ _ _ he => (List.not_mem_nil he).elim, fun _ _ _ _ => rfl⟩

theorem pointConsistent_stack {ps : List (Pattern Γ α)} (h : ∀ p ∈ ps, PointConsistent p) :
    PointConsistent (stack ps) := by
  refine ⟨fun m t e he => ?_, fun a m t hat => ?_⟩
  · rw [stack_query] at he
    obtain ⟨p, hp, he⟩ := List.mem_flatMap.mp he
    exact (h p hp).part m t e he
  · have hsampled : sampled (stack ps) m t = (ps.map fun p => sampled p m t).sum := by
      rw [sampled_eq_seen, stack_query]
      clear h
      induction ps with
      | nil => rfl
      | cons p ps ih =>
        rw [List.flatMap_cons, List.map_cons, List.sum_cons, ← ih]
        simp [seen, sampled]
    rw [hsampled, act_stack, List.map_congr_left fun p hp => (h p hp).active a m t hat]

theorem pointConsistent_fmap (f : α → β) (h : PointConsistent p) : PointConsistent (fmap f p) := by
  refine ⟨fun m t e he => ?_, fun a m t hat => ?_⟩
  · obtain ⟨e', he', rfl⟩ := List.mem_map.mp he
    exact h.part m t e' he'
  · rw [act_fmap, ← h.active a m t hat]
    simp only [sampled, fmap, List.map_map, Multiset.map_coe]
    rfl

theorem pointConsistent_filterValues (f : α → Bool) (h : PointConsistent p) :
    PointConsistent (filterValues f p) := by
  refine ⟨fun m t e he => h.part m t e (List.mem_filter.mp he).1, fun a m t hat => ?_⟩
  rw [act_filterValues, ← h.active a m t hat, sampled_eq_seen, sampled_eq_seen, seen_eq_pick,
    seen_eq_pick]
  exact HalfOpen.pick_filter _ (fun x : Option Arc × α => f x.2) fun _ _ _ => rfl

/-- Answers to a moved query, moved back. -/
theorem pointConsistent_moved {q : Pattern Γ α} {F : Arc → Arc} {u : Time} (h : PointConsistent p)
    (hquery : q.query ⟨⟨t, t⟩, m⟩ = (p.query ⟨⟨u, u⟩, m⟩).map (mapArc F)) (hF : F ⟨u, u⟩ = ⟨t, t⟩) :
    (∀ e ∈ q.query ⟨⟨t, t⟩, m⟩, e.part = ⟨t, t⟩) ∧ sampled q m t = (sampled p m u).map (onWhole F) := by
  refine ⟨fun e he => ?_, by rw [sampled_eq_seen, hquery, seen_mapArc]; rfl⟩
  rw [hquery] at he
  obtain ⟨e', he', rfl⟩ := List.mem_map.mp he
  rw [mapArc, h.part m u e' he', hF]

theorem pointConsistent_rotL (s : Time) (h : PointConsistent p) : PointConsistent (rotL s p) := by
  have hmoved := fun m t => pointConsistent_moved (q := rotL s p) (u := t + s) (t := t) (m := m) h rfl
    (show ArcF.map (fun x => x - s) (⟨t + s, t + s⟩ : Arc) = ⟨t, t⟩ by simp [ArcF.map])
  refine ⟨fun m t => (hmoved m t).1, fun a m t hat => ?_⟩
  rw [(hmoved m t).2, act_rotL, h.active _ m _ (isIn_map_add hat)]

theorem pointConsistent_fast {r : Time} (hr : 0 < r) (h : PointConsistent p) :
    PointConsistent (_fast r p) := by
  rw [fast_of_pos hr]
  have hmoved := fun m t => pointConsistent_moved (q := _fastForward r p) (u := t * r) (t := t) (m := m) h
    rfl (show ArcF.map (fun x => x / r) (⟨t * r, t * r⟩ : Arc) = ⟨t, t⟩ by
      simp [ArcF.map, hr.ne'])
  refine ⟨fun m t => (hmoved m t).1, fun a m t hat => ?_⟩
  rw [(hmoved m t).2, act_fastForward hr, h.active _ m _ (isIn_map_mul hr hat)]

/-! ## Cycle by cycle -/

theorem arcCyclesZW_point (t : Time) : arcCyclesZW ⟨t, t⟩ = [⟨t, t⟩] := by
  rw [arcCyclesZW, if_pos rfl]

theorem pointConsistent_splitQueries (hp : Regular p) (h : PointConsistent p) :
    PointConsistent (splitQueries p) := by
  have hquery : ∀ m t, (splitQueries p).query ⟨⟨t, t⟩, m⟩ = p.query ⟨⟨t, t⟩, m⟩ := by
    intro m t
    simp only [splitQueries, arcCyclesZW_point, List.flatMap_singleton]
  refine ⟨fun m t e he => h.part m t e (hquery m t ▸ he), fun a m t hat => ?_⟩
  rw [sampled, hquery, act_splitQueries hp.wellFormed.isLocal hat, ← h.active _ m t (isIn_piece hat)]
  rfl

theorem pointConsistent_cat {ps : List (Pattern Γ α)} (hps : ∀ p ∈ ps, Regular p)
    (h : ∀ p ∈ ps, PointConsistent p) : PointConsistent (cat ps) := by
  match ps with
  | [] => exact pointConsistent_silence
  | [p] => exact h p (List.mem_singleton_self p)
  | p₁ :: p₂ :: ps =>
    have hmoved := fun m t => pointConsistent_moved (q := cat (p₁ :: p₂ :: ps)) (t := t) (m := m)
      (u := t - catOffset (p₁ :: p₂ :: ps) ⌊t⌋)
      (getD_silence h pointConsistent_silence (catIndex (p₁ :: p₂ :: ps) ⌊t⌋))
      (show (arcCyclesZW ⟨t, t⟩).flatMap _ = _ by
        rw [arcCyclesZW_point, List.flatMap_singleton]; rfl)
      (show ArcF.map (· + catOffset (p₁ :: p₂ :: ps) ⌊t⌋) _ = _ by simp [ArcF.map])
    refine ⟨fun m t => (hmoved m t).1, fun a m t hat => ?_⟩
    rw [(hmoved m t).2, act_cat (by simp) (fun p hp => (hps p hp).wellFormed.isLocal) hat,
      (getD_silence h pointConsistent_silence _).active _ m _ (isIn_map_sub.mpr (isIn_piece hat))]

/-! ## Cycles squashed into timespans -/

theorem pointConsistent_fastGap {r : Time} (hr : 1 ≤ r) (hp : Regular p) (h : PointConsistent p) :
    PointConsistent (_fastGap r p) := by
  have hr0 : 0 < r := by linarith
  have hquery : ∀ m t, (_fastGap r p).query ⟨⟨t, t⟩, m⟩ = gapPiece r p m ⟨t, t⟩ := by
    intro m t
    rw [fastGap_query hr, arcCyclesZW_point, List.flatMap_singleton]
  -- outside of the gap the answers are those at the stretched moment, moved back
  have hin : ∀ m t, t < sam t + 1 / r → (∀ e ∈ (_fastGap r p).query ⟨⟨t, t⟩, m⟩, e.part = ⟨t, t⟩) ∧
      sampled (_fastGap r p) m t = (sampled p m (sam t + r * (t - sam t))).map (onWhole (gapArc r)) := by
    intro m t ht
    have hlt : r * (t - sam t) < 1 := (lt_gap_iff hr (sam t) t).mp ht
    have h0 : 0 ≤ r * (t - sam t) := mul_nonneg hr0.le (sub_nonneg.mpr (sam_le t))
    refine pointConsistent_moved h ?_ ?_
    · rw [hquery, gapPiece, if_pos ht, gapQuery_eq (b := ⟨t, t⟩) hr le_rfl (lt_nextSam t).le ht]
      simp only [min_eq_right hlt.le]
    · have hsam : sam (sam t + r * (t - sam t)) = sam t :=
        sam_eq (c := ⌊t⌋) (show sam t ≤ _ by linarith) (show _ < sam t + 1 by linarith)
      simp only [gapArc, hsam, add_sub_cancel_left, mul_div_cancel_left₀ _ hr0.ne', add_sub_cancel]
  have hgap : ∀ m t, ¬ t < sam t + 1 / r → (_fastGap r p).query ⟨⟨t, t⟩, m⟩ = [] := by
    intro m t ht
    rw [hquery, gapPiece, if_neg ht]
  refine ⟨fun m t e he => ?_, fun a m t hat => ?_⟩
  · by_cases ht : t < sam t + 1 / r
    · exact (hin m t ht).1 e he
    · rw [hgap m t ht] at he
      cases he
  · obtain ⟨q, hq, hact⟩ := act_fastGap (m := m) hp.wellFormed.isLocal hr hat
    rw [hact]
    split_ifs with ht
    · rw [(hin m t ht).2, h.active q m _ (hq ht)]
    · rw [sampled, hgap m t ht]
      rfl

theorem pointConsistent_compressArc {s e : Time} (hs : 0 ≤ s) (hse : s < e) (he : e ≤ 1)
    (hp : Regular p) (h : PointConsistent p) : PointConsistent (compressArc ⟨s, e⟩ p) := by
  rw [compressArc_eq hs hse he, rotR]
  exact pointConsistent_rotL _ (pointConsistent_fastGap (one_le_rate hs hse he) hp h)

/-! ## Answers made of the fragments of another pattern -/

/-- Every fragment that `q` gives at a moment contributes events at that moment, which depend on its whole
and its value only. -/
theorem pointConsistent_of_fragments {q : Pattern Γ β} {give : Γ → Time → Event β → List (Event α)}
    {F : Γ → Time → Option Arc × β → Multiset (Option Arc × α)} (cq : PointConsistent q)
    (hquery : ∀ m t, p.query ⟨⟨t, t⟩, m⟩ = (q.query ⟨⟨t, t⟩, m⟩).flatMap (give m t))
    (hact : ∀ a m t, isIn a t → act p m a t = (act q m a t).bind (F m t))
    (hpart : ∀ m t, ∀ e ∈ q.query ⟨⟨t, t⟩, m⟩, ∀ e' ∈ give m t e, e'.part = ⟨t, t⟩)
    (hseen : ∀ m t, ∀ e ∈ q.query ⟨⟨t, t⟩, m⟩, seen (give m t e) = F m t (e.whole, e.value)) :
    PointConsistent p := by
  refine ⟨fun m t e he => ?_, fun a m t hat => ?_⟩
  · rw [hquery] at he
    obtain ⟨e', he', he⟩ := List.mem_flatMap.mp he
    exact hpart m t e' he' e he
  · rw [hact a m t hat, ← cq.active a m t hat, sampled_eq_seen, sampled_eq_seen, hquery]
    exact seen_flatMap fun e he => hseen m t e he

/-! ## Applicative -/

/-- The other side, asked about a whole that holds the moment and cut down to the moment, if its parts
have a width. -/
theorem seen_otherSide (hp : Regular p) (hthick : Thick p) {w : Arc} (hwt : isIn w t)
    {f : Event α → Option (Event β)} {W : Option Arc → Option Arc} {V : α → β}
    (hf : ∀ e e', f e = some e' → (∃ p', subArc ⟨t, t⟩ e.part = some p') ∧ e'.value = V e.value)
    (hW : ∀ e ∈ p.query ⟨w, m⟩, isIn e.part t → ∃ e', f e = some e' ∧ e'.whole = W e.whole) :
    seen ((p.query ⟨w, m⟩).filterMap f) = (behaviour p m t).map fun x => (W x.1, V x.2) := by
  rw [← hp.toCoherent.act_eq m hwt]
  refine seen_filterMap_active (fun e he hn hin => ?_) fun e he e' h => ?_
  · obtain ⟨e', h, _⟩ := hW e he hin
    rw [hn] at h
    cases h
  · obtain ⟨⟨p', hp'⟩, hV⟩ := hf e e' h
    rw [subArc_point_pos (hthick w m (isIn_pos hwt) e he)] at hp'
    have hin : isIn e.part t := by
      by_contra hin
      rw [if_neg hin] at hp'
      cases hp'
    obtain ⟨e'', h', hwhole⟩ := hW e he hin
    obtain rfl := Option.some.inj (h.symm.trans h')
    exact ⟨hin, by rw [hV, hwhole]⟩

section Applicative

variable {pf : Pattern Γ (α → β)} {px : Pattern Γ α}

theorem pointConsistent_ap (hf : Regular pf) (hx : Regular px) (cf : PointConsistent pf)
    (hthick : Thick px) : PointConsistent (ap pf px) := by
  refine pointConsistent_of_fragments cf (fun m t => ap_query hf.toCoherent hx.toCoherent le_rfl)
    (fun a m t hat => act_ap hf.toCoherent hx.toCoherent hat) (fun m t ef hef e he => ?_)
    fun m t ef hef => ?_
  · obtain ⟨ex, _, he⟩ := List.mem_filterMap.mp he
    obtain ⟨w', p', _, hp', rfl⟩ := withFXBoth_some.mp he
    rw [cf.part m t ef hef] at hp'
    exact subArc_point_some hp'
  · have hpart := cf.part m t ef hef
    have hwhole := cf.wholeIn hf.toCoherent hef
    obtain ⟨w, hw, hle, _⟩ := hf.toCoherent.whole_eq le_rfl hef
    simp only [wholeOrPart, hw, Option.getD_some, Multiset.map_map]
    rw [seen_otherSide (t := t) (W := meet (some w)) (V := ef.value) hx hthick (hwhole w hw)
      (fun ex e he => ?_) fun ex hex hin => ?_]
    · rfl
    · obtain ⟨w', p', _, hp', rfl⟩ := withFXBoth_some.mp he
      exact ⟨⟨p', hpart ▸ hp'⟩, rfl⟩
    · refine ⟨_, withFXBoth_some.mpr ⟨_, ⟨t, t⟩, subMaybeArc_of_wholeIn hwhole
        (hx.toCoherent.wholeIn hle hex hin), ?_, rfl⟩, by rw [hw]⟩
      rw [hpart, subArc_point_of_isIn hin]

theorem pointConsistent_apLeft (hf : Regular pf) (hx : Regular px) (cf : PointConsistent pf)
    (hthick : Thick px) : PointConsistent (apLeft pf px) := by
  refine pointConsistent_of_fragments cf (fun m t => reduceOption_flatMap_map _ _ _)
    (fun a m t hat => act_apLeft hf.toCoherent hx.toCoherent hat) (fun m t ef hef e he => ?_)
    fun m t ef hef => ?_
  · obtain ⟨ex, _, he⟩ := List.mem_filterMap.mp he
    obtain ⟨p', hp', rfl⟩ := withFXWhole_some.mp he
    rw [cf.part m t ef hef] at hp'
    exact subArc_point_some hp'
  · have hpart := cf.part m t ef hef
    obtain ⟨w, hw, _, _⟩ := hf.toCoherent.whole_eq le_rfl hef
    have hwt : isIn w t := cf.wholeIn hf.toCoherent hef w hw
    simp only [wholeOrPart, hw, Option.getD_some, Multiset.map_map]
    rw [seen_otherSide (t := t) (W := fun _ => some w) (V := ef.value) hx hthick hwt
      (fun ex e he => ?_) fun ex hex hin => ?_]
    · rfl
    · obtain ⟨p', hp', rfl⟩ := withFXWhole_some.mp he
      exact ⟨⟨p', hpart ▸ hp'⟩, rfl⟩
    · refine ⟨_, withFXWhole_some.mpr ⟨⟨t, t⟩, ?_, rfl⟩, rfl⟩
      rw [hpart, subArc_point_of_isIn hin]

theorem pointConsistent_apRight (hf : Regular pf) (hx : Regular px) (cx : PointConsistent px)
    (hthick : Thick pf) : PointConsistent (apRight pf px) := by
  refine pointConsistent_of_fragments cx (fun m t => reduceOption_flatMap_map _ _ _)
    (fun a m t hat => act_apRight hf.toCoherent hx.toCoherent hat) (fun m t ex hex e he => ?_)
    fun m t ex hex => ?_
  · obtain ⟨ef, _, he⟩ := List.mem_filterMap.mp he
    obtain ⟨p', hp', rfl⟩ := withFXWhole_some.mp he
    rw [cx.part m t ex hex, subArc_comm] at hp'
    exact subArc_point_some hp'
  · have hpart := cx.part m t ex hex
    obtain ⟨w, hw, _, _⟩ := hx.toCoherent.whole_eq le_rfl hex
    have hwt : isIn w t := cx.wholeIn hx.toCoherent hex w hw
    simp only [wholeOrPart, hw, Option.getD_some, Multiset.map_map]
    rw [seen_otherSide (t := t) (W := fun _ => some w) (V := fun f : α → β => f ex.value) hf hthick hwt
      (fun ef e he => ?_) fun ef hef hin => ?_]
    · rfl
    · obtain ⟨p', hp', rfl⟩ := withFXWhole_some.mp he
      exact ⟨⟨p', by rw [subArc_comm, ← hpart]; exact hp'⟩, rfl⟩
    · refine ⟨_, withFXWhole_some.mpr ⟨⟨t, t⟩, ?_, rfl⟩, rfl⟩
      rw [hpart, subArc_comm, subArc_point_of_isIn hin]

end Applicative

/-! ## Joins -/

theorem pointConsistent_focusArc {w : Arc} (hw : w.start < w.stop) (h : PointConsistent p) :
    PointConsistent (focusArc w p) :=
  pointConsistent_rotL _ (pointConsistent_fast (one_div_pos.mpr (sub_pos.mpr hw)) h)

/-- The events of an inner pattern at the moment, within an outer event at the moment. -/
theorem seen_joinMunge {oc : Context} {ow : Option Arc} {v : Pattern Γ α} (hv : Coherent v)
    (cv : PointConsistent v) (ho : WholeIn ow t) :
    seen ((v.query ⟨⟨t, t⟩, m⟩).filterMap (munge oc ow ⟨t, t⟩)) =
      (behaviour v m t).map fun y => (meet ow y.1, y.2) := by
  rw [← cv.eq_behaviour, sampled_eq_seen]
  refine seen_filterMap_all fun ie hie => ⟨_, munge_some.mpr ⟨_, ⟨t, t⟩,
    subMaybeArc_of_wholeIn ho (cv.wholeIn hv hie), ?_, rfl⟩, rfl⟩
  rw [cv.part m t ie hie, subArc_point]

/-- Within an outer event at the moment nothing has another part. -/
theorem part_of_joinMunge {oc : Context} {ow : Option Arc} {es : List (Event α)} {e : Event α}
    (he : e ∈ es.filterMap (munge oc ow ⟨t, t⟩)) : e.part = ⟨t, t⟩ := by
  obtain ⟨ie, _, he⟩ := List.mem_filterMap.mp he
  obtain ⟨w', p', _, hp', rfl⟩ := munge_some.mp he
  exact subArc_point_some hp'

section Joins

variable {pp : Pattern Γ (Pattern Γ α)}

theorem pointConsistent_unwrap (hp : Regular pp) (hv : Values Regular pp) (cp : PointConsistent pp)
    (cv : Values PointConsistent pp) : PointConsistent (unwrap pp) := by
  refine pointConsistent_of_fragments cp (fun m t => rfl)
    (fun a m t hat => act_unwrap hp.toCoherent (fun a m ha e he => (hv a m ha e he).toCoherent) hat)
    (fun m t oe hoe e he => ?_) fun m t oe hoe => ?_
  · rw [cp.part m t oe hoe] at he
    exact part_of_joinMunge he
  · rw [cp.part m t oe hoe]
    exact seen_joinMunge (hv _ m le_rfl oe hoe).toCoherent (cv _ m le_rfl oe hoe)
      (cp.wholeIn hp.toCoherent hoe)

theorem pointConsistent_innerJoin (hp : Regular pp) (hv : Values Regular pp) (cp : PointConsistent pp)
    (cv : Values PointConsistent pp) : PointConsistent (innerJoin pp) := by
  refine pointConsistent_of_fragments cp (fun m t => rfl)
    (fun a m t hat => act_innerJoin hp.toCoherent (fun a m ha e he => (hv a m ha e he).toCoherent) hat)
    (fun m t oe hoe e he => ?_) fun m t oe hoe => ?_
  · obtain ⟨ie, _, he⟩ := List.mem_filterMap.mp he
    obtain ⟨q, q', hq, hq', rfl⟩ := mungeInner_some.mp he
    rw [subArc_point_some hq] at hq'
    exact subArc_point_some hq'
  · have hvalue := cv _ m le_rfl oe hoe
    simp only [← hvalue.eq_behaviour, sampled_eq_seen, cp.part m t oe hoe]
    refine seen_filterMap_all fun ie hie => ⟨_, mungeInner_some.mpr ⟨⟨t, t⟩, ⟨t, t⟩, ?_, subArc_point t,
      rfl⟩, rfl⟩
    rw [hvalue.part m t ie hie, subArc_point]

theorem pointConsistent_squeezeJoin (hp : Regular pp) (hv : Values Regular pp) (cp : PointConsistent pp)
    (cv : Values PointConsistent pp) : PointConsistent (squeezeJoin pp) := by
  refine pointConsistent_of_fragments cp (fun m t => rfl)
    (fun a m t hat => act_squeezeJoin hp.toCoherent
      (fun a m ha e he w _ => (regular_focusArc w (hv a m ha e he)).toCoherent) hat)
    (fun m t oe hoe e he => ?_) fun m t oe hoe => ?_
  · rw [squeezeEvent, cp.part m t oe hoe] at he
    exact part_of_joinMunge he
  · obtain ⟨w, hw, _, _⟩ := hp.toCoherent.whole_eq le_rfl hoe
    have hwt := cp.wholeIn hp.toCoherent hoe
    simp only [squeezeEvent, wholeOrPart, squeezed, hw, Option.getD_some, cp.part m t oe hoe]
    exact seen_joinMunge (regular_focusArc w (hv _ m le_rfl oe hoe)).toCoherent
      (pointConsistent_focusArc (isIn_pos (hwt w hw)) (cv _ m le_rfl oe hoe)) (hw ▸ hwt)

end Joins

/-! ## All of them -/

/-- Sampling at a point agrees with asking about a span, for every operator. Where a side is asked about
the wholes of the other, its parts must have a width. -/
theorem pointConsistent_operators :
    (∀ v : α, PointConsistent (Pattern.pure v : Pattern Γ α)) ∧
    PointConsistent (silence : Pattern Γ α) ∧
    (∀ ps : List (Pattern Γ α), (∀ p ∈ ps, Regular p) → (∀ p ∈ ps, PointConsistent p) →
      PointConsistent (stack ps) ∧ PointConsistent (cat ps)) ∧
    (∀ p : Pattern Γ α, Regular p → PointConsistent p →
      (∀ f : α → β, PointConsistent (fmap f p)) ∧
      (∀ f : α → Bool, PointConsistent (filterValues f p)) ∧
      (∀ r, 0 < r → PointConsistent (_fast r p)) ∧
      (∀ s, PointConsistent (rotL s p)) ∧
      PointConsistent (splitQueries p) ∧
      (∀ s e, 0 ≤ s → s < e → e ≤ 1 → PointConsistent (compressArc ⟨s, e⟩ p))) ∧
    (∀ (pf : Pattern Γ (α → β)) (px : Pattern Γ α), Regular pf → Regular px →
      PointConsistent pf → PointConsistent px →
      (Thick px → PointConsistent (ap pf px) ∧ PointConsistent (apLeft pf px)) ∧
      (Thick pf → PointConsistent (apRight pf px))) ∧
    (∀ pp : Pattern Γ (Pattern Γ α), Regular pp → Values Regular pp → PointConsistent pp →
      Values PointConsistent pp →
      PointConsistent (unwrap pp) ∧ PointConsistent (innerJoin pp) ∧ PointConsistent (squeezeJoin pp)) := by
  refine ⟨pointConsistent_pure, pointConsistent_silence, fun ps hps cps => ?_, fun p hp cp => ?_,
    fun pf px hf hx cf cx => ?_, fun pp hp hv cp cv => ?_⟩
  · exact ⟨pointConsistent_stack cps, pointConsistent_cat hps cps⟩
  · exact ⟨fun f => pointConsistent_fmap f cp, fun f => pointConsistent_filterValues f cp,
      fun _ hr => pointConsistent_fast hr cp, fun s => pointConsistent_rotL s cp,
      pointConsistent_splitQueries hp cp, fun _ _ hs hse he => pointConsistent_compressArc hs hse he hp cp⟩
  · exact ⟨fun hx' => ⟨pointConsistent_ap hf hx cf hx', pointConsistent_apLeft hf hx cf hx'⟩,
      fun hf' => pointConsistent_apRight hf hx cx hf'⟩
  · exact ⟨pointConsistent_unwrap hp hv cp cv, pointConsistent_innerJoin hp hv cp cv,
      pointConsistent_squeezeJoin hp hv cp cv⟩

/-- The beginnings of the cycles in a query of positive width, as events whose parts have no width. -/
def sparks : Pattern Unit ℕ := pattern fun st =>
  (((Pattern.pure 1 : Pattern Unit ℕ).query st).filter fun e =>
    decide (e.part.start < e.part.stop) && e.eventHasOnset).map fun e =>
      { e with part := ⟨e.part.start, e.part.start⟩ }

/-- A pattern that is the same for all cuts of a query into arcs of positive width, and has parts of no
width all the same. -/
def glint : Pattern Unit ℕ := overlay (Pattern.pure 0) sparks

theorem act_glint (hat : isIn a t) : act glint () a t = {(some (timeToCycleArc t), 0)} := by
  have hsparks : act sparks () a t = 0 := activeIn_eq_zero fun e he hin => by
    obtain ⟨e', _, rfl⟩ := List.mem_map.mp he
    exact absurd (isIn_pos hin) (lt_irrefl _)
  rw [glint, act_overlay, hsparks, act_pure 0 hat, add_zero]

theorem regular_glint : Regular glint := by
  refine regular_iff.mpr ⟨fun a m ha e he => ?_, fun a b m t ha hb => by rw [act_glint ha, act_glint hb]⟩
  rcases List.mem_append.mp he with he | he
  · exact wellFormed_pure 0 a m ha e he
  · obtain ⟨e', he', rfl⟩ := List.mem_map.mp he
    have hwell : WellFormed False (Pattern.pure 1 : Pattern Unit ℕ) := wellFormed_pure 1
    obtain ⟨⟨⟨h1, h2, h3⟩, _⟩, w, hw, hpos, hin⟩ := hwell a m ha e' (List.mem_filter.mp he').1
    exact ⟨⟨⟨h1, le_rfl, h2.trans h3⟩, fun h => h.elim⟩, w, hw, hpos, hin.1, le_rfl, hin.2.1.trans hin.2.2⟩

theorem pointConsistent_glint : PointConsistent glint := by
  have hquery : ∀ m t, glint.query ⟨⟨t, t⟩, m⟩ = (Pattern.pure 0 : Pattern Unit ℕ).query ⟨⟨t, t⟩, m⟩ := by
    intro m t
    have hnone : sparks.query ⟨⟨t, t⟩, m⟩ = [] := by
      simp [sparks, pattern, pure_query_point]
    show _ ++ _ = _
    rw [hnone, List.append_nil]
  refine ⟨fun m t e he => (pointConsistent_pure 0).part m t e (hquery m t ▸ he), fun a m t hat => ?_⟩
  rw [sampled, hquery, ← sampled, (pointConsistent_pure 0).active a m t hat, act_pure 0 hat, act_glint hat]

/-- With parts of no width a sampled `<*>` sees what no span of it plays. -/
theorem ap_glint_not_pointConsistent :
    Regular glint ∧ PointConsistent glint ∧ Regular (Pattern.pure id : Pattern Unit (ℕ → ℕ)) ∧
    PointConsistent (Pattern.pure id : Pattern Unit (ℕ → ℕ)) ∧
    ¬ PointConsistent (ap (Pattern.pure id) glint) := by
  refine ⟨regular_glint, pointConsistent_glint, regular_pure id, pointConsistent_pure id, fun h => ?_⟩
  have hne : sampled (ap (Pattern.pure id) glint) () 0 ≠ act (ap (Pattern.pure id) glint) () ⟨0, 1⟩ 0 := by
    with_unfolding_all decide
  exact hne (h.active ⟨0, 1⟩ () 0 ⟨le_rfl, one_pos⟩)

end Tidal
