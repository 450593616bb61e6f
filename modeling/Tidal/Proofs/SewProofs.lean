import Tidal.UI
import Tidal.Proofs.SteadyProofs

/-!
# Proofs: the boolean switch

`sew` asks its sources once, about all the boolean events together, and clips the answers; `mask` asks
the booleans again about every event of a source. At one moment both pair every event of a source with
every boolean event that lets it through.
-/

namespace Tidal

open EventF Pattern

variable {Γ α : Type} {m : Γ} {a : Arc} {t : Time} {pb : Pattern Γ Bool}

/-! ## The plain definition -/

theorem coherent_filterValues (f : α → Bool) {p : Pattern Γ α} (h : Coherent p) :
    Coherent (filterValues f p) where
  digital a m ha e he := h.digital a m ha e (List.mem_filter.mp he).1
  inQuery a m ha e he := h.inQuery a m ha e (List.mem_filter.mp he).1
  inWhole a m ha e he := h.inWhole a m ha e (List.mem_filter.mp he).1
  cut := steady_filterValues f h.cut

/-- Every event of the source is heard once for each boolean event that is true. -/
theorem act_mask {p : Pattern Γ α} (hb : Coherent pb) (hp : Coherent p) (hat : isIn a t) :
    act (mask pb p) m a t =
      ((act pb m a t).filter fun y => y.2).bind fun _ => behaviour p m t := by
  have hfilter : behaviour (filterValues id pb) m t = (act pb m a t).filter fun y => y.2 := by
    rw [behaviour, act_filterValues, hb.act_eq m hat]
    rfl
  rw [mask, act_apLeft (coherent_fmap _ hp) (coherent_filterValues id hb) hat, act_fmap,
    TaggedBag.ap, TaggedBag.bind_map_left (fun x _ => x), hfilter, hp.act_eq m hat, TaggedBag.bind]
  simp only [Multiset.map_map, Function.comp_def]
  -- one event for each pair of an event of `p` and a true event, in whichever order they are paired
  calc (behaviour p m t).bind (fun x => ((act pb m a t).filter fun y => y.2).map fun _ => (x.1, x.2))
      = (behaviour p m t).bind fun x => ((act pb m a t).filter fun y => y.2).bind fun _ => {x} :=
        Multiset.bind_congr fun x _ => (Multiset.bind_singleton _ fun _ => x).symm
    _ = ((act pb m a t).filter fun y => y.2).bind fun _ => (behaviour p m t).bind fun x => {x} :=
        Multiset.bind_bind _ _
    _ = ((act pb m a t).filter fun y => y.2).bind fun _ => behaviour p m t := by
        refine Multiset.bind_congr fun _ _ => ?_
        rw [Multiset.bind_singleton, Multiset.map_id']

theorem act_mask_inv {p : Pattern Γ α} (hb : Coherent pb) (hp : Coherent p) (hat : isIn a t) :
    act (mask (inv pb) p) m a t =
      ((act pb m a t).filter fun y => ¬ y.2).bind fun _ => behaviour p m t := by
  rw [inv, act_mask (coherent_fmap _ hb) hp hat, act_fmap, Multiset.filter_map, Multiset.bind_map]
  simp only [Function.comp_def, Bool.not_eq_true', Bool.not_eq_true]

/-! ## The hull of the boolean parts -/

theorem getD_min?_le {l : List Time} {x : Time} (hx : x ∈ l) : l.min?.getD 0 ≤ x := by
  cases h : l.min? with
  | none => rw [List.min?_eq_none_iff.mp h] at hx; cases hx
  | some v => exact (List.min?_eq_some_iff.mp h).2 x hx

theorem le_getD_max? {l : List Time} {x : Time} (hx : x ∈ l) : x ≤ l.max?.getD 0 := by
  cases h : l.max? with
  | none => rw [List.max?_eq_none_iff.mp h] at hx; cases hx
  | some v => exact (List.max?_eq_some_iff.mp h).2 x hx

/-- The arc that `sew` asks its sources about. -/
def partsHull (evs : List (Event Bool)) : Arc :=
  ⟨((evs.map part).map ArcF.start).min?.getD 0, ((evs.map part).map ArcF.stop).max?.getD 0⟩

theorem isIn_partsHull {evs : List (Event Bool)} {ev : Event Bool} (hev : ev ∈ evs)
    (ht : isIn ev.part t) : isIn (partsHull evs) t := by
  have hpart : ev.part ∈ evs.map part := List.mem_map_of_mem hev
  exact ⟨(getD_min?_le (List.mem_map_of_mem hpart)).trans ht.1,
    ht.2.trans_le (le_getD_max? (List.mem_map_of_mem hpart))⟩

/-! ## The optimised definition -/

theorem check_some {bev : Event Bool} {xev e : Event α} :
    check bev xev = some e ↔ ∃ p', subArc bev.part xev.part = some p' ∧ e = { xev with part := p' } := by
  simp only [check, Option.bind_eq_bind, Option.bind_eq_some_iff, Option.pure_def, Option.some.injEq]
  exact exists_congr fun p' => and_congr_right fun _ => eq_comm

theorem activeIn_check {bev : Event Bool} {es : List (Event α)} :
    activeIn ((es.map (check bev)).reduceOption) t = if isIn bev.part t then activeIn es t else 0 := by
  have h : activeIn (es.filterMap (check bev)) t =
      if isIn bev.part t then (activeIn es t).map fun x => (id x.1, id x.2) else 0 := by
    refine activeIn_munge (fun xev e he => ?_) fun hop xev hxev ht => ?_
    · obtain ⟨p', hp', rfl⟩ := check_some.mp he
      exact ⟨p', hp', rfl, rfl⟩
    · exact ⟨_, check_some.mpr ⟨_, subArc_of_isIn hop ht, rfl⟩, rfl⟩
  rw [List.reduceOption, List.filterMap_map]
  simpa using h

/-- Every boolean event lets through what its source plays. -/
theorem act_sew {p q : Pattern Γ α} (hp : Steady p) (hq : Steady q) :
    act (sew pb p q) m a t =
      (act pb m a t).bind fun y => if y.2 then behaviour p m t else behaviour q m t := by
  refine activeIn_flatMap fun ev hev => ?_
  have hhull : ∀ s : Pattern Γ α, Steady s →
      activeIn (((s.query ⟨partsHull (pb.query ⟨a, m⟩), m⟩).map (check ev)).reduceOption) t =
        if isIn ev.part t then behaviour s m t else 0 := by
    intro s hs
    rw [activeIn_check]
    split_ifs with ht
    · exact hs.act_eq m (isIn_partsHull hev ht)
    · rfl
  cases hv : ev.value with
  | true => exact (hhull p hp).trans (by simp)
  | false => exact (hhull q hq).trans (by simp)

/-- **The optimised switch agrees with its plain definition** at every moment. -/
theorem sew_eq_overlay_mask (pb : Pattern Γ Bool) (p q : Pattern Γ α) (hb : Regular pb) (hp : Regular p)
    (hq : Regular q) (m : Γ) (a b : Arc) (t : Time) (ha : isIn a t) (hb' : isIn b t) :
    act (sew pb p q) m a t = act (overlay (mask pb p) (mask (inv pb) q)) m b t := by
  rw [act_sew hp.steady hq.steady, act_overlay, act_mask hb.toCoherent hp.toCoherent hb',
    act_mask_inv hb.toCoherent hq.toCoherent hb', hb.cut a b m t ha hb']
  -- the true events and the false ones apart
  conv_lhs => rw [← Multiset.filter_add_not (fun y : Option Arc × Bool => y.2) (act pb m b t),
    Multiset.add_bind]
  congr 1
  · exact Multiset.bind_congr fun y hy => if_pos (Multiset.mem_filter.mp hy).2
  · exact Multiset.bind_congr fun y hy => if_neg (Multiset.mem_filter.mp hy).2

theorem sew_eq_overlay_mask_offbeat :
    let pb : Pattern Unit Bool := fastFromList [true, false]
    act (sew pb offbeat (fastFromList [7, 8, 9])) () ⟨0, 1⟩ (5 / 8) =
      act (overlay (mask pb offbeat) (mask (inv pb) (fastFromList [7, 8, 9]))) () ⟨1 / 2, 2⟩ (5 / 8) :=
  sew_eq_overlay_mask _ offbeat _ (regular_fastFromList _) regular_offbeat (regular_fastFromList _) () ⟨0, 1⟩
    ⟨1 / 2, 2⟩ (5 / 8) (by norm_num [isIn]) (by norm_num [isIn])

end Tidal
