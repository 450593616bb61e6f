import Tidal.Chew
import Tidal.Proofs.StepwiseProofs
import Tidal.Proofs.ChunkProofs

/-!
# Proofs: which slices `_chew` plays as `_bite` does

`_bite` focusses a slice on the whole of an outer event, `_chew` compresses it into the position that the
whole has in its cycle. What is compressed is rescaled arc by arc, and it has to stay in one cycle.
-/

namespace Tidal

open EventF Pattern

variable {Γ S α β : Type} {m : Γ} {a : Arc} {t : Time}

/-! ## Control maps without their speed -/

namespace Map

variable {f : α → α → α} {x y : Map α} {k l : String}

theorem getElem?_foldl_alter {ys : List (String × α)} (h : ∀ z ∈ ys, z.1 ≠ l) (x : Map α) :
    (ys.foldl (fun r z => r.alter z.1 fun v => some (v.elim z.2 (f · z.2))) x)[l]? = x[l]? := by
  induction ys generalizing x with
  | nil => rfl
  | cons z ys ih =>
    rw [List.foldl_cons, ih fun z' hz' => h z' (List.mem_cons_of_mem _ hz'),
      Std.ExtTreeMap.getElem?_alter, if_neg]
    rw [compare_eq_iff_eq]
    exact h z (List.mem_cons_self ..)

/-- A key that the right map does not have keeps its value. -/
theorem getElem?_unionWith (h : y[l]? = none) : (x.unionWith f y)[l]? = x[l]? := by
  rw [unionWith, Std.ExtTreeMap.foldl_eq_foldl_toList]
  refine getElem?_foldl_alter (fun z hz hkey => ?_) x
  rw [← Prod.mk.eta (p := z), Std.ExtTreeMap.mem_toList_iff_getElem?_eq_some, hkey, h] at hz
  cases hz

theorem erase_unionWith (h : ∀ l, l ≠ k → y[l]? = none) : (x.unionWith f y).erase k = x.erase k := by
  refine Std.ExtTreeMap.ext_getElem? fun l => ?_
  rw [Std.ExtTreeMap.getElem?_erase, Std.ExtTreeMap.getElem?_erase]
  by_cases hl : compare k l = .eq
  · rw [if_pos hl, if_pos hl]
  · rw [if_neg hl, if_neg hl, getElem?_unionWith (h l fun hc => hl (hc ▸ Std.ReflCmp.compare_self))]

theorem getElem?_singleton_ne (v : α) (h : l ≠ k) : (singleton k v)[l]? = none := by
  rw [singleton, Std.ExtTreeMap.getElem?_insert, if_neg fun hc => h (compare_eq_iff_eq.mp hc).symm]
  rfl

end Map

namespace ValueMap

theorem erase_mul_speed (x : ValueMap S) (v : Value S) :
    (x.mul (Map.singleton "speed" v)).erase "speed" = x.erase "speed" :=
  Map.erase_unionWith fun _ h => Map.getElem?_singleton_ne v h

theorem erase_div_speed (x : ValueMap S) (v : Value S) :
    (x.div (Map.singleton "speed" v)).erase "speed" = x.erase "speed" :=
  Map.erase_unionWith fun l h => by
    rw [recip, Std.ExtTreeMap.getElem?_map, Map.getElem?_singleton_ne v h, Option.map_none]

end ValueMap

/-! ## Patterns scaled by one number -/

/-- The pair, if its whole holds `t`. -/
def during (t : Time) (x : Option Arc × α) : Option (Option Arc × α) :=
  if x.1.all fun w => isIn w t then some x else none

theorem act_pure_ite (v : α) : act (Pattern.pure v : Pattern Γ α) m a t =
    if isIn a t then {(some (timeToCycleArc t), v)} else 0 := by
  split_ifs with h
  · exact act_pure v h
  · refine activeIn_eq_zero fun e he hin => h ?_
    obtain ⟨c, _, rfl⟩ := List.mem_map.mp he
    exact (isIn_sect.mp hin).1

/-- The right side is asked for the whole of each left event, and is silent before and after it. -/
theorem act_apLeft_pure (op : α → β → α) (p : Pattern Γ α) {q : Pattern Γ β} {v : β}
    (hq : q.query = (Pattern.pure v).query) :
    act (apLeft (fmap op p) q) m a t =
      ((act p m a t).filterMap (during t)).map fun x => (x.1, op x.2 v) := by
  rw [← Multiset.bind_singleton, Multiset.bind_filterMap, act, apLeft, keepTactus, applyPatToPatLeft,
    pattern]
  simp only [reduceOption_flatMap_map, fmap, List.flatMap_map, hq]
  refine activeIn_flatMap fun e _ => ?_
  rw [activeIn_withFXWhole]
  change (if isIn e.part t then (act (Pattern.pure v) m e.wholeOrPart t).map fun y =>
    (e.whole, op e.value y.2) else 0) = _
  by_cases ht : isIn e.part t
  · have hin : isIn e.wholeOrPart t ↔ e.whole.all fun w => isIn w t := by
      cases hw : e.whole <;> simp [wholeOrPart, hw, ht]
    have hv := act_pure_ite (Γ := Γ) (m := m) (a := e.wholeOrPart) (t := t) v
    rw [if_congr hin rfl rfl] at hv
    rw [if_pos ht, if_pos ht, hv, during]
    split_ifs <;> rfl
  · rw [if_neg ht, if_neg ht]

theorem Local.apLeft_pure (op : α → β → α) {p : Pattern Γ α} (h : Local p) {q : Pattern Γ β} {v : β}
    (hq : q.query = (Pattern.pure v).query) : Local (apLeft (Pattern.fmap op p) q) := by
  intro a m t ha hat
  rw [act_apLeft_pure op p hq, h a m t ha hat]
  rfl

theorem Steady.apLeft_pure (op : α → β → α) {p : Pattern Γ α} (h : Steady p) {q : Pattern Γ β} {v : β}
    (hq : q.query = (Pattern.pure v).query) : Steady (apLeft (fmap op p) q) := by
  intro a b m t ha hb
  rw [act_apLeft_pure op p hq, act_apLeft_pure op p hq, h a b m t ha hb]

/-- The pair without the speed in its control map. -/
def noSpeed (x : Option Arc × ValueMap S) : Option Arc × ValueMap S := (x.1, x.2.erase "speed")

theorem speed_pure_query (r : ℚ) : (speed (Pattern.pure r) : Pattern Γ (ValueMap S)).query =
    (Pattern.pure (Map.singleton "speed" (.VF r))).query := by
  funext st
  simp only [speed, pF, fmap, Pattern.pure, List.map_map]
  rfl

/-- What looks at wholes only may look before or after the speed is removed. -/
theorem filterMap_noSpeed {F : ∀ {α : Type}, Option Arc × α → Option (Option Arc × α)}
    (hF : ∀ {α β : Type} (f : α → β) (x : Option Arc × α),
      F (x.1, f x.2) = (F x).map fun y => (y.1, f y.2))
    (s : Multiset (Option Arc × ValueMap S)) :
    (s.filterMap F).map noSpeed = (s.map noSpeed).filterMap F := by
  rw [Multiset.filterMap_map, Multiset.map_filterMap]
  exact congrArg (Multiset.filterMap · s) (funext fun x => (hF (Std.ExtTreeMap.erase · "speed") x).symm)

theorem during_values (f : α → β) (x : Option Arc × α) :
    during t (x.1, f x.2) = (during t x).map fun y => (y.1, f y.2) := by
  unfold during
  split_ifs <;> rfl

theorem act_mulLeft_speed (p : Pattern Γ (ValueMap S)) (r : ℚ) :
    (act (mulLeft p (speed (Pattern.pure r))) m a t).map noSpeed =
      ((act p m a t).filterMap (during t)).map noSpeed := by
  rw [mulLeft, act_apLeft_pure ValueMap.mul p (speed_pure_query r), Multiset.map_map]
  refine Multiset.map_congr rfl fun x _ => ?_
  rw [Function.comp, noSpeed, noSpeed, ValueMap.erase_mul_speed]

theorem act_divLeft_speed (p : Pattern Γ (ValueMap S)) (r : ℚ) :
    (act (divLeft p (speed (Pattern.pure r))) m a t).map noSpeed =
      ((act p m a t).filterMap (during t)).map noSpeed := by
  rw [divLeft, act_apLeft_pure ValueMap.div p (speed_pure_query r), Multiset.map_map]
  refine Multiset.map_congr rfl fun x _ => ?_
  rw [Function.comp, noSpeed, noSpeed, ValueMap.erase_div_speed]

/-! ## Slices -/

/-- The timespan of each cycle that slice `i` of `n` is. -/
def sliceArc (n i : ℤ) : Arc := ⟨((i % n : ℤ) : ℚ) / n, (((i % n : ℤ) : ℚ) + 1) / n⟩

section Slices

variable {n : ℤ} {p : Pattern Γ α} {w z : Arc}

theorem sliceArc_spec (hn : 1 ≤ n) (i : ℤ) :
    0 ≤ (sliceArc n i).start ∧ (sliceArc n i).start < (sliceArc n i).stop ∧ (sliceArc n i).stop ≤ 1 := by
  have hpos : (0 : ℚ) < n := by exact_mod_cast hn
  have h0 : (0 : ℚ) ≤ (i % n : ℤ) := by exact_mod_cast Int.emod_nonneg i (by omega)
  have h1 : ((i % n : ℤ) : ℚ) + 1 ≤ n := by
    have := Int.emod_lt_of_pos i (by omega : 0 < n)
    exact_mod_cast this
  exact ⟨div_nonneg h0 hpos.le, div_lt_div_of_pos_right (by linarith) hpos, (div_le_one hpos).mpr h1⟩

theorem CutFree.zoompat (hn : 1 ≤ n) (h : CutFree p) (i : ℤ) : CutFree (zoompat n p i) :=
  h.zoomArc (c := sliceArc n i) (sliceArc_spec hn i).1 (sliceArc_spec hn i).2.1 (sliceArc_spec hn i).2.2

theorem behaviour_zoompat (hn : 1 ≤ n) (h : CutFree p) (i : ℤ) (t : Time) :
    behaviour (zoompat n p i) m t =
      (behaviour p m (zoomTime (sliceArc n i) t)).map (onWhole (zoomResult (sliceArc n i))) :=
  act_zoomArc h.isLocal h.steady (sliceArc_spec hn i).1 (sliceArc_spec hn i).2.1
    (sliceArc_spec hn i).2.2 (isIn_now t)

/-- What is active in a slice has a whole, of positive width. -/
theorem Seamless.whole_zoompat (hn : 1 ≤ n) (h : Seamless p) {i : ℤ} {x : Option Arc × α}
    (hx : x ∈ behaviour (Pattern.zoompat n p i) m t) : ∃ z, x.1 = some z ∧ z.start < z.stop := by
  rw [behaviour_zoompat hn h.cutFree] at hx
  obtain ⟨y, hy, rfl⟩ := Multiset.mem_map.mp hx
  obtain ⟨w, hw, hin⟩ := h.whole_isIn hy
  refine ⟨zoomResult (sliceArc n i) w, by simp [onWhole, hw], ?_⟩
  have hlt := div_lt_div_of_pos_right (sub_lt_sub_right (sub_lt_sub_right (isIn_pos hin) (sam w.start))
    (sliceArc n i).start) (sub_pos.mpr (sliceArc_spec hn i).2.1)
  simp only [zoomResult, mapCycle]
  linarith

/-! ## What is squeezed -/

theorem activeIn_squeezeEvent_of_not {e : Event (Pattern Γ α)} (ht : ¬ isIn e.part t) (st : State Γ) :
    activeIn (squeezeEvent st e) t = 0 := by
  refine activeIn_eq_zero fun e' he' hin => ht ?_
  obtain ⟨ie, _, hie⟩ := List.mem_filterMap.mp he'
  obtain ⟨w', p', _, hp', rfl⟩ := munge_some.mp hie
  exact ((isIn_of_subArc hp').mp hin).1

/-- What `squeezeJoin` plays for a whole and the pattern in it. -/
def squeezedAt (m : Γ) (t : Time) (w : Arc) (v : Pattern Γ α) : Multiset (Option Arc × α) :=
  oneCycle w ((behaviour v m (fromSpan w t + drift w)).map (onWhole (ArcF.map (· - drift w))))

theorem act_squeezeJoin_fmap {q : Pattern Γ β} (hq : Seamless q) {f : β → Pattern Γ α}
    (hf : ∀ i, Steady (f i)) (hat : isIn a t) :
    act (squeezeJoin (fmap f q)) m a t =
      (behaviour q m t).bind fun x => x.1.elim 0 fun w => squeezedAt m t w (f x.2) := by
  have hle := (isIn_pos hat).le
  rw [← hq.steady.act_eq m hat]
  simp only [squeezeJoin, fmap, act, List.flatMap_map]
  refine activeIn_flatMap fun e he => ?_
  split_ifs with ht
  · obtain ⟨w, hw, hwt⟩ := hq.whole_of_mem hle he ht
    rw [hw]
    exact activeIn_squeezeEvent_clip (e := EventF.map f e) hw (isIn_pos hwt) (hf e.value) ht
  · exact activeIn_squeezeEvent_of_not (e := EventF.map f e) ht _

/-! ## What is compressed -/

/-- Where `_chew` puts an arc of the pattern that it plays in `w`. -/
def squash (w : Arc) (z : Arc) : Arc := (gapArc (1 / (w.stop - w.start)) z).map (· + cyclePos w.start)

/-- What is compressed into the position of `w` in its cycle must not reach beyond the cycle. -/
theorem act_compressArc_cycleArc {v : Pattern Γ α} (hl : Local v) (hs : Steady v) (hw : isIn w t)
    (hat : isIn a t) :
    act (compressArc (cycleArc w) v) m a t =
      if w.stop ≤ nextSam w.start then (behaviour v m (fromSpan w t)).map (onWhole (squash w)) else 0 := by
  have hto : compressArc (cycleArc w) v = compressArcTo w v := by
    rw [compressArcTo, cycleArc]
    congr 2
    rw [cyclePos]; ring
  rw [hto]
  split_ifs with hstop
  · obtain ⟨q, hq, hact⟩ := act_compressArcTo (m := m) hl hw hstop hat
    rw [hact, hs.act_eq m hq]
    rfl
  · rw [compressArcTo_eq_empty (isIn_pos hw) (not_le.mp hstop)]
    rfl

/-- The pair cut to `c`, if it has a whole that intersects with it. -/
def clipUp (c : Arc) (x : Option Arc × α) : Option (Option Arc × α) := do
  let w ← x.1
  let w' ← subArc c w
  return (some w', x.2)

theorem mungeUp_some {co : Context} {w p : Arc} {ie e : Event (ValueMap S)} :
    mungeUp co w p ie = some e ↔ ∃ z w' p', ie.whole = some z ∧ subArc w z = some w' ∧
      subArc p ie.part = some p' ∧ e = ⟨combineContexts [ie.context, co], some w', p', ie.value⟩ := by
  simp only [mungeUp, Option.bind_eq_bind, Option.bind_eq_some_iff, Option.pure_def, Option.some.injEq]
  constructor
  · rintro ⟨z, hz, w', hw', p', hp', rfl⟩
    exact ⟨z, w', p', hz, hw', hp', rfl⟩
  · rintro ⟨z, w', p', hz, hw', hp', rfl⟩
    exact ⟨z, hz, w', hw', p', hp', rfl⟩

theorem activeIn_mungeUp {co : Context} {w p : Arc} {es : List (Event (ValueMap S))} (ht : isIn p t) :
    activeIn (es.filterMap (mungeUp co w p)) t = (activeIn es t).filterMap (clipUp w) := by
  refine activeIn_filterMap (fun ie _ hnone hie => ?_) fun ie _ e' he' => ?_
  · cases hclip : clipUp w (ie.whole, ie.value) with
    | none => rfl
    | some x =>
      simp only [clipUp, Option.bind_eq_bind, Option.bind_eq_some_iff] at hclip
      obtain ⟨z, hz, w', hw', _⟩ := hclip
      rw [mungeUp_some.mpr ⟨z, w', _, hz, hw', subArc_of_isIn ht hie, rfl⟩] at hnone
      cases hnone
  · obtain ⟨z, w', p', hz, hw', hp', rfl⟩ := mungeUp_some.mp he'
    exact ⟨by rw [isIn_of_subArc hp']; tauto, fun _ => by simp [clipUp, hz, hw']⟩

theorem activeIn_squeezeUpEvent_of_not {e : Event (Pattern Γ (ValueMap S))} (ht : ¬ isIn e.part t)
    (st : State Γ) : activeIn (squeezeUpEvent st e) t = 0 := by
  refine activeIn_eq_zero fun e' he' hin => ht ?_
  cases hw : e.whole with
  | none => simp [squeezeUpEvent, hw] at he'
  | some w =>
    simp only [squeezeUpEvent, hw] at he'
    obtain ⟨ie, _, hie⟩ := List.mem_filterMap.mp he'
    obtain ⟨z, w', p', _, _, hp', rfl⟩ := mungeUp_some.mp hie
    exact ((isIn_of_subArc hp').mp hin).1

theorem clipUp_values (f : α → β) (x : Option Arc × α) :
    clipUp w (x.1, f x.2) = (clipUp w x).map fun y => (y.1, f y.2) := by
  obtain ⟨_ | z, v⟩ := x
  · rfl
  · simp only [clipUp, Option.bind_eq_bind, Option.bind_some]
    cases subArc w z <;> rfl

/-- What `squeezeJoinUp` plays for a whole and the pattern in it. -/
def squeezedUpAt (m : Γ) (t : Time) (w : Arc) (v : Pattern Γ (ValueMap S)) :
    Multiset (Option Arc × ValueMap S) :=
  if w.stop ≤ nextSam w.start then
    ((behaviour (mulLeft v (speed (Pattern.pure (1 / (w.stop - w.start))))) m (fromSpan w t)).map
      (onWhole (squash w))).filterMap (clipUp w)
  else 0

theorem act_squeezeJoinUp_fmap {q : Pattern Γ β} (hq : Seamless q) {f : β → Pattern Γ (ValueMap S)}
    (hf : ∀ i, CutFree (f i)) (hat : isIn a t) :
    act (squeezeJoinUp (fmap f q)) m a t =
      (behaviour q m t).bind fun x => x.1.elim 0 fun w => squeezedUpAt m t w (f x.2) := by
  have hle := (isIn_pos hat).le
  have hdigital : (filterDigital (fmap f q)).query ⟨a, m⟩ = (q.query ⟨a, m⟩).map (EventF.map f) := by
    refine List.filter_eq_self.mpr fun e he => ?_
    obtain ⟨e', he', rfl⟩ := List.mem_map.mp he
    exact hq.digital a m hle e' he'
  rw [← hq.steady.act_eq m hat]
  simp only [squeezeJoinUp, act, hdigital, List.flatMap_map]
  refine activeIn_flatMap fun e he => ?_
  split_ifs with ht
  · obtain ⟨w, hw, hwt⟩ := hq.whole_of_mem hle he ht
    have hv := hf e.value
    have hact := act_compressArc_cycleArc (m := m)
      (hv.isLocal.apLeft_pure ValueMap.mul (speed_pure_query (1 / (w.stop - w.start))))
      (hv.steady.apLeft_pure ValueMap.mul (speed_pure_query (1 / (w.stop - w.start)))) hwt ht
    simp only [squeezeUpEvent, EventF.map, hw, Option.elim_some]
    rw [activeIn_mungeUp ht]
    change (act _ m e.part t).filterMap _ = _
    rw [squeezedUpAt, mulLeft, hact]
    split_ifs <;> rfl
  · exact activeIn_squeezeUpEvent_of_not (e := EventF.map f e) ht _

/-- What `_chew` makes of a pair that the slice plays, for an outer event with the whole `w`. -/
def chewed (w : Arc) (t : Time) (x : Option Arc × α) : Option (Option Arc × α) :=
  if w.stop ≤ nextSam w.start then
    (during (fromSpan w t) x).bind fun y => (clipUp w (onWhole (squash w) y)).bind (during t)
  else none

theorem squeezedUpAt_noSpeed (v : Pattern Γ (ValueMap S)) :
    ((squeezedUpAt m t w v).filterMap (during t)).map noSpeed =
      ((behaviour v m (fromSpan w t)).map noSpeed).filterMap (chewed w t) := by
  unfold squeezedUpAt chewed
  split_ifs with hstop
  · have hmul : (behaviour (mulLeft v (speed (Pattern.pure (1 / (w.stop - w.start))))) m
        (fromSpan w t)).map noSpeed = ((behaviour v m (fromSpan w t)).filterMap
          (during (fromSpan w t))).map noSpeed := act_mulLeft_speed v _
    have hmove : ∀ s : Multiset (Option Arc × ValueMap S),
        (s.map (onWhole (squash w))).map noSpeed = (s.map noSpeed).map (onWhole (squash w)) := by
      intro s
      simp only [Multiset.map_map]
      rfl
    rw [filterMap_noSpeed during_values, filterMap_noSpeed clipUp_values, hmove, hmul,
      filterMap_noSpeed during_values, Multiset.filterMap_map, Multiset.filterMap_filterMap,
      Multiset.filterMap_filterMap]
    rfl
  · exact (Multiset.eq_zero_of_forall_notMem fun y hy => by
      obtain ⟨_, _, h⟩ := (Multiset.mem_filterMap _ _).mp hy
      cases h).symm

/-! ## `_bite` and `_chew` -/

theorem act_bite (hn : 1 ≤ n) {q : Pattern Γ ℤ} (hq : Seamless q) (hp : Seamless p) (hat : isIn a t) :
    act (_bite n q p) m a t =
      (behaviour q m t).bind fun x => x.1.elim 0 fun w => squeezedAt m t w (zoompat n p x.2) :=
  act_squeezeJoin_fmap hq (fun i => (hp.cutFree.zoompat hn i).steady) hat

theorem act_chew (hn : 1 ≤ n) {q : Pattern Γ ℤ} (hq : Seamless q) {p : Pattern Γ (ValueMap S)}
    (hp : Seamless p) (hat : isIn a t) :
    (act (_chew n q p) m a t).map noSpeed = (behaviour q m t).bind fun x => x.1.elim 0 fun w =>
      ((behaviour (zoompat n p x.2) m (fromSpan w t)).map noSpeed).filterMap (chewed w t) := by
  rw [_chew, act_divLeft_speed, act_squeezeJoinUp_fmap hq (fun i => hp.cutFree.zoompat hn i) hat,
    Multiset.filterMap_bind, Multiset.map_bind]
  refine Multiset.bind_congr fun x _ => ?_
  cases x.1 with
  | none => rfl
  | some w => exact squeezedUpAt_noSpeed _

/-! ## One pair, bitten and chewed -/

/-- What `_bite` makes of a pair that the slice plays, where the drift does not matter. -/
def bitten (w : Arc) (x : Option Arc × α) : Option (Option Arc × α) :=
  clip w (onWhole (ArcF.map (intoSpan w)) x)

/-- A whole that starts in an earlier cycle is compressed towards the start of that cycle, and so is moved
this much too early. -/
def lag (w z : Arc) : Time := (sam w.start - sam z.start) * (1 - (w.stop - w.start))

/-- The inner whole `z` is not heard in `w`, or it is compressed within one cycle, is heard at `t`, and ends
as late as it should. -/
def Intact (w z : Arc) (t : Time) : Prop :=
  z.stop ≤ sam w.start ∨ nextSam w.start ≤ z.start ∨
    (w.stop ≤ nextSam w.start ∧ isIn z (fromSpan w t) ∧
      (lag w z = 0 ∨ w.stop ≤ intoSpan w z.stop - lag w z))

theorem subArc_eq_ite {a b : Arc} (ha : a.start < a.stop) (hb : b.start < b.stop) :
    subArc a b = if (sect a b).start < (sect a b).stop then some (sect a b) else none := by
  split_ifs with h
  · have hin := isIn_sect.mp (⟨le_rfl, h⟩ : isIn (sect a b) (sect a b).start)
    exact subArc_of_isIn hin.1 hin.2
  · cases hc : subArc a b with
    | none => rfl
    | some c =>
      have hpos := subArc_pos ha hb hc
      rw [(subArc_some hc).1] at hpos
      exact absurd hpos h

theorem squash_eq (hw : w.start < w.stop) (z : Arc) :
    squash w z = z.map fun x => intoSpan w x - lag w z := by
  have hd := sub_pos.mpr hw
  simp only [squash, gapArc, ArcF.map, intoSpan, lag, cyclePos, one_div, div_inv_eq_mul]
  congr 1 <;> ring

theorem intoSpan_fromSpan (hw : w.start < w.stop) (t : Time) : intoSpan w (fromSpan w t) = t := by
  have hd := sub_pos.mpr hw
  simp only [intoSpan, fromSpan]
  field_simp; ring

/-- Moved into a span, an arc holds a moment if and only if it held the moment that is moved there. -/
theorem isIn_map_intoSpan (hw : w.start < w.stop) : isIn (z.map (intoSpan w)) t ↔ isIn z (fromSpan w t) := by
  have hmono := intoSpan_strictMono hw
  have ht := intoSpan_fromSpan hw t
  have hle := hmono.le_iff_le (a := z.start) (b := fromSpan w t)
  have hlt := hmono.lt_iff_lt (a := fromSpan w t) (b := z.stop)
  rw [ht] at hle hlt
  exact and_congr hle hlt

theorem bitten_some (hw : w.start < w.stop) (hz : z.start < z.stop) (v : α) :
    bitten w (some z, v) =
      if (sect w (z.map (intoSpan w))).start < (sect w (z.map (intoSpan w))).stop then
        some (some (sect w (z.map (intoSpan w))), v) else none := by
  have h := subArc_eq_ite hw (b := z.map (intoSpan w)) (intoSpan_strictMono hw hz)
  simp only [bitten, clip, onWhole, Option.map_some, subMaybeArc, h]
  split_ifs <;> rfl

theorem chewed_some (hw : isIn w t) (v : α) :
    chewed w t (some z, v) =
      if w.stop ≤ nextSam w.start ∧ isIn z (fromSpan w t) ∧
          isIn (z.map fun x => intoSpan w x - lag w z) t then
        some (some (sect w (z.map fun x => intoSpan w x - lag w z)), v) else none := by
  have hclip : (clipUp w (some (z.map fun x => intoSpan w x - lag w z), v)).bind (during t) =
      if isIn (z.map fun x => intoSpan w x - lag w z) t then
        some (some (sect w (z.map fun x => intoSpan w x - lag w z)), v) else none := by
    simp only [clipUp, Option.bind_eq_bind, Option.bind_some]
    split_ifs with hin
    · have hsect := isIn_sect.mpr ⟨hw, hin⟩
      simp [subArc_of_isIn hw hin, during, hsect]
    · cases hc : subArc w (z.map fun x => intoSpan w x - lag w z) with
      | none => rfl
      | some c =>
        have hnot : ¬ isIn c t := fun h => hin ((isIn_of_subArc hc).mp h).2
        simp [during, hnot]
  have hmoved : onWhole (squash w) (some z, v) = (some (z.map fun x => intoSpan w x - lag w z), v) := by
    rw [onWhole, Option.map_some, squash_eq (isIn_pos hw)]
  by_cases hstop : w.stop ≤ nextSam w.start
  · by_cases hz : isIn z (fromSpan w t)
    · simp [chewed, during, hstop, hz, hmoved, ← hclip]
    · simp [chewed, during, hstop, hz]
  · simp [chewed, hstop]

theorem intoSpan_sam (w : Arc) : intoSpan w (sam w.start) = w.start := by simp [intoSpan]

theorem intoSpan_nextSam (w : Arc) : intoSpan w (nextSam w.start) = w.stop := by
  simp [intoSpan, nextSam]

/-- An inner whole is heard in `w` if it is heard in the cycle of `w`. -/
theorem sect_pos_iff (hw : w.start < w.stop) (hz : z.start < z.stop) :
    (sect w (z.map (intoSpan w))).start < (sect w (z.map (intoSpan w))).stop ↔
      sam w.start < z.stop ∧ z.start < nextSam w.start := by
  have hmono := intoSpan_strictMono hw
  have h1 : w.start < intoSpan w z.stop ↔ sam w.start < z.stop := by
    rw [← hmono.lt_iff_lt (a := sam w.start), intoSpan_sam]
  have h2 : intoSpan w z.start < w.stop ↔ z.start < nextSam w.start := by
    rw [← hmono.lt_iff_lt (b := nextSam w.start), intoSpan_nextSam]
  have h3 := hmono hz
  simp only [sect, ArcF.map, max_lt_iff, lt_min_iff, h1, h2]
  tauto

theorem isIn_cycle_fromSpan (hw : isIn w t) :
    sam w.start ≤ fromSpan w t ∧ fromSpan w t < nextSam w.start := by
  have hmono := intoSpan_strictMono (isIn_pos hw)
  have ht := intoSpan_fromSpan (isIn_pos hw) t
  constructor
  · rw [← hmono.le_iff_le, ht, intoSpan_sam]; exact hw.1
  · rw [← hmono.lt_iff_lt, ht, intoSpan_nextSam]; exact hw.2

theorem lag_cases (hw : isIn w t) (hstop : w.stop ≤ nextSam w.start) (hz : isIn z (fromSpan w t)) :
    0 ≤ lag w z ∧ (lag w z = 0 ∨ intoSpan w z.start < w.start) := by
  have hcycle := isIn_cycle_fromSpan hw
  have hsam : sam z.start ≤ sam w.start := by
    by_contra hcon
    have := nextSam_le_of_sam_lt (not_le.mp hcon)
    linarith [hz.1, hcycle.2, sam_le z.start]
  have hshort : 0 ≤ 1 - (w.stop - w.start) := by
    unfold nextSam at hstop
    linarith [sam_le w.start]
  refine ⟨mul_nonneg (sub_nonneg.mpr hsam) hshort, ?_⟩
  rcases hsam.eq_or_lt with h | h
  · exact Or.inl (by rw [lag, h, sub_self, zero_mul])
  · refine Or.inr ?_
    have hlt : z.start < sam w.start := by
      have := nextSam_le_of_sam_lt h
      linarith [lt_nextSam z.start]
    calc intoSpan w z.start < intoSpan w (sam w.start) := intoSpan_strictMono (isIn_pos hw) hlt
      _ = w.start := intoSpan_sam w

/-- Within one cycle `_chew` begins a pair where `_bite` does, and ends it no later. -/
theorem sect_lag (hw : isIn w t) (hstop : w.stop ≤ nextSam w.start) (hz : isIn z (fromSpan w t)) :
    (sect w (z.map fun x => intoSpan w x - lag w z)).start = (sect w (z.map (intoSpan w))).start ∧
    (sect w (z.map fun x => intoSpan w x - lag w z)).stop ≤ (sect w (z.map (intoSpan w))).stop := by
  obtain ⟨hlag, hcases⟩ := lag_cases hw hstop hz
  simp only [sect, ArcF.map]
  refine ⟨?_, min_le_min_left _ (by linarith)⟩
  rcases hcases with h | h
  · rw [h, sub_zero]
  · rw [max_eq_left h.le, max_eq_left (by linarith)]

theorem min_eq_min_sub_iff {e x l : ℚ} (hl : 0 ≤ l) : min e x = min e (x - l) ↔ l = 0 ∨ e ≤ x - l := by
  constructor
  · intro h
    by_contra! hcon
    rw [min_eq_right hcon.2.le] at h
    have := min_le_left e x
    rcases min_choice e x with hmin | hmin
    · linarith
    · exact hcon.1 (by linarith)
  · rintro (rfl | h)
    · rw [sub_zero]
    · rw [min_eq_left h, min_eq_left (by linarith)]

theorem bitten_eq_chewed_iff (hw : isIn w t) (hz : z.start < z.stop) (v : α) :
    bitten w (some z, v) = chewed w t (some z, v) ↔ Intact w z t := by
  have hpos := isIn_pos hw
  have hcycle := isIn_cycle_fromSpan hw
  rw [bitten_some hpos hz, chewed_some hw, if_congr (sect_pos_iff hpos hz) rfl rfl]
  by_cases hin : w.stop ≤ nextSam w.start ∧ isIn z (fromSpan w t)
  · obtain ⟨hstop, hzt⟩ := hin
    obtain ⟨hlag, -⟩ := lag_cases hw hstop hzt
    have h1 : sam w.start < z.stop := hcycle.1.trans_lt hzt.2
    have h2 : z.start < nextSam w.start := hzt.1.trans_lt hcycle.2
    obtain ⟨hstart, hend⟩ := (isIn_map_intoSpan hpos).mpr hzt
    simp only [ArcF.map] at hstart hend
    have hheard : isIn (z.map fun x => intoSpan w x - lag w z) t ↔ t < intoSpan w z.stop - lag w z :=
      ⟨fun h => h.2, fun h => ⟨by simp only [ArcF.map]; linarith, h⟩⟩
    have hintact : Intact w z t ↔ lag w z = 0 ∨ w.stop ≤ intoSpan w z.stop - lag w z := by
      simp only [Intact, not_le.mpr h1, not_le.mpr h2, hstop, hzt, true_and, false_or]
    rw [if_pos ⟨h1, h2⟩, hintact]
    by_cases ht : t < intoSpan w z.stop - lag w z
    · -- both start at the same time, and it is the ends that count
      rw [if_pos ⟨hstop, hzt, hheard.mpr ht⟩, ← min_eq_min_sub_iff hlag]
      obtain ⟨hs, -⟩ := sect_lag hw hstop hzt
      simp only [Option.some.injEq, Prod.mk.injEq, and_true]
      exact ⟨fun h => congrArg ArcF.stop h, fun h => ArcF.mk.injEq .. ▸ ⟨hs.symm, h⟩⟩
    · rw [if_neg fun h => ht (hheard.mp h.2.2)]
      refine iff_of_false (Option.some_ne_none _) fun h => ht ?_
      rcases h with h | h
      · rwa [h, sub_zero]
      · exact hw.2.trans_le h
  · have hnone : ¬ (w.stop ≤ nextSam w.start ∧ isIn z (fromSpan w t) ∧
        isIn (z.map fun x => intoSpan w x - lag w z) t) := fun h => hin ⟨h.1, h.2.1⟩
    have hintact : Intact w z t ↔ ¬ (sam w.start < z.stop ∧ z.start < nextSam w.start) := by
      rw [Intact, not_and_or, not_lt, not_lt]
      tauto
    rw [if_neg hnone, hintact]
    split_ifs with h
    · exact iff_of_false not_false (not_not_intro h)
    · exact iff_of_true rfl h

/-- The width of the whole of a pair, and none if there is no pair. -/
def span (x : Option (Option Arc × α)) : Time := x.elim 0 fun y => y.1.elim 0 fun w => w.stop - w.start

/-- `_chew` never plays more of a pair than `_bite`, and no less only if it plays it the same. -/
theorem span_chewed (hw : isIn w t) (hz : z.start < z.stop) (v : α) :
    span (chewed w t (some z, v)) ≤ span (bitten w (some z, v)) ∧
      (span (bitten w (some z, v)) = span (chewed w t (some z, v)) →
        bitten w (some z, v) = chewed w t (some z, v)) := by
  have hpos := isIn_pos hw
  rw [bitten_some hpos hz, chewed_some hw]
  by_cases hin : w.stop ≤ nextSam w.start ∧ isIn z (fromSpan w t) ∧
      isIn (z.map fun x => intoSpan w x - lag w z) t
  · obtain ⟨hs, he⟩ := sect_lag hw hin.1 hin.2.1
    have hlt := isIn_pos (isIn_sect.mpr ⟨hw, hin.2.2⟩)
    rw [hs] at hlt
    rw [if_pos hin, if_pos (hlt.trans_le he)]
    simp only [span, Option.elim_some, hs]
    refine ⟨by linarith, fun h => ?_⟩
    have hstop : (sect w (z.map (intoSpan w))).stop =
        (sect w (z.map fun x => intoSpan w x - lag w z)).stop := by linarith
    have heq : sect w (z.map (intoSpan w)) = sect w (z.map fun x => intoSpan w x - lag w z) :=
      ArcF.mk.injEq .. ▸ ⟨hs.symm, hstop⟩
    rw [heq]
  · rw [if_neg hin]
    split_ifs with h
    · simp only [span, Option.elim_some, Option.elim_none]
      exact ⟨by linarith, fun h' => by linarith⟩
    · exact ⟨le_rfl, fun _ => rfl⟩

end Slices

/-! ## Where they agree -/

section Agreement

variable {n : ℤ} {q : Pattern Γ ℤ} {p : Pattern Γ (ValueMap S)} {w : Arc}

/-- The control pattern without the speeds. -/
def speedless (p : Pattern Γ (ValueMap S)) : Pattern Γ (ValueMap S) := fmap (Std.ExtTreeMap.erase · "speed") p

theorem behaviour_speedless (hn : 1 ≤ n) (hp : CutFree p) (i : ℤ) (t : Time) :
    behaviour (zoompat n (speedless p) i) m t = (behaviour (zoompat n p i) m t).map noSpeed := by
  have hplain : CutFree (speedless p) :=
    cutFree_iff.mpr ⟨steady_fmap _ hp.steady, hp.isLocal.fmap _⟩
  rw [behaviour_zoompat hn hp, behaviour_zoompat hn hplain, behaviour, speedless, act_fmap, Multiset.map_map,
    Multiset.map_map]
  rfl

theorem squeezedAt_speedless (hn : 1 ≤ n) (hp : CutFree p) (i : ℤ) (w : Arc) :
    (squeezedAt m t w (zoompat n p i)).map noSpeed = squeezedAt m t w (zoompat n (speedless p) i) := by
  have hclip : ∀ {α β : Type} (f : α → β) (x : Option Arc × α),
      clip w (x.1, f x.2) = (clip w x).map fun y => (y.1, f y.2) := by
    intro α β f x
    cases h : subMaybeArc (some w) x.1 <;> simp [clip, h]
  rw [squeezedAt, squeezedAt, behaviour_speedless hn hp, oneCycle, oneCycle, filterMap_noSpeed hclip]
  simp only [Multiset.map_map]
  rfl

/-- Where the slice repeats itself after the drift, it is bitten pair by pair. -/
theorem squeezedAt_of_repeats {v : Pattern Γ α} (hw : w.start < w.stop)
    (h : Repeats v m w (fromSpan w t)) :
    squeezedAt m t w v = (behaviour v m (fromSpan w t)).filterMap (bitten w) := by
  have hone : oneCycle w (behaviour v m (fromSpan w t)) =
      (behaviour v m (fromSpan w t)).filterMap (bitten w) := Multiset.filterMap_map ..
  rw [← hone, squeezedAt, oneCycle_eq hw, oneCycle_eq hw, h]

/-- What is heard of the slices, with the whole of the outer event for each. -/
def slicesAt (n : ℤ) (q : Pattern Γ ℤ) (p : Pattern Γ (ValueMap S)) (m : Γ) (t : Time) :
    Multiset (Arc × (Option Arc × ValueMap S)) :=
  (behaviour q m t).bind fun x => x.1.elim 0 fun w =>
    (behaviour (zoompat n p x.2) m (fromSpan w t)).map fun y => (w, y)

theorem filterMap_slicesAt (F : Arc → Option Arc × ValueMap S → Option (Option Arc × ValueMap S)) :
    (slicesAt n q p m t).filterMap (fun x => F x.1 x.2) = (behaviour q m t).bind fun x =>
      x.1.elim 0 fun w => (behaviour (zoompat n p x.2) m (fromSpan w t)).filterMap (F w) := by
  rw [slicesAt, Multiset.filterMap_bind]
  refine Multiset.bind_congr fun x _ => ?_
  cases x.1 with
  | none => rfl
  | some w =>
    rw [Option.elim_some, Option.elim_some, Multiset.filterMap_map]
    rfl

theorem sum_span (F : Arc × (Option Arc × α) → Option (Option Arc × α))
    (s : Multiset (Arc × (Option Arc × α))) :
    ((s.filterMap F).map fun y => y.1.elim 0 fun w => w.stop - w.start).sum =
      (s.map fun x => span (F x)).sum := by
  induction s using Multiset.induction with
  | empty => rfl
  | cons x s ih =>
    rw [Multiset.map_cons, Multiset.sum_cons, ← ih]
    cases h : F x with
    | none => rw [Multiset.filterMap_cons_none _ _ h, span, Option.elim_none, zero_add]
    | some y => rw [Multiset.filterMap_cons_some _ _ _ h, Multiset.map_cons, Multiset.sum_cons]; rfl

theorem filterMap_congr {ι κ : Type} {F G : ι → Option κ} {s : Multiset ι} (h : ∀ x ∈ s, F x = G x) :
    s.filterMap F = s.filterMap G := by
  induction s using Quotient.inductionOn with
  | h l => exact congrArg _ (List.filterMap_congr h)

/-- Bitten and chewed, pairs sound the same only if every one of them does. -/
theorem filterMap_bitten_iff {s : Multiset (Arc × (Option Arc × α))}
    (hs : ∀ x ∈ s, ∃ z v, x.2 = (some z, v) ∧ isIn x.1 t ∧ z.start < z.stop) :
    s.filterMap (fun x => bitten x.1 x.2) = s.filterMap (fun x => chewed x.1 t x.2) ↔
      ∀ x ∈ s, ∀ z, x.2.1 = some z → Intact x.1 z t := by
  constructor
  · intro h x hx z hz
    obtain ⟨z', v, hxz, hwt, hlt⟩ := hs x hx
    obtain rfl : z = z' := by
      rw [hxz] at hz
      exact (Option.some.inj hz).symm
    have hle : ∀ y ∈ s, span (chewed y.1 t y.2) ≤ span (bitten y.1 y.2) := by
      intro y hy
      obtain ⟨z', v', hyz, hyt, hlt'⟩ := hs y hy
      rw [hyz]
      exact (span_chewed hyt hlt' v').1
    have hsum : (s.map fun y => span (bitten y.1 y.2)).sum = (s.map fun y => span (chewed y.1 t y.2)).sum := by
      rw [← sum_span fun y => bitten y.1 y.2, ← sum_span fun y => chewed y.1 t y.2, h]
    have hspan := eq_of_sum_eq hle hsum x hx
    rw [hxz] at hspan
    exact (bitten_eq_chewed_iff hwt hlt v).mp ((span_chewed hwt hlt v).2 hspan)
  · intro h
    refine filterMap_congr fun x hx => ?_
    obtain ⟨z, v, hxz, hwt, hlt⟩ := hs x hx
    have hintact := h x hx z (by rw [hxz])
    rw [hxz]
    exact (bitten_eq_chewed_iff hwt hlt v).mpr hintact

theorem mem_slicesAt (hn : 1 ≤ n) (hp : CutFree p) {x : Arc × (Option Arc × ValueMap S)} :
    x ∈ slicesAt n q (speedless p) m t ↔ ∃ i, (some x.1, i) ∈ behaviour q m t ∧
      ∃ y ∈ behaviour (zoompat n p i) m (fromSpan x.1 t), noSpeed y = x.2 := by
  obtain ⟨w, y⟩ := x
  rw [slicesAt, Multiset.mem_bind]
  constructor
  · rintro ⟨⟨_ | w', i⟩, hi, hy⟩
    · simp at hy
    · rw [Option.elim_some, behaviour_speedless hn hp, Multiset.map_map] at hy
      obtain ⟨y', hy', heq⟩ := Multiset.mem_map.mp hy
      obtain ⟨rfl, rfl⟩ := Prod.mk.inj heq
      exact ⟨i, hi, y', hy', rfl⟩
  · rintro ⟨i, hi, y', hy', rfl⟩
    refine ⟨(some w, i), hi, ?_⟩
    rw [Option.elim_some, behaviour_speedless hn hp]
    exact Multiset.mem_map_of_mem _ (Multiset.mem_map_of_mem _ hy')

theorem slicesAt_iff (hn : 1 ≤ n) (hq : Seamless q) (hp : Seamless p) :
    (slicesAt n q (speedless p) m t).filterMap (fun x => bitten x.1 x.2) =
        (slicesAt n q (speedless p) m t).filterMap (fun x => chewed x.1 t x.2) ↔
      ∀ x ∈ behaviour q m t, ∀ w, x.1 = some w → ∀ y ∈ behaviour (zoompat n p x.2) m (fromSpan w t),
        ∀ z, y.1 = some z → Intact w z t := by
  rw [filterMap_bitten_iff fun x hx => ?_]
  · constructor
    · rintro h ⟨_, i⟩ hx w rfl y hy z hz
      exact h (w, noSpeed y) ((mem_slicesAt hn hp.cutFree).mpr ⟨i, hx, y, hy, rfl⟩) z hz
    · intro h x hx z hz
      obtain ⟨i, hi, y, hy, heq⟩ := (mem_slicesAt hn hp.cutFree).mp hx
      exact h _ hi x.1 rfl y hy z (by rw [← heq] at hz; exact hz)
  · obtain ⟨i, hi, y, hy, heq⟩ := (mem_slicesAt hn hp.cutFree).mp hx
    obtain ⟨w, hw, hwt⟩ := hq.whole_isIn hi
    obtain rfl := Option.some.inj hw
    obtain ⟨z, hz, hlt⟩ := hp.whole_zoompat hn hy
    exact ⟨z, y.2.erase "speed", by rw [← heq, noSpeed, hz], hwt, hlt⟩

/-- Of pairs that all stay intact, `_chew` makes what `_bite` makes where the slice repeats itself. -/
theorem filterMap_chewed_of_intact (hn : 1 ≤ n) (hp : Seamless p) {i : ℤ} (hw : isIn w t)
    (h : ∀ y ∈ behaviour (zoompat n p i) m (fromSpan w t), ∀ z, y.1 = some z → Intact w z t) :
    (behaviour (zoompat n (speedless p) i) m (fromSpan w t)).filterMap (chewed w t) =
      oneCycle w (behaviour (zoompat n (speedless p) i) m (fromSpan w t)) := by
  have hone : oneCycle w (behaviour (zoompat n (speedless p) i) m (fromSpan w t)) =
      (behaviour (zoompat n (speedless p) i) m (fromSpan w t)).filterMap (bitten w) :=
    Multiset.filterMap_map ..
  rw [hone, behaviour_speedless hn hp.cutFree]
  refine filterMap_congr fun y hy => ?_
  obtain ⟨y', hy', rfl⟩ := Multiset.mem_map.mp hy
  obtain ⟨z, hz, hlt⟩ := hp.whole_zoompat hn hy'
  rw [noSpeed, hz]
  exact ((bitten_eq_chewed_iff hw hlt _).mpr (h y' hy' z hz)).symm

/-- **When `_chew` works the same as `_bite`.** Where the slices repeat themselves after the drift, as they always
do for an outer event in cycle zero or as long as a cycle, they play the same apart from the speed exactly when
each inner whole that is heard stays intact. Where one outer event is heard and its inner wholes stay intact, they
play the same exactly when its slice repeats itself. -/
theorem bite_chew_iff (n : ℤ) (hn : 1 ≤ n) (ipat : Pattern Γ ℤ) (hi : Seamless ipat)
    (pat : Pattern Γ (ValueMap S)) (hp : Seamless pat) (m : Γ) (t : Time) :
    ((∀ x ∈ behaviour ipat m t, ∀ w, x.1 = some w →
        Repeats (zoompat n (speedless pat) x.2) m w (fromSpan w t)) →
      ((∀ a, isIn a t →
          (act (_bite n ipat pat) m a t).map noSpeed = (act (_chew n ipat pat) m a t).map noSpeed) ↔
        ∀ x ∈ behaviour ipat m t, ∀ w, x.1 = some w →
          ∀ y ∈ behaviour (zoompat n pat x.2) m (fromSpan w t), ∀ z, y.1 = some z → Intact w z t)) ∧
    ∀ w i, behaviour ipat m t = {(some w, i)} →
      (∀ y ∈ behaviour (zoompat n pat i) m (fromSpan w t), ∀ z, y.1 = some z → Intact w z t) →
      ((∀ a, isIn a t →
          (act (_bite n ipat pat) m a t).map noSpeed = (act (_chew n ipat pat) m a t).map noSpeed) ↔
        Repeats (zoompat n (speedless pat) i) m w (fromSpan w t)) := by
  have hbite : ∀ a, isIn a t → (act (_bite n ipat pat) m a t).map noSpeed =
      (behaviour ipat m t).bind fun x => x.1.elim 0 fun w =>
        squeezedAt m t w (zoompat n (speedless pat) x.2) := by
    intro a hat
    rw [act_bite hn hi hp hat, Multiset.map_bind]
    refine Multiset.bind_congr fun x _ => ?_
    cases x.1 with
    | none => rfl
    | some w => exact squeezedAt_speedless hn hp.cutFree x.2 w
  have hchew : ∀ a, isIn a t → (act (_chew n ipat pat) m a t).map noSpeed =
      (behaviour ipat m t).bind fun x => x.1.elim 0 fun w =>
        (behaviour (zoompat n (speedless pat) x.2) m (fromSpan w t)).filterMap (chewed w t) := by
    intro a hat
    simp only [act_chew hn hi hp hat, behaviour_speedless hn hp.cutFree]
  have hiff : (∀ a, isIn a t →
      (act (_bite n ipat pat) m a t).map noSpeed = (act (_chew n ipat pat) m a t).map noSpeed) ↔ _ = _ :=
    ⟨fun h => (hbite _ (isIn_now t)).symm.trans ((h _ (isIn_now t)).trans (hchew _ (isIn_now t))),
      fun h a hat => (hbite a hat).trans (h.trans (hchew a hat).symm)⟩
  refine ⟨fun hrep => hiff.trans ?_, fun w i hx hintact => hiff.trans ?_⟩
  · rw [← slicesAt_iff hn hi hp, filterMap_slicesAt bitten, filterMap_slicesAt fun w => chewed w t]
    have hbitten : ((behaviour ipat m t).bind fun x => x.1.elim 0 fun w =>
        squeezedAt m t w (zoompat n (speedless pat) x.2)) =
          (behaviour ipat m t).bind fun x => x.1.elim 0 fun w =>
            (behaviour (zoompat n (speedless pat) x.2) m (fromSpan w t)).filterMap (bitten w) := by
      refine Multiset.bind_congr fun x hx => ?_
      obtain ⟨w, hw, hwt⟩ := hi.whole_isIn hx
      rw [hw]
      exact squeezedAt_of_repeats (isIn_pos hwt) (hrep x hx w hw)
    rw [hbitten]
  · obtain ⟨w', hw', hwt⟩ := hi.whole_isIn (hx ▸ Multiset.mem_singleton_self _)
    obtain rfl := Option.some.inj hw'
    have hpos := isIn_pos hwt
    rw [hx, Multiset.singleton_bind, Multiset.singleton_bind, Option.elim_some, Option.elim_some,
      filterMap_chewed_of_intact hn hp hwt hintact, squeezedAt, oneCycle_eq hpos, oneCycle_eq hpos]
    exact (Multiset.map_injective (onWhole_injective (intoSpan_strictMono hpos))).eq_iff

end Agreement

/-- Slice 0 for the first half of each cycle, slice 1 for the second half. -/
def bothSlices : Pattern Unit ℤ := fastCat [Pattern.pure 0, Pattern.pure 1]

/-- One note for each cycle. -/
def wholeNote : Pattern Unit (ValueMap Unit) := Pattern.pure (Map.singleton "n" (.VF 0))

theorem seamless_bothSlices : Seamless bothSlices :=
  (regular_fastCat (by simp [regular_pure])).seamless

theorem seamless_wholeNote : Seamless wholeNote := (regular_pure _).seamless

/-- Two notes for each cycle. -/
def halfNotes : Pattern Unit (ValueMap Unit) :=
  fastCat [Pattern.pure (Map.singleton "n" (.VF 0)), Pattern.pure (Map.singleton "n" (.VF 1))]

theorem seamless_halfNotes : Seamless halfNotes :=
  (regular_fastCat (by simp [regular_pure])).seamless

/-- A note that fills its slice is played by both. -/
theorem bite_chew_iff_halfNotes :
    (∀ a, isIn a (3 / 4) → (act (_bite 2 bothSlices halfNotes) () a (3 / 4)).map noSpeed =
      (act (_chew 2 bothSlices halfNotes) () a (3 / 4)).map noSpeed) ∧
    Repeats (zoompat 2 (speedless halfNotes) 1) () ⟨1 / 2, 1⟩ (fromSpan ⟨1 / 2, 1⟩ (3 / 4)) := by
  have hslice : behaviour bothSlices () (3 / 4) = {(some ⟨1 / 2, 1⟩, 1)} := by with_unfolding_all decide
  have hnote : (behaviour (zoompat 2 halfNotes 1) () (fromSpan ⟨1 / 2, 1⟩ (3 / 4))).map Prod.fst =
      {some ⟨0, 1⟩} := by with_unfolding_all decide
  have hintact : ∀ y ∈ behaviour (zoompat 2 halfNotes 1) () (fromSpan ⟨1 / 2, 1⟩ (3 / 4)), ∀ z,
      y.1 = some z → Intact ⟨1 / 2, 1⟩ z (3 / 4) := by
    intro y hy z hz
    have hmem := Multiset.mem_map_of_mem Prod.fst hy
    rw [hnote, Multiset.mem_singleton, hz] at hmem
    obtain rfl := Option.some.inj hmem
    unfold Intact isIn lag
    with_unfolding_all decide
  have hboth := (bite_chew_iff 2 (by norm_num) bothSlices seamless_bothSlices halfNotes seamless_halfNotes ()
    (3 / 4)).1 (fun x hx w hw => repeats_of_drift (by
      rw [hslice, Multiset.mem_singleton] at hx
      subst hx
      obtain rfl := Option.some.inj hw
      with_unfolding_all decide) _ _ _)
  have hsame := hboth.mpr fun x hx w hw => by
    rw [hslice, Multiset.mem_singleton] at hx
    subst hx
    obtain rfl := Option.some.inj hw
    exact hintact
  exact ⟨hsame, ((bite_chew_iff 2 (by norm_num) bothSlices seamless_bothSlices halfNotes seamless_halfNotes ()
    (3 / 4)).2 ⟨1 / 2, 1⟩ 1 hslice hintact).mp hsame⟩

/-- The second half of the note starts before its slice. `_bite` plays it, and `_chew` does not. -/
theorem chew_drops_slice :
    Seamless bothSlices ∧ Seamless wholeNote ∧
    (act (_bite 2 bothSlices wholeNote) () ⟨0, 1⟩ (3 / 4)).map Prod.fst = {some ⟨1 / 2, 1⟩} ∧
    (act (_chew 2 bothSlices wholeNote) () ⟨0, 1⟩ (3 / 4)).map Prod.fst = 0 ∧
    ¬ (act (_bite 2 bothSlices wholeNote) () ⟨0, 1⟩ (3 / 4)).map noSpeed =
      (act (_chew 2 bothSlices wholeNote) () ⟨0, 1⟩ (3 / 4)).map noSpeed := by
  have hbite : (act (_bite 2 bothSlices wholeNote) () ⟨0, 1⟩ (3 / 4)).map Prod.fst =
      {some ⟨1 / 2, 1⟩} := by with_unfolding_all decide
  have hchew : (act (_chew 2 bothSlices wholeNote) () ⟨0, 1⟩ (3 / 4)).map Prod.fst = 0 := by
    with_unfolding_all decide
  refine ⟨seamless_bothSlices, seamless_wholeNote, hbite, hchew, fun h => ?_⟩
  have hcard := congrArg Multiset.card h
  rw [Multiset.card_map, Multiset.card_map, ← Multiset.card_map Prod.fst, hbite,
    ← Multiset.card_map Prod.fst, hchew] at hcard
  simp at hcard

end Tidal
