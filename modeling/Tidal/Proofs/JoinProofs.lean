import Tidal.Warp
import Tidal.Proofs.BehaviourProofs

/-!
# Proofs: the behaviour of the applicative operators and the joins

Each of them queries one pattern and then, for every event it gets, another pattern over the whole or
the part of that event. At one moment this is `TaggedBag.bind`, with the wholes combined by `meet` or
taken from one side.
-/

namespace Tidal

open EventF Pattern

variable {Γ α β : Type} {m : Γ} {a : Arc} {t : Time}

/-! ## Pairs of events -/

theorem withFXBoth_some {ef : Event (α → β)} {ex : Event α} {e : Event β} :
    withFXBoth ef ex = some e ↔ ∃ w' p', subMaybeArc ef.whole ex.whole = some w' ∧
      subArc ef.part ex.part = some p' ∧
      e = ⟨combineContexts [ef.context, ex.context], w', p', ef.value ex.value⟩ := by
  simp only [withFXBoth, Option.bind_eq_bind, Option.bind_eq_some_iff, Option.pure_def, Option.some.injEq]
  constructor
  · rintro ⟨w', hw, p', hp, rfl⟩; exact ⟨w', p', hw, hp, rfl⟩
  · rintro ⟨w', p', hw, hp, rfl⟩; exact ⟨w', hw, p', hp, rfl⟩

theorem withFXWhole_some {w : Option Arc} {ef : Event (α → β)} {ex : Event α} {e : Event β} :
    withFXWhole w ef ex = some e ↔ ∃ p', subArc ef.part ex.part = some p' ∧
      e = ⟨combineContexts [ef.context, ex.context], w, p', ef.value ex.value⟩ := by
  simp only [withFXWhole, Option.bind_eq_bind, Option.bind_eq_some_iff, Option.pure_def,
    Option.some.injEq]
  exact exists_congr fun p' => and_congr_right fun _ => eq_comm

theorem munge_some {oc : Context} {ow : Option Arc} {op : Arc} {ie e : Event α} :
    munge oc ow op ie = some e ↔ ∃ w' p', subMaybeArc ow ie.whole = some w' ∧
      subArc op ie.part = some p' ∧ e = ⟨combineContexts [ie.context, oc], w', p', ie.value⟩ := by
  simp only [munge, Option.bind_eq_bind, Option.bind_eq_some_iff, Option.pure_def, Option.some.injEq]
  constructor
  · rintro ⟨w', hw, p', hp, rfl⟩; exact ⟨w', p', hw, hp, rfl⟩
  · rintro ⟨w', p', hw, hp, rfl⟩; exact ⟨w', hw, p', hp, rfl⟩

theorem mungeInner_some {q : Arc} {oc : Context} {ie e : Event α} :
    mungeInner q oc ie = some e ↔ ∃ p p', subArc q ie.part = some p ∧ subArc p q = some p' ∧
      e = ⟨combineContexts [ie.context, oc], ie.whole, p', ie.value⟩ := by
  simp only [mungeInner, Option.bind_eq_bind, Option.bind_eq_some_iff, Option.pure_def,
    Option.some.injEq]
  constructor
  · rintro ⟨p, hp, p', hp', rfl⟩; exact ⟨p, p', hp, hp', rfl⟩
  · rintro ⟨p, p', hp, hp', rfl⟩; exact ⟨p, hp, p', hp', rfl⟩

/-- Applying one event to the answers `es` of the other pattern. -/
theorem activeIn_withFXBoth {ef : Event (α → β)} {es : List (Event α)}
    (hf : isIn ef.part t → WholeIn ef.whole t)
    (hx : ∀ ex ∈ es, isIn ex.part t → WholeIn ex.whole t) :
    activeIn (es.filterMap (withFXBoth ef)) t =
      if isIn ef.part t then
        (activeIn es t).map fun y => (meet ef.whole y.1, ef.value y.2) else 0 := by
  refine activeIn_munge (fun ex e he => ?_) fun hop ex hex ht => ?_
  · obtain ⟨w', p', _, hp', rfl⟩ := withFXBoth_some.mp he
    exact ⟨p', hp', rfl, rfl⟩
  · exact ⟨_, withFXBoth_some.mpr ⟨_, _, subMaybeArc_of_wholeIn (hf hop) (hx ex hex ht),
      subArc_of_isIn hop ht, rfl⟩, rfl⟩

theorem activeIn_withFXWhole {w : Option Arc} {ef : Event (α → β)} {es : List (Event α)} :
    activeIn (es.filterMap (withFXWhole w ef)) t =
      if isIn ef.part t then (activeIn es t).map fun y => (w, ef.value y.2) else 0 := by
  refine activeIn_munge (W := fun _ => w) (fun ex e he => ?_) fun hop ex hex ht => ?_
  · obtain ⟨p', hp', rfl⟩ := withFXWhole_some.mp he
    exact ⟨p', hp', rfl, rfl⟩
  · exact ⟨_, withFXWhole_some.mpr ⟨_, subArc_of_isIn hop ht, rfl⟩, rfl⟩

theorem activeIn_withFXWhole_right {w : Option Arc} {ex : Event α} {es : List (Event (α → β))} :
    activeIn (es.filterMap fun ef => withFXWhole w ef ex) t =
      if isIn ex.part t then (activeIn es t).map fun y => (w, y.2 ex.value) else 0 := by
  refine activeIn_munge (W := fun _ => w) (V := fun f : α → β => f ex.value) (fun ef e he => ?_)
    fun hop ef hef ht => ?_
  · obtain ⟨p', hp', rfl⟩ := withFXWhole_some.mp he
    exact ⟨p', subArc_comm .. ▸ hp', rfl, rfl⟩
  · exact ⟨_, withFXWhole_some.mpr ⟨_, subArc_of_isIn ht hop, rfl⟩, rfl⟩

theorem activeIn_joinMunge {oc : Context} {ow : Option Arc} {op : Arc} {es : List (Event α)}
    (ho : isIn op t → WholeIn ow t) (hi : ∀ ie ∈ es, isIn ie.part t → WholeIn ie.whole t) :
    activeIn (es.filterMap (munge oc ow op)) t =
      if isIn op t then (activeIn es t).map fun y => (meet ow y.1, y.2) else 0 := by
  refine activeIn_munge (V := id) (fun ie e he => ?_) fun hop ie hie ht => ?_
  · obtain ⟨w', p', _, hp', rfl⟩ := munge_some.mp he
    exact ⟨p', hp', rfl, rfl⟩
  · exact ⟨_, munge_some.mpr ⟨_, _, subMaybeArc_of_wholeIn (ho hop) (hi ie hie ht),
      subArc_of_isIn hop ht, rfl⟩, rfl⟩

theorem activeIn_mungeInner {q : Arc} {oc : Context} {es : List (Event α)} :
    activeIn (es.filterMap (mungeInner q oc)) t = if isIn q t then activeIn es t else 0 := by
  have h : activeIn (es.filterMap (mungeInner q oc)) t =
      if isIn q t then (activeIn es t).map fun x => (id x.1, id x.2) else 0 := by
    refine activeIn_munge (W := id) (V := id) (fun ie e he => ?_) fun hop ie hie ht => ?_
    · obtain ⟨p, p', hp, hp', rfl⟩ := mungeInner_some.mp he
      refine ⟨p', ?_, rfl, rfl⟩
      -- the second intersection with the query changes nothing
      obtain ⟨rfl, hle⟩ := subArc_some hp
      obtain ⟨rfl, _⟩ := subArc_some hp'
      rw [hp, sect_comm (sect q ie.part) q, ← sect_assoc]
      simp [sect]
    · have h1 := subArc_of_isIn hop ht
      have h2 := subArc_of_isIn (isIn_sect.mpr ⟨hop, ht⟩) hop
      exact ⟨_, mungeInner_some.mpr ⟨_, _, h1, h2, rfl⟩, rfl⟩
  simpa using h

/-! ## Applicative -/

theorem reduceOption_flatMap_map {ι κ δ : Type} (l : List ι) (L : ι → List κ) (f : ι → κ → Option δ) :
    (l.flatMap fun i => (L i).map (f i)).reduceOption = l.flatMap fun i => (L i).filterMap (f i) := by
  simp only [List.reduceOption, List.filterMap_flatMap, List.filterMap_map]
  rfl

theorem Coherent.whole_eq {p : Pattern Γ α} (h : Coherent p) (ha : a.start ≤ a.stop) {e : Event α}
    (he : e ∈ p.query ⟨a, m⟩) : ∃ w, e.whole = some w ∧ w.start ≤ w.stop ∧ Within e.part w := by
  obtain ⟨w, hw⟩ := isDigital_iff.mp (h.digital a m ha e he)
  have hin := h.inWhole a m ha e he w hw
  exact ⟨w, hw, hin.1.trans (hin.2.1.trans hin.2.2), hin⟩

/-- The query of `<*>` on coherent patterns: only digital events meet. -/
theorem ap_query {pf : Pattern Γ (α → β)} {px : Pattern Γ α} (hf : Coherent pf) (hx : Coherent px)
    (ha : a.start ≤ a.stop) :
    (ap pf px).query ⟨a, m⟩ = (pf.query ⟨a, m⟩).flatMap fun ef =>
      (px.query ⟨ef.wholeOrPart, m⟩).filterMap (withFXBoth ef) := by
  simp only [ap, applyPatToPatBoth, pattern, hx.filterAnalog_query m ha, List.flatMap_nil,
    List.append_nil]
  rw [← reduceOption_flatMap_map]
  congr 1
  refine List.flatMap_congr fun ef hef => ?_
  obtain ⟨w, hw, hle, _⟩ := hf.whole_eq ha hef
  simp only [hw, wholeOrPart, Option.getD_some, hx.filterDigital_query m hle]

theorem act_ap {pf : Pattern Γ (α → β)} {px : Pattern Γ α} (hf : Coherent pf) (hx : Coherent px)
    (hat : isIn a t) :
    act (ap pf px) m a t = TaggedBag.ap meet (act pf m a t) (behaviour px m t) := by
  have hle := (isIn_pos hat).le
  rw [act, ap_query hf hx hle, TaggedBag.ap, TaggedBag.bind]
  refine activeIn_flatMap fun ef hef => ?_
  obtain ⟨w, hw, hwle, hin⟩ := hf.whole_eq hle hef
  simp only [wholeOrPart, hw, Option.getD_some, Multiset.map_map]
  rw [activeIn_withFXBoth (fun ht => hf.wholeIn hle hef ht) fun ex hex ht => hx.wholeIn hwle hex ht, hw]
  split_ifs with ht
  · rw [← hx.act_eq m (hin.isIn ht)]; rfl
  · rfl

theorem act_apLeft {pf : Pattern Γ (α → β)} {px : Pattern Γ α} (hf : Coherent pf) (hx : Coherent px)
    (hat : isIn a t) :
    act (apLeft pf px) m a t = TaggedBag.ap (fun w _ => w) (act pf m a t) (behaviour px m t) := by
  have hle := (isIn_pos hat).le
  rw [act, apLeft, keepTactus, applyPatToPatLeft, pattern, TaggedBag.ap, TaggedBag.bind]
  simp only [reduceOption_flatMap_map]
  refine activeIn_flatMap fun ef hef => ?_
  obtain ⟨w, hw, hwle, hin⟩ := hf.whole_eq hle hef
  simp only [wholeOrPart, hw, Option.getD_some, Multiset.map_map]
  rw [activeIn_withFXWhole]
  split_ifs with ht
  · rw [← hx.act_eq m (hin.isIn ht)]; rfl
  · rfl

theorem act_apRight {pf : Pattern Γ (α → β)} {px : Pattern Γ α} (hf : Coherent pf) (hx : Coherent px)
    (hat : isIn a t) :
    act (apRight pf px) m a t = TaggedBag.bind (fun w _ => w) (act px m a t) fun x =>
      (behaviour pf m t).map fun f => (f.1, f.2 x) := by
  have hle := (isIn_pos hat).le
  rw [act, apRight, keepTactus, applyPatToPatRight, pattern, TaggedBag.bind]
  simp only [reduceOption_flatMap_map]
  refine activeIn_flatMap fun ex hex => ?_
  obtain ⟨w, hw, hwle, hin⟩ := hx.whole_eq hle hex
  simp only [wholeOrPart, hw, Option.getD_some, Multiset.map_map]
  rw [activeIn_withFXWhole_right]
  split_ifs with ht
  · rw [← hf.act_eq m (hin.isIn ht)]; rfl
  · rfl

/-! ## Joins -/

theorem Coherent.settled {p : Pattern Γ α} (h : Coherent p) : Settled p := ⟨h.digital, h.inWhole, h.cut⟩

/-- The inner patterns may answer outside of the part that they are asked about. -/
theorem act_unwrap_settled {pp : Pattern Γ (Pattern Γ α)} (hp : Coherent pp) (hv : Values Settled pp)
    (hat : isIn a t) :
    act (unwrap pp) m a t = TaggedBag.bind meet (act pp m a t) fun v => behaviour v m t := by
  have hle := (isIn_pos hat).le
  rw [act, unwrap, TaggedBag.bind]
  refine activeIn_flatMap fun e he => ?_
  have hve := hv a m hle e he
  have hple := (hp.inQuery a m hle e he).2.1
  rw [activeIn_joinMunge (fun ht => hp.wholeIn hle he ht) fun ie hie ht w hw =>
    (hve.inWhole e.part m hple ie hie w hw).isIn ht]
  split_ifs with ht
  · rw [← hve.steady.act_eq m ht]; rfl
  · rfl

theorem act_unwrap {pp : Pattern Γ (Pattern Γ α)} (hp : Coherent pp) (hv : Values Coherent pp)
    (hat : isIn a t) :
    act (unwrap pp) m a t = TaggedBag.bind meet (act pp m a t) fun v => behaviour v m t :=
  act_unwrap_settled hp (fun a m ha e he => (hv a m ha e he).settled) hat

theorem Values.fmap {P : β → Prop} {f : α → β} (h : ∀ x, P (f x)) (p : Pattern Γ α) :
    Values P (fmap f p) := by
  intro a m _ e he
  obtain ⟨e', _, rfl⟩ := List.mem_map.mp he
  exact h _

theorem coherent_fmap (f : α → β) {p : Pattern Γ α} (h : Coherent p) : Coherent (fmap f p) := by
  refine { digital := ?_, inQuery := ?_, inWhole := ?_, cut := ?_ }
  · intro a m ha e he
    obtain ⟨e', he', rfl⟩ := List.mem_map.mp he
    exact h.digital a m ha e' he'
  · intro a m ha e he
    obtain ⟨e', he', rfl⟩ := List.mem_map.mp he
    exact h.inQuery a m ha e' he'
  · intro a m ha e he
    obtain ⟨e', he', rfl⟩ := List.mem_map.mp he
    exact h.inWhole a m ha e' he'
  · intro a b m t ha hb
    rw [act_fmap, act_fmap, h.cut a b m t ha hb]

theorem act_bind_settled {p : Pattern Γ α} {f : α → Pattern Γ β} (hp : Coherent p)
    (hf : ∀ x, Settled (f x)) (hat : isIn a t) :
    act (bind p f) m a t = TaggedBag.bind meet (act p m a t) fun x => behaviour (f x) m t := by
  have hv : Values Settled (fmap f p) := Values.fmap hf p
  rw [show bind p f = unwrap (fmap f p) from rfl, act_unwrap_settled (coherent_fmap f hp) hv hat, act_fmap,
    TaggedBag.bind_map_left]

theorem act_bind {p : Pattern Γ α} {f : α → Pattern Γ β} (hp : Coherent p)
    (hf : ∀ x, Coherent (f x)) (hat : isIn a t) :
    act (bind p f) m a t = TaggedBag.bind meet (act p m a t) fun x => behaviour (f x) m t :=
  act_bind_settled hp (fun x => (hf x).settled) hat

/-- What the inner patterns have to answer when they are asked about the parts of the outer events. -/
theorem act_innerJoin_of {pp : Pattern Γ (Pattern Γ α)} (hat : isIn a t)
    (h : ∀ e ∈ pp.query ⟨a, m⟩, act e.value m e.part t =
      if isIn e.part t then behaviour e.value m t else 0) :
    act (innerJoin pp) m a t =
      TaggedBag.bind (fun _ w => w) (act pp m a t) fun v => behaviour v m t := by
  rw [act, innerJoin, TaggedBag.bind]
  refine activeIn_flatMap fun e he => ?_
  rw [activeIn_mungeInner, if_pos hat]
  refine (h e he).trans ?_
  simp only [Multiset.map_id']

theorem act_innerJoin {pp : Pattern Γ (Pattern Γ α)} (hp : Coherent pp) (hv : Values Coherent pp)
    (hat : isIn a t) :
    act (innerJoin pp) m a t =
      TaggedBag.bind (fun _ w => w) (act pp m a t) fun v => behaviour v m t := by
  have hle := (isIn_pos hat).le
  refine act_innerJoin_of hat fun e he => ?_
  have hve := hv a m hle e he
  split_ifs with ht
  · exact hve.act_eq m ht
  · exact activeIn_eq_zero_of_within
      (fun ie hie => hve.inQuery e.part m (hp.inQuery a m hle e he).2.1 ie hie) ht

/-- What an outer event of `squeezeJoin` contributes at a moment of its part. -/
theorem activeIn_squeezeEvent {e : Event (Pattern Γ α)} {w : Arc} (hw : e.whole = some w)
    (hin : Within e.part w) (hv : Coherent (focusArc w e.value)) (b : Arc) :
    activeIn (squeezeEvent ⟨b, m⟩ e) t =
      if isIn e.part t then
        (behaviour (focusArc w e.value) m t).map fun y => (meet (some w) y.1, y.2) else 0 := by
  have hle := hin.2.1
  simp only [squeezeEvent, wholeOrPart, hw, Option.getD_some]
  rw [activeIn_joinMunge (fun ht w' hw' => by obtain rfl := Option.some.inj hw'; exact hin.isIn ht)
    fun ie hie ht => hv.wholeIn hle hie ht]
  split_ifs with ht
  · rw [← hv.act_eq m ht]; rfl
  · rfl

/-- The inner events of a `(whole, pattern)` pair whose pattern is focussed on the whole. -/
def squeezed (m : Γ) (t : Time) (x : Option Arc × Pattern Γ α) : Multiset (Option Arc × α) :=
  (behaviour (focusArc (x.1.getD ⟨t, t⟩) x.2) m t).map fun y => (meet x.1 y.1, y.2)

theorem act_squeezeJoin {pp : Pattern Γ (Pattern Γ α)} (hp : Coherent pp)
    (hv : ∀ a m, a.start ≤ a.stop → ∀ e ∈ pp.query ⟨a, m⟩, ∀ w, e.whole = some w →
      Coherent (focusArc w e.value)) (hat : isIn a t) :
    act (squeezeJoin pp) m a t = (act pp m a t).bind (squeezed m t) := by
  have hle := (isIn_pos hat).le
  refine activeIn_flatMap fun e he => ?_
  obtain ⟨w, hw, _, hin⟩ := hp.whole_eq hle he
  rw [activeIn_squeezeEvent hw hin (hv a m hle e he w hw) a]
  simp only [squeezed, hw, Option.getD_some]

/-- The inner events of a `(whole, pattern)` pair whose pattern starts its cycle with the whole. -/
def triggered (m : Γ) (t : Time) (x : Option Arc × Pattern Γ α) : Multiset (Option Arc × α) :=
  (behaviour (rotR (cyclePos (x.1.getD ⟨t, t⟩).start) x.2) m t).map fun y => (meet x.1 y.1, y.2)

theorem trigJoin_query {pp : Pattern Γ (Pattern Γ α)} (hp : Coherent pp) (ha : a.start ≤ a.stop) :
    (trigJoin pp).query ⟨a, m⟩ = (pp.query ⟨a, m⟩).flatMap fun e =>
      ((rotR (cyclePos e.wholeOrPart.start) e.value).query ⟨a, m⟩).filterMap
        (munge e.context e.whole e.part) := by
  simp only [trigJoin, _trigJoin, pattern, hp.filterDigital_query m ha]
  rw [← reduceOption_flatMap_map]
  congr 1
  refine List.flatMap_congr fun e he => ?_
  obtain ⟨w, hw, _⟩ := hp.whole_eq ha he
  simp [trigEvent, wholeOrPart, hw]

theorem act_trigJoin {pp : Pattern Γ (Pattern Γ α)} (hp : Coherent pp)
    (hv : ∀ a m, a.start ≤ a.stop → ∀ e ∈ pp.query ⟨a, m⟩, ∀ s, Coherent (rotR s e.value))
    (hat : isIn a t) :
    act (trigJoin pp) m a t = (act pp m a t).bind (triggered m t) := by
  have hle := (isIn_pos hat).le
  rw [act, trigJoin_query hp hle]
  refine activeIn_flatMap fun e he => ?_
  obtain ⟨w, hw, _, _⟩ := hp.whole_eq hle he
  have hve := hv a m hle e he (cyclePos w.start)
  simp only [wholeOrPart, hw, Option.getD_some, triggered]
  rw [← hw, activeIn_joinMunge (fun ht => hp.wholeIn hle he ht) fun ie hie ht => hve.wholeIn hle hie ht,
    ← hve.act_eq m hat]
  rfl

end Tidal
