import Tidal.Active
import Tidal.Proofs.TimeProofs

/-!
# Proofs: events at one moment

How the list operations that the combinators are made of (mapping, filtering, concatenating the answers
of several queries) act on what is active at one moment.
-/

namespace Tidal

open EventF Pattern

variable {Γ α β : Type}

theorem mem_activeIn {es : List (Event α)} {t : Time} {x : Option Arc × α} :
    x ∈ activeIn es t ↔ ∃ e ∈ es, isIn e.part t ∧ (e.whole, e.value) = x :=
  HalfOpen.mem_pick

@[simp] theorem activeIn_append (es es' : List (Event α)) (t : Time) :
    activeIn (es ++ es') t = activeIn es t + activeIn es' t :=
  HalfOpen.pick_append es es'

theorem activeIn_cons (e : Event α) (es : List (Event α)) (t : Time) :
    activeIn (e :: es) t = activeIn [e] t + activeIn es t := activeIn_append [e] es t

theorem activeIn_eq_zero {es : List (Event α)} {t : Time} (h : ∀ e ∈ es, ¬ isIn e.part t) :
    activeIn es t = 0 := HalfOpen.pick_eq_zero h

theorem activeIn_singleton (e : Event α) (t : Time) :
    activeIn [e] t = if isIn e.part t then {(e.whole, e.value)} else 0 := by
  by_cases h : isIn e.part t <;> simp [activeIn, h]

theorem activeIn_map_value (f : α → β) (es : List (Event α)) (t : Time) :
    activeIn (es.map (EventF.map f)) t = (activeIn es t).map fun x => (x.1, f x.2) :=
  HalfOpen.pick_map (fun _ _ => Iff.rfl) fun _ _ _ => rfl

/-- Moving the arcs of the events: what is active at `t'` is what was active at `t`, with its wholes
moved. -/
theorem activeIn_mapArc {f : Arc → Arc} {es : List (Event α)} {t t' : Time}
    (h : ∀ e ∈ es, isIn (f e.part) t' ↔ isIn e.part t) :
    activeIn (es.map (mapArc f)) t' = (activeIn es t).map (onWhole f) :=
  HalfOpen.pick_map h fun _ _ _ => rfl

theorem activeIn_filter (q : Event α → Bool) (p : Option Arc × α → Bool) {es : List (Event α)}
    {t : Time} (h : ∀ e ∈ es, isIn e.part t → q e = p (e.whole, e.value)) :
    activeIn (es.filter q) t = (activeIn es t).filter fun x => p x :=
  HalfOpen.pick_filter q p h

/-- A concatenation of answers, one list for each outer event, in force only while the outer event
is. -/
theorem activeIn_flatMap {f : Event α → List (Event β)}
    {G : Option Arc × α → Multiset (Option Arc × β)} {es : List (Event α)} {t : Time}
    (h : ∀ e ∈ es, activeIn (f e) t = if isIn e.part t then G (e.whole, e.value) else 0) :
    activeIn (es.flatMap f) t = (activeIn es t).bind G :=
  HalfOpen.pick_flatMap h

theorem activeIn_filterMap {f : Event α → Option (Event β)}
    {g : Option Arc × α → Option (Option Arc × β)} {es : List (Event α)} {t : Time}
    (hnone : ∀ e ∈ es, f e = none → isIn e.part t → g (e.whole, e.value) = none)
    (hsome : ∀ e ∈ es, ∀ e', f e = some e' → (isIn e'.part t ↔ isIn e.part t) ∧
      (isIn e.part t → g (e.whole, e.value) = some (e'.whole, e'.value))) :
    activeIn (es.filterMap f) t = (activeIn es t).filterMap g :=
  HalfOpen.pick_filterMap hnone hsome

/-! ## Whole and part -/

theorem isDigital_iff {e : Event α} : e.isDigital ↔ ∃ w, e.whole = some w := by
  cases h : e.whole <;> simp [isDigital, isAnalog, h]

theorem meet_assoc (a b c : Option Arc) : meet (meet a b) c = meet a (meet b c) := by
  cases a <;> cases b <;> cases c <;> simp [meet, sect_assoc]

theorem meet_comm (a b : Option Arc) : meet a b = meet b a := by
  cases a <;> cases b <;> simp [meet, sect_comm]

/-- The whole of an event, if it has one, holds `t`. -/
def WholeIn (w : Option Arc) (t : Time) : Prop := ∀ a, w = some a → isIn a t

theorem Within.isIn {a b : Arc} (h : Within a b) {t : Time} (ht : isIn a t) : isIn b t :=
  ⟨h.1.trans ht.1, ht.2.trans_le h.2.2⟩

theorem subMaybeArc_of_wholeIn {a b : Option Arc} {t : Time} (ha : WholeIn a t) (hb : WholeIn b t) :
    subMaybeArc a b = some (meet a b) := by
  cases a with
  | none => rfl
  | some a =>
    cases b with
    | none => rfl
    | some b => simp [subMaybeArc, meet, subArc_of_isIn (ha a rfl) (hb b rfl)]

/-- Inner events cut to an outer event, as every join does it: at `t` inside the outer part they are the
inner events of that moment with their wholes combined, outside of it there is none. -/
theorem activeIn_munge {f : Event α → Option (Event β)} {op : Arc} {W : Option Arc → Option Arc}
    {V : α → β} {es : List (Event α)} {t : Time}
    (hf : ∀ e e', f e = some e' → ∃ p', subArc op e.part = some p' ∧ e'.part = p' ∧ e'.value = V e.value)
    (hW : isIn op t → ∀ e ∈ es, isIn e.part t → ∃ e', f e = some e' ∧ e'.whole = W e.whole) :
    activeIn (es.filterMap f) t =
      if isIn op t then (activeIn es t).map fun x => (W x.1, V x.2) else 0 := by
  split_ifs with hop
  · rw [← Multiset.filterMap_eq_map]
    refine activeIn_filterMap (fun e he hnone ht => ?_) fun e he e' he' => ?_
    · obtain ⟨e', he', _⟩ := hW hop e he ht
      rw [hnone] at he'; cases he'
    · obtain ⟨p', hp', hpart, hval⟩ := hf e e' he'
      refine ⟨by rw [hpart, isIn_of_subArc hp']; tauto, fun ht => ?_⟩
      obtain ⟨e'', he'', hwh⟩ := hW hop e he ht
      obtain rfl := Option.some.inj (he'.symm.trans he'')
      rw [Function.comp, hwh, hval]
  · refine activeIn_eq_zero fun e' he' ht => ?_
    obtain ⟨e, _, he⟩ := List.mem_filterMap.mp he'
    obtain ⟨p', hp', hpart, _⟩ := hf e e' he
    exact hop ((isIn_of_subArc hp').mp (hpart ▸ ht)).1

/-! ## Cutting a query -/

/-- A query that is cut at cycle boundaries: at `t` only the piece in the cycle of `t` answers. -/
theorem activeIn_arcCyclesZW {g : Arc → List (Event α)} {a : Arc} {t : Time} (hat : isIn a t)
    (hg : ∀ b ∈ arcCyclesZW a, ¬ isIn b t → activeIn (g b) t = 0) :
    activeIn ((arcCyclesZW a).flatMap g) t = activeIn (g (sect a (timeToCycleArc t))) t := by
  obtain ⟨l₁, l₂, heq, hno⟩ := arcCyclesZW_split hat
  have hzero : ∀ l : List Arc, (∀ b ∈ l, b ∈ l₁ ++ l₂) → activeIn (l.flatMap g) t = 0 := by
    intro l
    induction l with
    | nil => intro _; rfl
    | cons b l ih =>
      intro hl
      have hb := hl b (List.mem_cons_self ..)
      have hmem : b ∈ arcCyclesZW a := by
        rw [heq]
        rcases List.mem_append.mp hb with h | h
        · exact List.mem_append_left _ h
        · exact List.mem_append_right _ (List.mem_cons_of_mem _ h)
      rw [List.flatMap_cons, activeIn_append, hg b hmem (hno b hb),
        ih fun c hc => hl c (List.mem_cons_of_mem _ hc), add_zero]
  rw [heq, List.flatMap_append, List.flatMap_cons, activeIn_append, activeIn_append,
    hzero l₁ fun b hb => List.mem_append_left _ hb, hzero l₂ fun b hb => List.mem_append_right _ hb]
  simp

/-- The piece of a query in the cycle of `t` still holds `t`. -/
theorem isIn_piece {a : Arc} {t : Time} (h : isIn a t) : isIn (sect a (timeToCycleArc t)) t :=
  isIn_sect.mpr ⟨h, isIn_timeToCycleArc t⟩

/-- Answers that stay inside their query are silent outside of it. -/
theorem activeIn_eq_zero_of_within {a : Arc} {es : List (Event α)} {t : Time}
    (h : ∀ e ∈ es, Within e.part a) (ht : ¬ isIn a t) : activeIn es t = 0 :=
  activeIn_eq_zero fun e he hin => ht ((h e he).isIn hin)

/-- Every query that holds a moment sees the behaviour of a steady pattern there. -/
theorem Steady.act_eq {p : Pattern Γ α} (h : Steady p) {a : Arc} (m : Γ) {t : Time} (ht : isIn a t) :
    act p m a t = behaviour p m t :=
  h a ⟨t, t + 1⟩ m t ht (isIn_now t)

/-! ## Coherent patterns -/

namespace Coherent

variable {p : Pattern Γ α}

/-- Every query sees the behaviour of a coherent pattern. -/
theorem act_eq (h : Coherent p) {a : Arc} (m : Γ) {t : Time} (ht : isIn a t) :
    act p m a t = behaviour p m t :=
  Steady.act_eq h.cut m ht

theorem wholeIn (h : Coherent p) {a : Arc} {m : Γ} (ha : a.start ≤ a.stop) {e : Event α}
    (he : e ∈ p.query ⟨a, m⟩) {t : Time} (ht : isIn e.part t) : WholeIn e.whole t :=
  fun w hw => (h.inWhole a m ha e he w hw).isIn ht

theorem wholeIn_behaviour (h : Coherent p) {m : Γ} {t : Time} {x : Option Arc × α}
    (hx : x ∈ behaviour p m t) : ∃ w, x.1 = some w ∧ isIn w t := by
  obtain ⟨e, he, ht, rfl⟩ := mem_activeIn.mp hx
  obtain ⟨w, hw⟩ := isDigital_iff.mp (h.digital ⟨t, t + 1⟩ m (by simp) e he)
  exact ⟨w, hw, h.wholeIn (by simp) he ht w hw⟩

theorem filterDigital_query (h : Coherent p) {a : Arc} (m : Γ) (ha : a.start ≤ a.stop) :
    (filterDigital p).query ⟨a, m⟩ = p.query ⟨a, m⟩ :=
  List.filter_eq_self.mpr (h.digital a m ha)

theorem filterAnalog_query (h : Coherent p) {a : Arc} (m : Γ) (ha : a.start ≤ a.stop) :
    (filterAnalog p).query ⟨a, m⟩ = [] :=
  List.filter_eq_nil_iff.mpr fun e he => by
    have := h.digital a m ha e he
    simpa [isDigital] using this

end Coherent

/-! ## Regular patterns are well-formed and steady -/

theorem Answers.mono {strict : Prop} {a : Arc} {w : Option Arc} {p : Arc} (h : Answers strict a w p) :
    Answers False a w p := ⟨⟨h.fits.1, fun hf => hf.elim⟩, h.whole⟩

theorem regular_iff {p : Pattern Γ α} : Regular p ↔ WellFormed False p ∧ Steady p := by
  constructor
  · intro h
    refine ⟨fun a m ha e he => ⟨⟨h.inQuery a m ha e he, fun hf => hf.elim⟩, ?_⟩, h.cut⟩
    obtain ⟨w, hw⟩ := isDigital_iff.mp (h.digital a m ha e he)
    exact ⟨w, hw, h.width a m ha e he w hw, h.inWhole a m ha e he w hw⟩
  · rintro ⟨hwf, hst⟩
    refine { digital := ?_, inQuery := ?_, inWhole := ?_, cut := hst, width := ?_ }
    · intro a m ha e he
      obtain ⟨w, hw, _⟩ := (hwf a m ha e he).whole
      exact isDigital_iff.mpr ⟨w, hw⟩
    · exact fun a m ha e he => (hwf a m ha e he).fits.1
    · intro a m ha e he w hw
      obtain ⟨w', hw', _, hin⟩ := (hwf a m ha e he).whole
      obtain rfl := Option.some.inj (hw.symm.trans hw')
      exact hin
    · intro a m ha e he w hw
      obtain ⟨w', hw', hlt, _⟩ := (hwf a m ha e he).whole
      obtain rfl := Option.some.inj (hw.symm.trans hw')
      exact hlt

theorem WellFormed.mono {strict : Prop} {p : Pattern Γ α} (h : WellFormed strict p) :
    WellFormed False p := fun a m ha e he => (h a m ha e he).mono

theorem WellFormed.regular {strict : Prop} {p : Pattern Γ α} (h : WellFormed strict p) (hs : Steady p) :
    Regular p := regular_iff.mpr ⟨h.mono, hs⟩

end Tidal
