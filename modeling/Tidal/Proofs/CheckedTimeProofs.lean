import Tidal.CheckedTime
import Tidal.Proofs.StepJoinProofs

/-!
# Proofs: operators on time and division by zero

An operator with a guard against zero, or whose divisor is the width of a whole, never divides by zero. The
others do so for one value of their parameter: `zoomArc`, `compressArc`, `_trunc`, `_linger` and `_every'`.
-/

namespace Tidal

open EventF

variable {Γ α β : Type}

/-! ## IsAnswered without an exception -/

/-- The query is answered, down to the times and the values of the events. -/
def IsAnswered (p : Result (Checked Γ α)) (st : State Γ) : Prop := ∃ es, answer p st = .ok es

theorem Agrees.answers_iff {p : Result (Checked Γ β)} {d : Demanding Γ β} (h : Agrees Returns p d)
    (st : State Γ) : IsAnswered p st ↔ ¬(d.opens ∨ d.asks st) := (h.answer st).returns_iff

theorem Agrees.answers {p : Result (Checked Γ β)} {d : Demanding Γ β} (h : Agrees Returns p d)
    (hd : Quiet d) (st : State Γ) : IsAnswered p st := by
  rw [h.answers_iff]
  rintro (ho | ha)
  · exact hd.opens ho
  · exact hd.asks st ha

theorem not_answers_error (e : ArithException) (st : State Γ) :
    ¬IsAnswered (.error e : Result (Checked Γ α)) st := by
  rintro ⟨es, hes⟩
  cases hes

/-- The values of the events are evaluated without an exception. -/
def Valued (es : List (Event (Result α))) : Prop := ∀ e ∈ es, ∃ x, e.value = .ok x

theorem valued_ok (es : List (Event α)) : Valued (es.map (EventF.map .ok)) := by
  intro e he
  obtain ⟨e', _, rfl⟩ := List.mem_map.mp he
  exact ⟨e'.value, rfl⟩

theorem answers_of_valued {q : Checked Γ α} {st : State Γ} {es : List (Event (Result α))}
    (hq : q.query st = .ok es) (hes : Valued es) : IsAnswered (.ok q) st := by
  obtain ⟨es', hes'⟩ : ∃ es', (es.mapM fun e => do
      return (⟨e.context, e.whole, e.part, ← e.value⟩ : Event α)) = .ok es' := by
    clear hq
    induction es with
    | nil => exact ⟨[], rfl⟩
    | cons e es ih =>
      obtain ⟨x, hx⟩ := hes e (List.mem_cons_self ..)
      obtain ⟨es', hes'⟩ := ih fun e' he' => hes e' (List.mem_cons_of_mem _ he')
      exact ⟨⟨e.context, e.whole, e.part, x⟩ :: es', by rw [List.mapM_cons, hx, hes']; rfl⟩
  refine ⟨es', ?_⟩
  show (q.query st >>= _) = _
  rw [hq]
  exact hes'

theorem values_of_sameEvents {P : Result α → Prop} {es : List (Event (Result α))} {es' : List (Event β)}
    (h : SameEvents (fun v _ => P v) es es') : ∀ e ∈ es, P e.value := by
  induction h with
  | nil => exact fun e he => absurd he List.not_mem_nil
  | cons he _ ih =>
    refine List.forall_mem_cons.mpr ⟨?_, ih⟩
    cases he with
    | mk _ _ _ hv => exact hv

/-! ## Operators that never divide by zero -/

/-- Every event is digital, and its whole has a width. -/
def Wide (p : Pattern Γ α) : Prop :=
  ∀ st, ∀ e ∈ p.query st, ∃ w : Arc, e.whole = some w ∧ w.start < w.stop

/-- The pattern as it is queried. -/
def ofEvents (p : Pattern Γ α) : Checked Γ α := ⟨fun st => .ok ((p.query st).map (EventF.map .ok)), none⟩

section Guarded

variable (p : Pattern Γ α)

theorem answers_fast (r : Time) (st : State Γ) : IsAnswered (Checked._fast r (Checked.ofPattern p)) st :=
  ((agrees_ofPattern p)._fast r).answers ((quiet_undemanding p)._fast r) st

theorem answers_slow (r : Time) (st : State Γ) : IsAnswered (Checked._slow r (Checked.ofPattern p)) st :=
  ((agrees_ofPattern p)._slow r).answers ((quiet_undemanding p)._slow r) st

theorem answers_fastGap (r : Time) (st : State Γ) :
    IsAnswered (Checked._fastGap r (Checked.ofPattern p)) st :=
  ((agrees_ofPattern p)._fastGap r).answers ((quiet_undemanding p)._fastGap r) st

theorem valued_withFXWhole {ef : Event (Result (Result α → Result α))} (hf : ef.value = .ok fun x => x)
    (es : List (Event α)) :
    ∀ o ∈ (es.map (EventF.map Except.ok)).map (Pattern.withFXWhole ef.whole (ef.map Checked.apply)),
      ∀ e ∈ o, ∃ x : α, e.value = .ok x := by
  intro o ho e he
  obtain ⟨ex, hex, rfl⟩ := List.mem_map.mp ho
  obtain ⟨x, hx⟩ := valued_ok es ex hex
  obtain ⟨p', _, he'⟩ := Option.bind_eq_some_iff.mp he
  obtain rfl := Option.some_injective _ he'
  refine ⟨x, ?_⟩
  show Checked.apply ef.value ex.value = .ok x
  rw [hf, hx]
  rfl

/-- The pulses of `_segment` are divided by its guarded parameter, and only sample the pattern. -/
theorem answers_segment (n : Time) (st : State Γ) :
    IsAnswered (Checked._segment n (Checked.ofPattern p)) st := by
  have hid : Agrees (Γ := Γ) (fun (v : Result (Result α → Result α)) (_ : Unit) => v = .ok fun x => x)
      (Checked.pure (.ok fun x => x)) (Demanding.pure ()) := Agrees.pure rfl
  have hquiet := (Quiet.pure (Γ := Γ) ())._fast n
  obtain ⟨c, hc, hplays⟩ := (hid._fast n).returned hquiet.opens
  obtain ⟨fs, hfs, hsame⟩ := (hplays.answers st).returned (hquiet.asks st)
  have hvalue : ∀ ef ∈ fs, ef.value = .ok fun x => x := values_of_sameEvents hsame
  have hmatch : ∀ ef ∈ fs, ∃ os, Checked.matchLeft (ofEvents p) st ef = .ok os ∧
      ∀ o ∈ os, ∀ e ∈ o, ∃ x : α, e.value = .ok x :=
    fun ef hef => ⟨_, rfl, valued_withFXWhole (hvalue ef hef) _⟩
  obtain ⟨os, hos, hvalued⟩ := concatMapM_ok hmatch
  have hquery : (do return (← concatMapM (Checked.matchLeft (ofEvents p) st) (← c.query st)).reduceOption) =
      .ok os.reduceOption := by
    rw [hfs, ok_bind, hos]
    rfl
  show IsAnswered (Checked.apLeft _ (.ok (ofEvents p))) st
  rw [hc]
  exact answers_of_valued hquery fun e he => hvalued _ (List.reduceOption_mem_iff.mp he) e rfl

theorem valued_munge {es : List (Event (Result α))} (hes : Valued es) (oc : Context) (ow : Option Arc)
    (op : Arc) : Valued (es.filterMap (Pattern.munge oc ow op)) := by
  intro e he
  obtain ⟨ie, hie, he⟩ := List.mem_filterMap.mp he
  obtain ⟨w', _, he⟩ := Option.bind_eq_some_iff.mp he
  obtain ⟨p', _, he⟩ := Option.bind_eq_some_iff.mp he
  obtain rfl := Option.some_injective _ he
  exact hes ie hie

/-- A cycle is fitted to an arc by dividing by its width. -/
theorem focusArc_performs {w : Arc} (hwide : w.start < w.stop) {p : Result (Checked Γ α)}
    {d : Demanding Γ α} (h : Agrees Returns p d) (hd : Quiet d) :
    ∃ q, Performs (Checked.focusArc w p) q := by
  rw [Checked.focusArc, ratio_of_ne (sub_pos.mpr hwide).ne']
  exact ⟨_, ((h._fast _).rotL _).performs ((hd._fast _).rotL _)⟩

theorem squeezeEvent_ply {e : Event α} {w : Arc} (hw : e.whole = some w) (hwide : w.start < w.stop)
    (n : Time) (st : State Γ) : ∃ es, Checked.squeezeEvent st ((e.map Except.ok).map fun v =>
      Checked._fast n (Checked.pure v)) = .ok es ∧ Valued es := by
  have hcopy : Agrees (Γ := Γ) Returns (Checked.pure (.ok e.value)) (Demanding.pure e.value) :=
    Agrees.pure rfl
  obtain ⟨q, c, hc, hquery⟩ := focusArc_performs hwide (hcopy._fast n) ((Quiet.pure e.value)._fast n)
  have hwhole : e.wholeOrPart = w := by
    rw [EventF.wholeOrPart, hw]
    rfl
  refine ⟨_, ?_, valued_munge (valued_ok (q.query { st with arc := e.part })) e.context e.whole e.part⟩
  show (do
    let v ← Checked.focusArc e.wholeOrPart (Checked._fast n (Checked.pure (.ok e.value)))
    return (← v.query { st with arc := e.part }).filterMap (Pattern.munge e.context e.whole e.part)) = _
  rw [hwhole, hc, ok_bind, hquery]
  rfl

/-- The cycle of a copy is fitted to a whole, whose width is not zero. -/
theorem answers_ply (hp : Wide p) (n : Time) (st : State Γ) :
    IsAnswered (Checked._ply n (Checked.ofPattern p)) st := by
  have hcopies : ∀ e ∈ ((p.query st).map (EventF.map Except.ok)).map (EventF.map fun v =>
      Checked._fast n (Checked.pure v)), ∃ es, Checked.squeezeEvent st e = .ok es ∧ Valued es := by
    intro e he
    obtain ⟨e₁, he₁, rfl⟩ := List.mem_map.mp he
    obtain ⟨e', he', rfl⟩ := List.mem_map.mp he₁
    obtain ⟨w, hw, hwide⟩ := hp st e' he'
    exact squeezeEvent_ply hw hwide n st
  obtain ⟨es, hes, hvalued⟩ := concatMapM_ok hcopies
  exact answers_of_valued hes hvalued

end Guarded

/-! ## Operators that divide by zero for one value -/

section Unguarded

variable (p : Pattern Γ α)

theorem compressArc_point {s : Time} (h0 : 0 ≤ s) (h1 : s ≤ 1) (p : Result (Checked Γ α)) :
    Checked.compressArc ⟨s, s⟩ p = .error .RatioZeroDenominator := by
  unfold Checked.compressArc
  rw [if_neg (lt_irrefl s), if_neg (by rw [or_self]; exact h1.not_gt),
    if_neg (by rw [or_self]; exact h0.not_gt), sub_self]
  rfl

/-- Only an arc of no width that lies within the cycle gets as far as the division. -/
theorem answers_compressArc_iff (s e : Time) (st : State Γ) :
    IsAnswered (Checked.compressArc ⟨s, e⟩ (Checked.ofPattern p)) st ↔ (s = e → s < 0 ∨ 1 < s) := by
  by_cases hse : s = e
  · subst hse
    rw [forall_prop_of_true rfl]
    by_cases hin : s < 0 ∨ 1 < s
    · refine iff_of_true ?_ hin
      have hsilence : Checked.compressArc ⟨s, s⟩ (Checked.ofPattern p) = Checked.silence := by
        unfold Checked.compressArc
        rcases hin with hneg | hlate
        · rw [if_neg (lt_irrefl s), if_neg (by rw [or_self]; exact (hneg.trans zero_lt_one).not_gt),
            if_pos (.inl hneg)]
        · rw [if_neg (lt_irrefl s), if_pos (.inl hlate)]
      rw [hsilence]
      exact Agrees.silence.answers .silence st
    · refine iff_of_false ?_ hin
      rw [compressArc_point (not_lt.mp fun h => hin (.inl h)) (not_lt.mp fun h => hin (.inr h))]
      exact not_answers_error _ st
  · refine iff_of_true ?_ fun h => absurd h hse
    exact ((agrees_ofPattern p).compressArc hse).answers ((quiet_undemanding p).compressArc _) st

/-- What `zoomArc` asks the pattern. -/
def zoomed (a : Arc) : Pattern Γ α := Pattern.withQueryArc (mapCycle fun t => t * (a.stop - a.start) + a.start) p

/-- `zoomArc`, where its divisor is not zero. -/
def zooming (a : Arc) : Demanding Γ α :=
  ((undemanding (zoomed p a)).withResultArc (mapCycle fun t => (t - a.start) / (a.stop - a.start))).splitQueries

theorem quiet_zooming (a : Arc) : Quiet (zooming p a) := by
  have hzoomed := quiet_undemanding (zoomed p a)
  exact Quiet.splitQueries ⟨hzoomed.opens, hzoomed.asks⟩

theorem agrees_zoomArc {a : Arc} (ha : a.start ≠ a.stop) :
    Agrees Returns (Checked.zoomArc a (Checked.ofPattern p)) (zooming p a) := by
  have hd : a.stop - a.start ≠ 0 := sub_ne_zero.mpr ha.symm
  refine ((agrees_ofPattern (zoomed p a)).withResultArc fun b => ?_).splitQueries
  simp only [ratio_of_ne hd]
  rfl

/-- The point of the cycle that an arc of no width is zoomed into. -/
def zoomedPoint (s : Time) (a : Arc) : Arc := ⟨sam a.start + s, sam a.start + s⟩

/-- `zoomArc` with an arc of no width, which divides the times of every event that it finds. -/
def pointing (s : Time) : Demanding Γ α :=
  Demanding.splitQueries
    ⟨Pattern.silence, False, fun st => p.query { st with arc := zoomedPoint s st.arc } ≠ [], False⟩

theorem mapArc_point (s : Time) (e : Event (Result α)) :
    Checked.mapArc (Checked.mapCycle fun t => ratio (t - s) (s - s)) e = .error .RatioZeroDenominator := by
  have hraise (b : Arc) : Checked.mapCycle (fun t => ratio (t - s) (s - s)) b = .error .RatioZeroDenominator := by
    simp only [Checked.mapCycle, ratio, if_pos (sub_self s)]
    rfl
  rw [funext hraise, Checked.mapArc]
  cases e.whole <;> rfl

theorem agrees_zoomArc_point (s : Time) :
    Agrees Returns (Checked.zoomArc ⟨s, s⟩ (Checked.ofPattern p)) (pointing p s) := by
  refine Agrees.splitQueries (Raises.of_ok ⟨fun st => ?_, none, rfl, .none⟩)
  have hpoint : mapCycle (fun t => t * (s - s) + s) st.arc = zoomedPoint s st.arc := by
    simp only [mapCycle, zoomedPoint, sub_self, mul_zero, zero_add]
  show Raises (p.query { st with arc := zoomedPoint s st.arc } ≠ []) (((p.query { st with
    arc := mapCycle (fun t => t * (s - s) + s) st.arc }).map (EventF.map Except.ok)).mapM _) fun es =>
      SameEvents Returns es []
  rw [hpoint]
  cases p.query { st with arc := zoomedPoint s st.arc } with
  | nil => exact (Raises.of_ok .nil).congr (iff_of_false id fun h => h rfl)
  | cons e es =>
    refine ⟨fun _ => ⟨.RatioZeroDenominator, ?_⟩, fun h => absurd (List.cons_ne_nil e es) h⟩
    rw [List.map_cons, List.mapM_cons, mapArc_point]
    rfl

theorem answers_zoomArc_iff (s e : Time) (st : State Γ) :
    IsAnswered (Checked.zoomArc ⟨s, e⟩ (Checked.ofPattern p)) st ↔
      (s = e → ∀ a ∈ arcCyclesZW st.arc, p.query { st with arc := zoomedPoint s a } = []) := by
  by_cases hse : s = e
  · subst hse
    rw [(agrees_zoomArc_point p s).answers_iff, forall_prop_of_true rfl]
    refine ⟨fun h a ha => ?_, ?_⟩
    · by_contra hne
      exact h (.inr ⟨a, ha, hne⟩)
    · rintro h (hfalse | ⟨a, ha, hne⟩)
      · exact hfalse
      · exact hne (h a ha)
  · exact iff_of_true ((agrees_zoomArc p hse).answers (quiet_zooming p _) st) fun h => absurd h hse

theorem answers_trunc_iff (r : Time) (st : State Γ) :
    IsAnswered (Checked._trunc r (Checked.ofPattern p)) st ↔ r ≠ 0 := by
  unfold Checked._trunc
  by_cases hr : r = 0
  · subst hr
    rw [compressArc_point le_rfl zero_le_one]
    exact iff_of_false (not_answers_error _ st) fun h => h rfl
  · refine iff_of_true ?_ hr
    have hne : (0 : Time) ≠ r := fun h => hr h.symm
    exact ((agrees_zoomArc p hne).compressArc hne).answers ((quiet_zooming p _).compressArc _) st

theorem answers_linger_iff (r : Time) (st : State Γ) :
    IsAnswered (Checked._linger r (Checked.ofPattern p)) st ↔ r ≠ 0 := by
  by_cases hr : r = 0
  · subst hr
    exact iff_of_false (not_answers_error .RatioZeroDenominator st) fun h => h rfl
  · refine iff_of_true ?_ hr
    have hslow {a : Arc} (ha : a.start ≠ a.stop) :
        IsAnswered (Checked._fast (1 / r) (Checked.zoomArc a (Checked.ofPattern p))) st :=
      ((agrees_zoomArc p ha)._fast _).answers ((quiet_zooming p a)._fast _) st
    unfold Checked._linger
    rw [ratio_of_ne hr]
    split_ifs
    · exact hslow fun h => hr (by linarith)
    · exact hslow fun h => hr h.symm

theorem exists_mem_arcCyclesZW {a : Arc} (ha : a.start < a.stop) : ∃ b, b ∈ arcCyclesZW a := by
  obtain ⟨l₁, l₂, hsplit, _⟩ := arcCyclesZW_split ⟨le_refl a.start, ha⟩
  rw [hsplit]
  exact ⟨_, List.mem_append_right _ (List.mem_cons_self ..)⟩

/-- `_every'` with the identity within one cycle. -/
def everyCycle (n o : ℤ) : Result (Checked Γ α) :=
  .ok ⟨Checked.whenCycle (fun c => do return (← mod c n) = o) id (ofEvents p), none⟩

theorem agrees_every'_zero (o : ℤ) :
    Agrees Returns (everyCycle p 0 o) ⟨Pattern.pattern p.query, False, fun _ => True, False⟩ :=
  Raises.of_ok ⟨fun _ => ⟨fun _ => ⟨.DivideByZero, rfl⟩, fun h => absurd trivial h⟩, none, rfl, .none⟩

theorem agrees_every' {n : ℤ} (hn : n ≠ 0) (o : ℤ) : Agrees Returns (everyCycle p n o) (undemanding p) := by
  have hmod (c : ℤ) : mod c n = .ok (c % n) := if_neg hn
  have hquery : Checked.whenCycle (fun c => do return (← mod c n) = o) id (ofEvents p) =
      (ofEvents p).query := by
    funext st
    unfold Checked.whenCycle
    simp only [hmod, ok_bind]
    exact ite_self _
  have hsame : everyCycle p n o = Checked.ofPattern p := by
    rw [everyCycle, hquery]
    rfl
  rw [hsame]
  exact agrees_ofPattern p

/-- The transformation is the identity, and the test is evaluated all the same. -/
theorem answers_every'_iff (n o : ℤ) {st : State Γ} (hst : st.arc.start < st.arc.stop) :
    IsAnswered (Checked._every' n o id (Checked.ofPattern p)) st ↔ n ≠ 0 := by
  show IsAnswered (Checked.splitQueries (everyCycle p n o)) st ↔ n ≠ 0
  by_cases hn : n = 0
  · subst hn
    rw [(agrees_every'_zero p o).splitQueries.answers_iff]
    obtain ⟨a, ha⟩ := exists_mem_arcCyclesZW hst
    refine iff_of_false (fun h => h (.inr ⟨a, ha, trivial⟩)) fun h => h rfl
  · exact iff_of_true ((agrees_every' p hn o).splitQueries.answers (quiet_undemanding p).splitQueries st) hn

/-- None of the operators comes to a division or a modulus by zero. -/
structure Undivided (r s e : Time) (n o : ℤ) (st : State Γ) : Prop where
  _fast : IsAnswered (Checked._fast r (Checked.ofPattern p)) st
  _slow : IsAnswered (Checked._slow r (Checked.ofPattern p)) st
  _fastGap : IsAnswered (Checked._fastGap r (Checked.ofPattern p)) st
  _segment : IsAnswered (Checked._segment r (Checked.ofPattern p)) st
  _ply : IsAnswered (Checked._ply r (Checked.ofPattern p)) st
  compressArc : IsAnswered (Checked.compressArc ⟨s, e⟩ (Checked.ofPattern p)) st
  zoomArc : IsAnswered (Checked.zoomArc ⟨s, e⟩ (Checked.ofPattern p)) st
  _trunc : IsAnswered (Checked._trunc r (Checked.ofPattern p)) st
  _linger : IsAnswered (Checked._linger r (Checked.ofPattern p)) st
  _every' : IsAnswered (Checked._every' n o id (Checked.ofPattern p)) st

variable {p}

/-- The operators without a guard are safe if `r` and `n` are not zero and the arc has a width. An arc of
no width is safe for `compressArc` if it is outside of the cycle, and for `zoomArc` if nothing plays there. -/
theorem undivided_iff (hp : Wide p) (r s e : Time) (n o : ℤ) {st : State Γ}
    (hst : st.arc.start < st.arc.stop) :
    Undivided p r s e n o st ↔ r ≠ 0 ∧ n ≠ 0 ∧ (s = e → (s < 0 ∨ 1 < s) ∧
      ∀ a ∈ arcCyclesZW st.arc, p.query { st with arc := zoomedPoint s a } = []) := by
  refine ⟨fun h => ⟨?_, ?_, fun hse => ⟨?_, ?_⟩⟩, ?_⟩
  · exact (answers_linger_iff p r st).mp h._linger
  · exact (answers_every'_iff p n o hst).mp h._every'
  · exact (answers_compressArc_iff p s e st).mp h.compressArc hse
  · exact (answers_zoomArc_iff p s e st).mp h.zoomArc hse
  · rintro ⟨hr, hn, harc⟩
    exact {
      _fast := answers_fast p r st
      _slow := answers_slow p r st
      _fastGap := answers_fastGap p r st
      _segment := answers_segment p r st
      _ply := answers_ply p hp r st
      compressArc := (answers_compressArc_iff p s e st).mpr fun hse => (harc hse).1
      zoomArc := (answers_zoomArc_iff p s e st).mpr fun hse => (harc hse).2
      _trunc := (answers_trunc_iff p r st).mpr hr
      _linger := (answers_linger_iff p r st).mpr hr
      _every' := (answers_every'_iff p n o hst).mpr hn }

theorem wide_pure (v : α) : Wide (Pattern.pure v : Pattern Γ α) := by
  intro st e he
  obtain ⟨a, ha, rfl⟩ := List.mem_map.mp he
  obtain ⟨c, _, rfl⟩ := List.mem_map.mp ha
  exact ⟨_, rfl, lt_add_one (sam c)⟩

theorem undivided_pure : Undivided (Pattern.pure 0 : Pattern Unit ℕ) (1 / 2) 0 (1 / 2) 2 0 ⟨⟨0, 1⟩, ()⟩ :=
  (undivided_iff (wide_pure 0) _ _ _ _ _ zero_lt_one).mpr
    ⟨by norm_num, by norm_num, fun h => absurd h (by norm_num)⟩

/-- No fraction of the pattern lingers, and the source has no case for it. -/
theorem linger_zero_raises : Wide (Pattern.pure 0 : Pattern Unit ℕ) ∧
    ¬Undivided (Pattern.pure 0 : Pattern Unit ℕ) 0 0 (1 / 2) 2 0 ⟨⟨0, 1⟩, ()⟩ := by
  refine ⟨wide_pure 0, fun h => ?_⟩
  exact (answers_linger_iff _ 0 _).mp h._linger rfl

end Unguarded

end Tidal
