import Tidal.Stream.Process
import Tidal.Core

/-!
# Proofs: a tick and the state map

A tick takes the state map before anything that can go wrong, and only its last step puts it back. The
exception handler runs outside of that section, with the state map already taken, and restores the play
map alone. So the state map survives a tick exactly if nothing between the two raises.
-/

namespace Tidal

open EventF Effect MVar

variable {S X Udp Addr α γ : Type}

/-! ## Patterns that raise nothing -/

/-- What `v` sees of a stream does not depend on the world outside or on what is printed. -/
def SeesShared (v : World S X → γ) : Prop :=
  ∀ w x log, v { w with outside := x, stderr := log } = v w

variable {v : World S X → γ}

theorem leaves_evaluate (x : Susp α) : Leaves v (evaluate x : Streaming S X α) := by
  intro w
  cases x <;> rfl

theorem leaves_calling (hv : SeesShared v) (f : X → α × X) :
    Leaves v (calling f : Streaming S X α) := fun w => hv w _ w.stderr

theorem leaves_callingE (hv : SeesShared v) (f : X → Susp α × X) :
    Leaves v (callingE f : Streaming S X α) :=
  leaves_bind (leaves_calling hv f) leaves_evaluate

theorem leaves_hPutStrLn (hv : SeesShared v) (s : String) :
    Leaves v (hPutStrLn s : Streaming S X Unit) := fun w => hv w w.outside _

theorem leaves_setCps (hv : SeesShared v) (ops : LinkOperations X)
    (e : Event (Susp (ValueMap S))) (on : ℤ) : Leaves v (setCps ops e on) := by
  unfold setCps
  split
  · refine leaves_bind (leaves_evaluate _) fun m => ?_
    cases m["cps"]? >>= Value.getF with
    | none => exact leaves_pure ()
    | some newCps => exact leaves_calling hv _
  · exact leaves_pure ()

theorem leaves_processEvent (hv : SeesShared v) (ops : LinkOperations X)
    (e : Event (Susp (ValueMap S))) : Leaves v (processEvent ops e) := by
  refine leaves_bind (leaves_calling hv _) fun on => ?_
  refine leaves_bind (leaves_calling hv _) fun onPart => ?_
  refine leaves_bind (leaves_setCps hv ops e on) fun _ => ?_
  refine leaves_bind (leaves_calling hv _) fun off => ?_
  exact leaves_bind (leaves_calling hv _) fun bpm => leaves_pure _

theorem leaves_setPreviousPattern :
    Leaves World.sStateMV (setPreviousPatternOrSilence : Streaming S X Unit) :=
  leaves_modifyMVar_ (fun _ _ => rfl) fun _ => leaves_pure _

section Tick

variable {showDouble : ℚ → String}
  {send : Option Udp → Cx S Udp Addr → ℚ → ℚ → Susp ℚ × Bool × Message → X → Susp Unit × X}
  {cxs : List (Cx S Udp Addr)} {listen : Option Udp} {nowArc : Time × Time} {nudge : ℚ}
  {ops : LinkOperations X}

theorem leaves_sendEvent (hv : SeesShared v) (busses : List ℤ) (cx : Cx S Udp Addr)
    (e : ProcessedEvent S) (osc : OSC S) :
    Leaves v (sendEvent showDouble send listen nudge busses cx e osc) :=
  leaves_bind (leaves_evaluate _) fun _ => leaves_forM_ fun _ =>
    leaves_handle (fun _ => leaves_hPutStrLn hv _) (leaves_callingE hv _)

theorem leaves_sendMessages (hv : SeesShared v) (busses : List ℤ) (tes : List (ProcessedEvent S)) :
    Leaves v (sendMessages showDouble send cxs listen nudge busses tes) :=
  leaves_forM_ fun cx => leaves_forM_ fun e => leaves_forM_ fun osc =>
    leaves_sendEvent hv busses cx e osc

theorem leaves_playEvents (hv : SeesShared v) (busses : List ℤ)
    (r : Susp S × List (Event (Susp (ValueMap S)))) :
    Leaves v (playEvents showDouble send cxs listen nudge ops busses r) := by
  refine leaves_bind (leaves_mapM fun e => leaves_processEvent hv ops e) fun tes => ?_
  exact leaves_bind (leaves_sendMessages hv busses tes) fun _ => leaves_pure _

variable [StateMap S]

theorem leaves_tickBody (hv : SeesShared v) (sMap : Susp S) :
    Leaves v (tickBody showDouble send cxs listen nowArc nudge ops sMap) := by
  refine leaves_bind leaves_readMVar fun pMap => ?_
  refine leaves_bind leaves_readMVar fun busses => ?_
  refine leaves_bind leaves_readMVar fun sGlobalF => ?_
  refine leaves_bind (leaves_calling hv _) fun bpm => ?_
  exact leaves_bind (leaves_evaluate _) fun r => leaves_playEvents hv busses r

end Tick

/-! ## When the steps of a tick return -/

/-- Evaluating `x` raises nothing. -/
def Evaluates (x : Susp α) : Prop := ∃ a, x = .ok a

theorem not_evaluates {x : Susp α} (h : ¬ Evaluates x) : ∃ e, x = .error e := by
  cases x with
  | ok a => exact absurd ⟨a, rfl⟩ h
  | error e => exact ⟨e, rfl⟩

theorem yields_evaluate (a : α) : Yields (evaluate (.ok a) : Streaming S X α) (· = a) :=
  fun w => ⟨a, w, rfl, rfl⟩

theorem raises_evaluate {x : Susp α} (h : ¬ Evaluates x) : Raises (evaluate x : Streaming S X α) := by
  obtain ⟨e, rfl⟩ := not_evaluates h
  exact fun w => ⟨e, w, rfl⟩

theorem yields_calling (f : X → α × X) : Yields (calling f : Streaming S X α) fun _ => True :=
  fun _ => ⟨_, _, rfl, trivial⟩

/-- A call whose exceptions are printed. -/
theorem yields_catch_callingE (f : X → Susp Unit × X) (s : SomeException → String) :
    Yields (catch' (callingE f) fun e => hPutStrLn (s e) : Streaming S X Unit) fun _ => True := by
  intro w
  have hcall : (callingE f : Streaming S X Unit) w =
      (evaluate (f w.outside).1 : Streaming S X Unit) { w with outside := (f w.outside).2 } := rfl
  unfold catch' handle
  rw [hcall]
  cases (f w.outside).1 with
  | ok u => exact ⟨u, _, rfl, trivial⟩
  | error e => exact ⟨(), _, rfl, trivial⟩

section Events

variable {ops : LinkOperations X} {e : Event (Susp (ValueMap S))} {es : List (Event (Susp (ValueMap S)))}

theorem yields_setCps (on : ℤ) (h : e.eventHasOnset → Evaluates e.value) :
    Yields (setCps ops e on) fun _ => True := by
  unfold setCps
  split
  next honset =>
    obtain ⟨m, hm⟩ := h honset
    rw [hm]
    refine (yields_evaluate m).bind fun _ _ => ?_
    split
    · exact yields_pure trivial
    · exact yields_calling _
  next => exact yields_pure trivial

theorem raises_setCps (on : ℤ) (honset : e.eventHasOnset) (h : ¬ Evaluates e.value) :
    Raises (setCps ops e on) := by
  rw [setCps, if_pos honset]
  exact (raises_evaluate h).bind

theorem yields_processEvent (h : e.eventHasOnset → Evaluates e.value) :
    Yields (processEvent ops e) fun pe => pe.peEvent = e := by
  refine (yields_calling _).bind fun on _ => ?_
  refine (yields_calling _).bind fun onPart _ => ?_
  refine (yields_setCps on h).bind fun _ _ => ?_
  refine (yields_calling _).bind fun off _ => ?_
  exact (yields_calling _).bind fun bpm _ => yields_pure rfl

theorem raises_processEvent (honset : e.eventHasOnset) (h : ¬ Evaluates e.value) :
    Raises (processEvent ops e) := by
  refine (yields_calling _).bind_raises fun on _ => ?_
  refine (yields_calling _).bind_raises fun onPart _ => ?_
  exact (raises_setCps on honset h).bind

/-- The processed events are those of the list, in its order. -/
theorem yields_processCps (h : ∀ e ∈ es, e.eventHasOnset → Evaluates e.value) :
    Yields (processCps ops es) fun tes => tes.map ProcessedEvent.peEvent = es := by
  have hmap : Yields (processCps ops es) (List.Forall₂ (fun e pe => pe.peEvent = e) es) :=
    yields_mapM fun e he => yields_processEvent (h e he)
  refine hmap.mono fun tes htes => ?_
  clear hmap h
  induction htes with
  | nil => rfl
  | cons hpe _ ih => rw [List.map_cons, hpe, ih]

theorem uniform_processEvent (e : Event (Susp (ValueMap S))) : Uniform (processEvent ops e) := by
  by_cases h : e.eventHasOnset → Evaluates e.value
  · exact Or.inl ((yields_processEvent h).mono fun _ _ => trivial)
  · rw [Classical.not_imp] at h
    exact Or.inr (raises_processEvent h.1 h.2)

theorem raises_processCps (h : ∃ e ∈ es, e.eventHasOnset ∧ ¬ Evaluates e.value) :
    Raises (processCps ops es) := by
  obtain ⟨e, he, honset, hvalue⟩ := h
  exact raises_mapM (fun e' _ => uniform_processEvent e') ⟨e, he, raises_processEvent honset hvalue⟩

/-- The messages of this shape are made from the value of the event. -/
def ReadsValue : OSC S → Prop
  | .OSC _ _ => True
  | .OSCContext _ => False

theorem toOSC_evaluates_iff (showDouble : ℚ → String) (busses : List ℤ) (pe : ProcessedEvent S)
    (osc : OSC S) : Evaluates (toOSC showDouble busses pe osc) ↔
      (ReadsValue osc → Evaluates pe.peEvent.value) := by
  cases osc with
  | OSCContext path => exact ⟨fun _ h => h.elim, fun _ => ⟨_, rfl⟩⟩
  | OSC path args =>
    by_cases hvalue : Evaluates pe.peEvent.value
    · obtain ⟨val, hval⟩ := hvalue
      rw [toOSC, hval]
      exact ⟨fun _ _ => ⟨val, rfl⟩, fun _ => ⟨_, rfl⟩⟩
    · obtain ⟨err, herr⟩ := not_evaluates hvalue
      rw [toOSC, herr]
      refine ⟨?_, fun h => ?_⟩
      · rintro ⟨ms, hms⟩
        cases hms
      · obtain ⟨val, hval⟩ := h trivial
        cases hval

end Events

section Messages

variable {showDouble : ℚ → String}
  {send : Option Udp → Cx S Udp Addr → ℚ → ℚ → Susp ℚ × Bool × Message → X → Susp Unit × X}
  {cxs : List (Cx S Udp Addr)} {listen : Option Udp} {nudge : ℚ} {busses : List ℤ}
  {tes : List (ProcessedEvent S)}

theorem yields_sendEvent {cx : Cx S Udp Addr} {pe : ProcessedEvent S} {osc : OSC S}
    (h : ReadsValue osc → Evaluates pe.peEvent.value) :
    Yields (sendEvent showDouble send listen nudge busses cx pe osc) fun _ => True := by
  obtain ⟨ms, hms⟩ := (toOSC_evaluates_iff showDouble busses pe osc).mpr h
  rw [sendEvent, hms]
  refine (yields_evaluate ms).bind fun ms' _ => yields_forM_ fun m _ => ?_
  exact yields_catch_callingE _ _

theorem raises_sendEvent {cx : Cx S Udp Addr} {pe : ProcessedEvent S} {osc : OSC S}
    (hosc : ReadsValue osc) (h : ¬ Evaluates pe.peEvent.value) :
    Raises (sendEvent showDouble send listen nudge busses cx pe osc) := by
  have hms : ¬ Evaluates (toOSC showDouble busses pe osc) := fun hms =>
    h ((toOSC_evaluates_iff showDouble busses pe osc).mp hms hosc)
  exact (raises_evaluate hms).bind

/-- Some target has a shape whose messages are made from the values of the events. -/
def SomeReadsValue (cxs : List (Cx S Udp Addr)) : Prop :=
  ∃ cx ∈ cxs, ∃ osc ∈ cx.cxOSCs, ReadsValue osc

theorem yields_sendMessages (h : SomeReadsValue cxs → ∀ pe ∈ tes, Evaluates pe.peEvent.value) :
    Yields (sendMessages showDouble send cxs listen nudge busses tes) fun _ => True :=
  yields_forM_ fun cx hcx => yields_forM_ fun pe hpe => yields_forM_ fun osc hosc =>
    yields_sendEvent fun hreads => h ⟨cx, hcx, osc, hosc, hreads⟩ pe hpe

theorem uniform_sendEvent (cx : Cx S Udp Addr) (pe : ProcessedEvent S) (osc : OSC S) :
    Uniform (sendEvent showDouble send listen nudge busses cx pe osc) := by
  by_cases h : ReadsValue osc → Evaluates pe.peEvent.value
  · exact Or.inl (yields_sendEvent h)
  · rw [Classical.not_imp] at h
    exact Or.inr (raises_sendEvent h.1 h.2)

theorem raises_sendMessages (hcxs : SomeReadsValue cxs)
    (h : ∃ pe ∈ tes, ¬ Evaluates pe.peEvent.value) :
    Raises (sendMessages showDouble send cxs listen nudge busses tes) := by
  obtain ⟨cx, hcx, osc, hosc, hreads⟩ := hcxs
  obtain ⟨pe, hpe, hvalue⟩ := h
  have hshapes (cx : Cx S Udp Addr) (pe : ProcessedEvent S) : Uniform (forM_ cx.cxOSCs fun osc =>
      sendEvent showDouble send listen nudge busses cx pe osc) :=
    uniform_forM_ fun osc _ => uniform_sendEvent cx pe osc
  refine raises_forM_ (fun cx _ => uniform_forM_ fun pe _ => hshapes cx pe) ⟨cx, hcx, ?_⟩
  refine raises_forM_ (fun pe _ => hshapes cx pe) ⟨pe, hpe, ?_⟩
  exact raises_forM_ (fun osc _ => uniform_sendEvent cx pe osc)
    ⟨osc, hosc, raises_sendEvent hreads hvalue⟩

end Messages

/-! ## A whole tick -/

section Tick

variable {showDouble : ℚ → String}
  {send : Option Udp → Cx S Udp Addr → ℚ → ℚ → Susp ℚ × Bool × Message → X → Susp Unit × X}
  {cxs : List (Cx S Udp Addr)} {listen : Option Udp} {nowArc : Time × Time} {nudge : ℚ}
  {ops : LinkOperations X} {es : List (Event (Susp (ValueMap S)))}

/-- The value of the event is looked at during a tick: it may set the tempo, or messages are made from
it. -/
def NeedsValue (cxs : List (Cx S Udp Addr)) (e : Event (Susp (ValueMap S))) : Prop :=
  e.eventHasOnset ∨ SomeReadsValue cxs

theorem yields_playEvents {busses : List ℤ} (sMap : Susp S)
    (h : ∀ e ∈ es, NeedsValue cxs e → Evaluates e.value) :
    Yields (playEvents showDouble send cxs listen nudge ops busses (sMap, es)) fun _ => True := by
  refine (yields_processCps fun e he honset => h e he (Or.inl honset)).bind fun tes htes => ?_
  refine (yields_sendMessages fun hcxs pe hpe => ?_).bind fun _ _ => yields_pure trivial
  exact h _ (htes ▸ List.mem_map_of_mem hpe) (Or.inr hcxs)

theorem raises_playEvents {busses : List ℤ} (sMap : Susp S)
    (h : ∃ e ∈ es, NeedsValue cxs e ∧ ¬ Evaluates e.value) :
    Raises (playEvents showDouble send cxs listen nudge ops busses (sMap, es)) := by
  by_cases honsets : ∃ e ∈ es, e.eventHasOnset ∧ ¬ Evaluates e.value
  · exact (raises_processCps honsets).bind
  · -- all onsets are processed, and the event without a value is met when the messages are made
    obtain ⟨e, he, hneeds, hvalue⟩ := h
    have hcxs : SomeReadsValue cxs := hneeds.resolve_left fun ho => honsets ⟨e, he, ho, hvalue⟩
    have hprocess : ∀ e ∈ es, e.eventHasOnset → Evaluates e.value := fun e he ho =>
      Classical.byContradiction fun hv => honsets ⟨e, he, ho, hv⟩
    refine (yields_processCps hprocess).bind_raises fun tes htes => ?_
    rw [← htes] at he
    obtain ⟨pe, hpe, rfl⟩ := List.mem_map.mp he
    exact (raises_sendMessages hcxs ⟨pe, hpe, hvalue⟩).bind

variable [StateMap S]

/-- Between taking the state map and putting it back the tick raises nothing: the query returns, and
every event whose value is looked at has one. -/
def Undisturbed (cxs : List (Cx S Udp Addr)) (nowArc : Time × Time) (cps : ℚ)
    (patstack : ControlPattern S) (sMap : Susp S) : Prop :=
  ∃ r, tickEvents nowArc cps patstack sMap = .ok r ∧ ∀ e ∈ r.2, NeedsValue cxs e → Evaluates e.value

theorem yields_playing {busses : List ℤ} {cps : ℚ} {patstack : ControlPattern S} {sMap : Susp S}
    (h : Undisturbed cxs nowArc cps patstack sMap) :
    Yields (evaluate (tickEvents nowArc cps patstack sMap) >>=
      playEvents showDouble send cxs listen nudge ops busses) fun _ => True := by
  obtain ⟨⟨sMap'', es⟩, hr, hvalues⟩ := h
  rw [hr]
  refine (yields_evaluate _).bind ?_
  rintro _ rfl
  exact yields_playEvents sMap'' hvalues

theorem raises_playing {busses : List ℤ} {cps : ℚ} {patstack : ControlPattern S} {sMap : Susp S}
    (h : ¬ Undisturbed cxs nowArc cps patstack sMap) :
    Raises (evaluate (tickEvents nowArc cps patstack sMap) >>=
      playEvents showDouble send cxs listen nudge ops busses) := by
  by_cases hr : Evaluates (tickEvents nowArc cps patstack sMap)
  · obtain ⟨⟨sMap'', es⟩, hr⟩ := hr
    rw [hr]
    refine (yields_evaluate _).bind_raises ?_
    rintro _ rfl
    refine raises_playEvents sMap'' (Classical.byContradiction fun hvalues => h ⟨_, hr, ?_⟩)
    intro e he hneeds
    exact Classical.byContradiction fun hvalue => hvalues ⟨e, he, hneeds, hvalue⟩
  · exact (raises_evaluate hr).bind

end Tick

section StateMap

variable [StateMap S] (showDouble : ℚ → String)
  (send : Option Udp → Cx S Udp Addr → ℚ → ℚ → Susp ℚ × Bool × Message → X → Susp Unit × X)
  (cxs : List (Cx S Udp Addr)) (listen : Option Udp) (nowArc : Time × Time) (nudge : ℚ)
  (ops : LinkOperations X) {sMap : Susp S} {busses : List ℤ} {pMap : PlayMap S}
  {sGlobalF : ControlPattern S → ControlPattern S} {w : World S X}

/-- The MVars that a tick only reads are full. -/
structure Readable (w : World S X) (busses : List ℤ) (pMap : PlayMap S)
    (sGlobalF : ControlPattern S → ControlPattern S) : Prop where
  busses : w.sBusses = some busses
  pMap : w.sPMapMV = some pMap
  sGlobalF : w.sGlobalFMV = some sGlobalF

/-- The cycles per second that a tick reads. -/
def cpsOf (ops : LinkOperations X) (x : X) : ℚ := ops.beatToCycles (ops.getTempo x).1 / 60

theorem tickBody_run (sMap : Susp S) (hw : Readable w busses pMap sGlobalF) :
    tickBody showDouble send cxs listen nowArc nudge ops sMap w =
      (evaluate (tickEvents nowArc (cpsOf ops w.outside) (sGlobalF (playStack pMap)) sMap) >>=
        playEvents showDouble send cxs listen nudge ops busses)
      { w with outside := (ops.getTempo w.outside).2 } := by
  rw [tickBody, bind_run, readMVar_full (m := playMV) hw.pMap]
  show (readMVar busMV >>= _) w = _
  rw [bind_run, readMVar_full (m := busMV) hw.busses]
  show (readMVar globalFMV >>= _) w = _
  rw [bind_run, readMVar_full (m := globalFMV) hw.sGlobalF]
  rfl

/-- When `doTick` returns, the state map is there to be taken; if the tick under its handler raised an
exception, it is the one from before. -/
def StateReturned (doTick tick : Streaming S X Unit) (w : World S X) : Prop :=
  ∀ w', doTick w = .returned () w' → ∃ sMap', w'.sStateMV = some sMap' ∧
    ((∃ e w₁, tick w = .raised e w₁) → w.sStateMV = some sMap')

theorem tick_undisturbed (hs : w.sStateMV = some sMap) (hw : Readable w busses pMap sGlobalF)
    (h : Undisturbed cxs nowArc (cpsOf ops w.outside) (sGlobalF (playStack pMap)) sMap) :
    ∃ sMap'' w', tick showDouble send cxs listen nowArc nudge ops w = .returned () w' ∧
      w'.sStateMV = some sMap'' := by
  have hw' : Readable (stateMV.set none w) busses pMap sGlobalF := ⟨hw.busses, hw.pMap, hw.sGlobalF⟩
  obtain ⟨sMap'', w₁, hr, _⟩ := yields_playing h { stateMV.set none w with outside := (ops.getTempo w.outside).2 }
  have hbody := (tickBody_run showDouble send cxs listen nowArc nudge ops sMap hw').trans hr
  refine ⟨sMap'', stateMV.set (some sMap'') w₁, ?_, rfl⟩
  exact withTaken_returned (leaves_tickBody fun _ _ _ => rfl) hs hbody

/-- The exception leaves the state map taken, and the play map as it was. -/
theorem tick_disturbed (hs : w.sStateMV = some sMap) (hw : Readable w busses pMap sGlobalF)
    (h : ¬ Undisturbed cxs nowArc (cpsOf ops w.outside) (sGlobalF (playStack pMap)) sMap) :
    ∃ e w₁, tick showDouble send cxs listen nowArc nudge ops w = .raised e w₁ ∧
      w₁.sStateMV = none ∧ w₁.sPMapMV = some pMap := by
  have hw' : Readable (stateMV.set none w) busses pMap sGlobalF := ⟨hw.busses, hw.pMap, hw.sGlobalF⟩
  obtain ⟨e, w₁, hr⟩ := raises_playing h { stateMV.set none w with outside := (ops.getTempo w.outside).2 }
  have hbody := (tickBody_run showDouble send cxs listen nowArc nudge ops sMap hw').trans hr
  obtain ⟨hraised, hempty⟩ := withTaken_raised (leaves_tickBody fun _ _ _ => rfl) hs hbody
  refine ⟨e, w₁, hraised, hempty, ?_⟩
  have hplay : World.sPMapMV (tickBody showDouble send cxs listen nowArc nudge ops sMap
      (stateMV.set none w)).world = w.sPMapMV := leaves_tickBody (fun _ _ _ => rfl) sMap _
  rw [hbody] at hplay
  exact hplay.trans hw.pMap

theorem doTick_of_returned {w' : World S X}
    (h : tick showDouble send cxs listen nowArc nudge ops w = .returned () w') :
    doTick showDouble send cxs listen nowArc nudge ops w = .returned () w' := by
  unfold doTick handle
  rw [h]

/-- The handler sets every play state back by one pattern, and knows nothing of the state map. -/
theorem doTick_of_raised {e : SomeException} {w₁ : World S X} (hp : w₁.sPMapMV = some pMap)
    (h : tick showDouble send cxs listen nowArc nudge ops w = .raised e w₁) :
    ∃ w', doTick showDouble send cxs listen nowArc nudge ops w = .returned () w' ∧
      w'.sStateMV = w₁.sStateMV ∧ w'.sPMapMV = some (pMap.map fun _ s => previousPattern s) := by
  set w₂ : World S X := { w₁ with stderr := w₁.stderr ++ ["Failed to Stream.doTick: " ++ e] ++
    ["Return to previous pattern."] } with hw₂
  have hrun : doTick showDouble send cxs listen nowArc nudge ops w = setPreviousPatternOrSilence w₂ := by
    unfold doTick handle
    rw [h]
    rfl
  have hp₂ : playMV.get w₂ = some pMap := hp
  obtain ⟨w', hr, hget⟩ := modifyMVar_pure (ε := SomeException)
    (fun m : PlayMap S => m.map fun _ s => previousPattern s) hp₂
  refine ⟨w', hrun.trans hr, ?_, hget⟩
  have hleaves := leaves_setPreviousPattern w₂
  rw [setPreviousPatternOrSilence, hr] at hleaves
  exact hleaves

/-- While the state map is taken, a tick, `streamSet` and a control message wait for ever. -/
theorem blocked_of_taken (h : w.sStateMV = none) (toValue : α → Value S) (k : String)
    (pat : LivePattern S α) (val : Value S) :
    doTick showDouble send cxs listen nowArc nudge ops w = .blocked w ∧
      streamSet toValue k pat w = .blocked w ∧ add k val w = .blocked w := by
  have htake : takeMVar stateMV w = (.blocked w : Outcome (World S X) SomeException (Susp S)) :=
    takeMVar_empty h
  refine ⟨?_, ?_, ?_⟩
  · unfold doTick handle
    rw [tick, bind_run, htake]
    rfl
  · rw [streamSet, bind_run, htake]
    rfl
  · rw [add, bind_run, htake]
    rfl

/-- `doTick` returns, and it leaves the state map as it should exactly if nothing in the tick raises. What can
raise is a query or the value of an event as a whole; numbers inside of a value are there when the value is. -/
theorem doTick_returns_state_iff (sMap : Susp S) (busses : List ℤ) (pMap : PlayMap S)
    (sGlobalF : ControlPattern S → ControlPattern S) (x : X) (log : List String) :
    let w : World S X := ⟨some sMap, some busses, some pMap, some sGlobalF, x, log⟩
    (∃ w', doTick showDouble send cxs listen nowArc nudge ops w = .returned () w') ∧
      (StateReturned (doTick showDouble send cxs listen nowArc nudge ops)
          (tick showDouble send cxs listen nowArc nudge ops) w ↔
        Undisturbed cxs nowArc (cpsOf ops x) (sGlobalF (playStack pMap)) sMap) := by
  intro w
  have hw : Readable w busses pMap sGlobalF := ⟨rfl, rfl, rfl⟩
  by_cases h : Undisturbed cxs nowArc (cpsOf ops x) (sGlobalF (playStack pMap)) sMap
  · obtain ⟨sMap'', w', htick, hstate⟩ :=
      tick_undisturbed showDouble send cxs listen nowArc nudge ops (w := w) rfl hw h
    have hdo := doTick_of_returned showDouble send cxs listen nowArc nudge ops htick
    refine ⟨⟨w', hdo⟩, fun _ => h, fun _ w₁ hr => ?_⟩
    rw [hdo] at hr
    cases hr
    refine ⟨sMap'', hstate, ?_⟩
    rintro ⟨e, w₂, hraised⟩
    rw [htick] at hraised
    cases hraised
  · obtain ⟨e, w₁, htick, hempty, hplay⟩ :=
      tick_disturbed showDouble send cxs listen nowArc nudge ops (w := w) rfl hw h
    obtain ⟨w', hdo, hstate, _⟩ := doTick_of_raised showDouble send cxs listen nowArc nudge ops hplay htick
    refine ⟨⟨w', hdo⟩, fun hreturned => ?_, fun h' => (h h').elim⟩
    obtain ⟨sMap', hfull, _⟩ := hreturned w' hdo
    rw [hstate, hempty] at hfull
    cases hfull

end StateMap

/-! ## A pattern that raises -/

/-- A pattern whose query raises. -/
def undefinedPattern : ControlPattern (ValueMap Empty) := ⟨fun _ => .raise "Prelude.undefined"⟩

/-- A stream that plays it, with a control `x` in its state map. -/
def raisingWorld : World (ValueMap Empty) Unit where
  sStateMV := some (.ok ((∅ : ValueMap Empty).insert "x" (.VF 1)))
  sBusses := some []
  sPMapMV := some ((∅ : PlayMap (ValueMap Empty)).insert "1"
    ⟨undefinedPattern, false, false, [undefinedPattern]⟩)
  sGlobalFMV := some id
  outside := ()
  stderr := []

/-- A Link session at 120 beats a minute, with four beats to a cycle. -/
def steadyLink : LinkOperations Unit where
  timeAtBeat beat x := (⌊beat * 500000⌋, x)
  getTempo x := (120, x)
  setTempo _ _ x := ((), x)
  linkToOscTime t := t / 1000000
  beatToCycles beat := beat / 4
  cyclesToBeat cyc := cyc * 4

def noTargets : List (Cx (ValueMap Empty) Unit Unit) := []

/-- A tick of that stream over its first cycle, with no target. -/
def raisingTick : Streaming (ValueMap Empty) Unit Unit :=
  tick toString (fun _ _ _ _ _ x => (.ok (), x)) noTargets none (0, 1) 0 steadyLink

def raisingDoTick : Streaming (ValueMap Empty) Unit Unit :=
  doTick toString (fun _ _ _ _ _ x => (.ok (), x)) noTargets none (0, 1) 0 steadyLink

/-- A stream that plays two notes at once. -/
def playingWorld : World (ValueMap Empty) Unit :=
  { raisingWorld with sPMapMV := some ((∅ : PlayMap (ValueMap Empty)).insert "1"
      ⟨.ofPattern (Pattern.fmap (fun x => (∅ : ValueMap (ValueMap Empty)).insert "n" (.VN x))
        (Pattern.stack [Pattern.pure 3, Pattern.pure 5])), false, false, []⟩) }

/-- A tick that raises nothing puts the state map back. -/
theorem doTick_returns_state_iff_playing : StateReturned raisingDoTick raisingTick playingWorld := by
  refine (doTick_returns_state_iff toString (fun _ _ _ _ _ x => (.ok (), x)) noTargets none (0, 1) 0 steadyLink
    _ _ _ _ _ _).2.mpr ⟨_, rfl, fun e he _ => ?_⟩
  rcases List.mem_cons.mp he with rfl | he
  · exact ⟨_, rfl⟩
  · rw [List.mem_singleton.mp he]
    exact ⟨_, rfl⟩

/-- The tick fails and `doTick` returns with the state map gone: the pattern is reset to silence, but the
next tick, `streamSet` and control message wait for ever. -/
theorem doTick_loses_state :
    ¬ StateReturned raisingDoTick raisingTick raisingWorld ∧
      ∃ w', raisingDoTick raisingWorld = .returned () w' ∧ w'.sStateMV = none ∧
        w'.stderr = ["Failed to Stream.doTick: Prelude.undefined", "Return to previous pattern."] ∧
        raisingDoTick w' = .blocked w' ∧
        streamSet Value.VF "y" LivePattern.silence w' = .blocked w' ∧
        add "y" (.VF 1) w' = .blocked w' := by
  have hrun : ∃ w', raisingDoTick raisingWorld = .returned () w' ∧ w'.sStateMV = none ∧
      w'.stderr = ["Failed to Stream.doTick: Prelude.undefined", "Return to previous pattern."] :=
    ⟨_, rfl, rfl, rfl⟩
  obtain ⟨w', hdo, hempty, hlog⟩ := hrun
  refine ⟨fun hreturned => ?_, w', hdo, hempty, hlog, ?_⟩
  · obtain ⟨sMap', hfull, _⟩ := hreturned w' hdo
    rw [hempty] at hfull
    cases hfull
  · exact blocked_of_taken _ _ _ _ _ _ _ hempty _ _ _ _

end Tidal
