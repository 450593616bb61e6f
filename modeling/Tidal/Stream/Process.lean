import Tidal.Stream.Types

/-!
# From patterns to messages (`Sound.Tidal.Stream.Process`)

One tick takes the state map, queries what is playing, passes the state through the events, works out
their times, and sends a message for every event and every shape of every target. The state map is put
back at the end. What lies outside (Link, the network, the printing of floating point numbers) comes in
as functions; the C functions of Link return and raise nothing.
-/

namespace Tidal

open EventF Effect MVar

variable {S X Udp Addr : Type}

/-- The operations on a Link session that a tick needs. -/
structure LinkOperations (X : Type) where
  timeAtBeat : ℚ → X → ℤ × X
  getTempo : X → ℚ × X
  setTempo : ℚ → ℤ → X → Unit × X
  linkToOscTime : ℤ → ℚ
  beatToCycles : ℚ → ℚ
  cyclesToBeat : ℚ → ℚ

def addMicrosToOsc (m : ℤ) (t : ℚ) : ℚ := m / 1000000 + t

structure ProcessedEvent (S : Type) where
  peHasOnset : Bool
  peEvent : Event (Susp (ValueMap S))
  peCps : ℚ
  peDelta : ℤ
  peCycle : Time
  peOnWholeOrPart : ℤ
  peOnWholeOrPartOsc : ℚ
  peOnPart : ℤ
  peOnPartOsc : ℚ

/-! ## Stateful values -/

/-- What a value becomes: a `VState` function is given the state map. -/
def resolveValue (sm : Susp S) : Value S → Susp (Susp S × Value S)
  | .VState v => v sm
  | v => .ok (sm, v)

/-- The state map after an event and its resolved value. State is passed through the `VState` functions
of an event that has its onset; they are filtered out of one that has not. -/
def resolveEvent (sMap : Susp S) (e : Event (Susp (ValueMap S))) : Susp S × Susp (ValueMap S) :=
  if e.eventHasOnset then
    let r := do Map.mapAccum resolveValue sMap (← e.value)
    (do (← r).1, do return (← r).2)
  else (sMap, do return (← e.value).filter fun _ v => v.notVState)

/-- Resolves higher order `VState` values to plain values, by passing through (and changing) state. -/
def resolveState (sMap : Susp S) :
    List (Event (Susp (ValueMap S))) → Susp S × List (Event (Susp (ValueMap S)))
  | [] => (sMap, [])
  | e :: es =>
    let (sMap', v') := resolveEvent sMap e
    let (sMap'', es') := resolveState sMap' es
    (sMap'', ⟨e.context, e.whole, e.part, v'⟩ :: es')

/-! ## Times -/

/-- An event with an onset sets the tempo if it has a `cps`. -/
def setCps (ops : LinkOperations X) (e : Event (Susp (ValueMap S))) (on : ℤ) : Streaming S X Unit :=
  if e.eventHasOnset then do
    let v ← evaluate e.value
    match v["cps"]? >>= Value.getF with
    | none => pure ()
    | some newCps => calling (ops.setTempo (ops.cyclesToBeat (newCps * 60)) on)
  else pure ()

def processEvent (ops : LinkOperations X) (e : Event (Susp (ValueMap S))) :
    Streaming S X (ProcessedEvent S) := do
  let wope := e.wholeOrPart
  let partStartBeat := ops.cyclesToBeat e.part.start
  let onCycle := wope.start
  let onBeat := ops.cyclesToBeat onCycle
  let offBeat := ops.cyclesToBeat wope.stop
  let on ← calling (ops.timeAtBeat onBeat)
  let onPart ← calling (ops.timeAtBeat partStartBeat)
  setCps ops e on
  let off ← calling (ops.timeAtBeat offBeat)
  let bpm ← calling ops.getTempo
  return {
    peHasOnset := e.eventHasOnset
    peEvent := e
    peCps := ops.beatToCycles bpm / 60
    peDelta := off - on
    peCycle := onCycle
    peOnWholeOrPart := on
    peOnWholeOrPartOsc := ops.linkToOscTime on
    peOnPart := onPart
    peOnPartOsc := ops.linkToOscTime onPart }

def processCps (ops : LinkOperations X) (es : List (Event (Susp (ValueMap S)))) :
    Streaming S X (List (ProcessedEvent S)) :=
  mapM (processEvent ops) es

/-! ## Messages -/

def toDatum : Value S → Susp Datum
  | .VF x => .ok (.float x)
  | .VN x => .ok (.float x)
  | .VI x => .ok (.int32 x)
  | .VS x => .ok (.string x)
  | .VR x => .ok (.float x)
  | .VB true => .ok (.int32 1)
  | .VB false => .ok (.int32 0)
  | .VX xs => .ok (.blob xs)
  | _ => .error "toDatum: unhandled value"

/-- The arguments of a message in the shape `args`, if the event has what the shape requires. -/
def toData (args : Args S) (v : ValueMap S) : Option (List (Susp Datum)) :=
  match args with
  | .ArgList as => (as.mapM fun x => v[x.1]? <|> x.2).map fun vs => vs.map toDatum
  | .Named rqrd =>
    if rqrd.all v.keys.contains then
      some (v.toList.flatMap fun x => [.ok (.string x.1), toDatum x.2])
    else none

/-- `round`: to the nearest integer, and to the even one of two. -/
def round (x : ℚ) : ℤ :=
  let n := ⌊x⌋
  if x - n < 1 / 2 then n else if 1 / 2 < x - n then n + 1 else if n % 2 = 0 then n else n + 1

section Show

variable (showDouble : ℚ → String)

/-- The `Show` instance of `Note`. -/
def showNote (n : ℚ) : String :=
  let pcs := ["c", "cs", "d", "ds", "e", "f", "fs", "g", "gs", "a", "as", "b"]
  let noteInt := round n
  showDouble n ++ "n (" ++ pcs.getD (noteInt % 12).toNat "" ++ toString (noteInt / 12 + 5) ++ ")"

/-- The `Show` instance of `Rational`. -/
def showRational (r : ℚ) : String :=
  let num := if r.num < 0 then "(" ++ toString r.num ++ ")" else toString r.num
  num ++ " % " ++ toString r.den

def simpleShow : Value S → String
  | .VS str => str
  | .VI i => toString i
  | .VF f => showDouble f
  | .VN n => showNote showDouble n
  | .VR r => showRational r
  | .VB b => if b then "True" else "False"
  | .VX xs => "[" ++ ",".intercalate (xs.map fun x => toString x.toNat) ++ "]"
  | .VState _ => "\"<stateful>\""
  | .VPattern _ => "\"<pattern>\""
  | .VList _ => "\"<list>\""

/-- The printed control of that name, or the default that follows the name and a `=`. -/
def getString (cm : ValueMap S) (s : List Char) : Option (List Char) :=
  let param := s.takeWhile (· != '=')
  let dflt := s.dropWhile (· != '=')
  let defaultValue := match dflt with
    | '=' :: dfltVal => some dfltVal
    | _ => none
  (cm[String.ofList param]?).map (fun v => (simpleShow showDouble v).toList) <|> defaultValue

/-- `parse`: replaces every `{name}` and `{name=default}` by what `getString` finds. -/
def parsePath (cm : ValueMap S) : List Char → Option (List Char)
  | [] => some []
  | '{' :: xs =>
    let a := xs.takeWhile (· != '}')
    match _h : xs.dropWhile (· != '}') with
    | [] => getString showDouble cm a
    | _ :: b => do
      let v ← getString showDouble cm a
      let xs' ← parsePath cm b
      return v ++ xs'
  | x :: xs => do
    let xs' ← parsePath cm xs
    return x :: xs'
termination_by cs => cs.length
decreasing_by
  · have hle := (List.dropWhile_sublist (l := xs) (· != '}')).length_le
    rw [_h, List.length_cons] at hle
    rw [List.length_cons]
    omega
  · simp

def substitutePath (str : String) (cm : ValueMap S) : Option String :=
  (parsePath showDouble cm str.toList).map String.ofList

end Show

def isBusName (k : String) : Bool := k.toList.head? = some '^'

/-- `tail` on names. -/
def tailName (k : String) : String := String.ofList k.toList.tail

/-- A bus number: its index in the list of buses, if there are any. -/
def toBus (busses : List ℤ) (n : ℤ) : ℤ :=
  if busses.isEmpty then n else busses.getD (n % busses.length).toNat 0

/-- `fromJust . getF` of the control `nudge`, which is zero if it is missing. -/
def nudgeOf (playmap : ValueMap S) : Susp ℚ :=
  match (playmap["nudge"]?.getD (.VF 0)).getF with
  | some x => .ok x
  | none => .error "Maybe.fromJust: Nothing"

/-- The messages of an event: when to send each, and whether it is a bus message. The list is made from
the value of the event; what the messages hold is evaluated later. -/
def toOSC (showDouble : ℚ → String) (busses : List ℤ) (pe : ProcessedEvent S) :
    OSC S → Susp (List (Susp ℚ × Bool × Message))
  | .OSC path args => do
    let val ← pe.peEvent.value
    -- the keys of the play map don't start with ^
    let playmap := val.filter fun k _ => !isBusName k
    let busmap := val.filter fun k _ => isBusName k
    let playmap' := Map.union
      (Map.mapKeys tailName
        (busmap.map fun _ v => .VS ("c" ++ toString (toBus busses (v.getI.getD 0)))))
      playmap
    let playmsg : Option (Susp ℚ × Bool × Message) :=
      if pe.peHasOnset then do
        -- a cps that is in the event already is preserved by the union
        let extra : ValueMap S := Std.ExtTreeMap.ofList
          [("cps", Value.VF pe.peCps), ("delta", Value.VF (addMicrosToOsc pe.peDelta 0)),
            ("cycle", Value.VF pe.peCycle)]
        let addExtra := Map.union playmap' extra
        let vs ← toData args addExtra
        let mungedPath ← substitutePath showDouble path playmap'
        return (do return pe.peOnWholeOrPartOsc + (← nudgeOf playmap), false, ⟨mungedPath, vs⟩)
      else none
    let busmsgs := busmap.toList.map fun (k, b) => do
      let k' ← if isBusName k then some (tailName k) else none
      let v ← playmap[k']?
      let bi ← b.getI
      return ((do return pe.peOnPartOsc + (← nudgeOf playmap) : Susp ℚ), true,
        (⟨"/c_set", [.ok (.int32 bi), toDatum v]⟩ : Message))
    return (playmsg :: busmsgs).reduceOption
  | .OSCContext oscpath =>
    let val := pe.peEvent.value
    let nudge : Susp ℚ := do return ((← val)["nudge"]? >>= Value.getF).getD 0
    let ident : Susp Datum := do return .string (((← val)["_id_"]? >>= Value.getS).getD "unknown")
    .ok (pe.peEvent.context.contextPosition.map fun ((x, y), (x', y')) =>
      (do return pe.peOnWholeOrPartOsc + (← nudge), false,
        ⟨oscpath, ident :: .ok (.float pe.peDelta) :: .ok (.float pe.peCycle) ::
          [x, y, x', y'].map fun n => .ok (.int32 n)⟩))

/-! ## What is playing -/

def hasSolo (pMap : PlayMap S) : Bool := 1 ≤ ((Map.elems pMap).filter PlayState.psSolo).length

def playStack (pMap : PlayMap S) : ControlPattern S :=
  let active (pState : PlayState S) : Bool := if hasSolo pMap then pState.psSolo else !pState.psMute
  LivePattern.stack (((Map.elems pMap).filter active).map PlayState.psPattern)

/-- The pattern that played before, or silence if there isn't one. -/
def previousPattern (pState : PlayState S) : PlayState S :=
  match pState.psHistory with
  | _ :: p :: ps => { pState with psPattern := p, psHistory := p :: ps }
  | _ => { pState with psPattern := LivePattern.silence, psHistory := [LivePattern.silence] }

def setPreviousPatternOrSilence : Streaming S X Unit :=
  modifyMVar_ playMV fun pMap => pure (pMap.map fun _ pState => previousPattern pState)

/-! ## Replacing a pattern -/

def patternTimeID : String := "_t_pattern"

section Replace

variable [StateMap S]

/-- The pattern that is played for `pat` under the id `k`: its events carry the id, and it is queried
with the time at which it was evaluated. -/
def playedPattern (k : String) (t : Time) (pat : ControlPattern S) : ControlPattern S :=
  LivePattern.withQueryControls (StateMap.insert patternTimeID (.VR t))
    (ControlPattern.add pat (ControlPattern.pS "_id_" (LivePattern.ofPattern (Pattern.pure k))))

/-- The play state of an id after its pattern is updated. -/
def updatePS (k : String) (t : Time) (pat : ControlPattern S) : Option (PlayState S) → PlayState S
  | some playState =>
    { playState with psPattern := playedPattern k t pat, psHistory := pat :: playState.psHistory }
  | none => ⟨playedPattern k t pat, false, false, [playedPattern k t pat]⟩

/-- The pattern is queried once before it is taken up. The first constructor of the answer is evaluated, so that
an exception which that raises is raised here. -/
def updatePattern [EmptyCollection S] (k : String) (t : Time) (pat : ControlPattern S) :
    Streaming S X Unit := do
  let _ ← evaluate (pat.queryArc ⟨0, 0⟩).first
  let pMap ← takeMVar playMV
  putMVar playMV (pMap.insert k (updatePS k t pat pMap[k]?))

end Replace

/-! ## A tick -/

section Tick

variable (showDouble : ℚ → String)
  (send : Option Udp → Cx S Udp Addr → ℚ → ℚ → Susp ℚ × Bool × Message → X → Susp Unit × X)
  (cxs : List (Cx S Udp Addr)) (listen : Option Udp) (nowArc : Time × Time) (nudge : ℚ)
  (ops : LinkOperations X)

/-- Sends the messages of an event in one shape of a target. An exception during sending is printed. -/
def sendEvent (busses : List ℤ) (cx : Cx S Udp Addr) (e : ProcessedEvent S) (osc : OSC S) :
    Streaming S X Unit := do
  let ms ← evaluate (toOSC showDouble busses e osc)
  forM_ ms fun m =>
    catch' (callingE (send listen cx cx.cxTarget.oLatency nudge m)) fun e =>
      hPutStrLn ("Failed to send. Is the '" ++ cx.cxTarget.oName ++ "' target running? " ++ e)

/-- For each OSC target, sends the events to it. The list of a target's messages is evaluated as it is
sent. -/
def sendMessages (busses : List ℤ) (tes : List (ProcessedEvent S)) : Streaming S X Unit :=
  forM_ cxs fun cx => forM_ tes fun e => forM_ cx.cxOSCs fun osc =>
    sendEvent showDouble send listen nudge busses cx e osc

/-- Processes the events and sends their messages; the state map that was left with them is returned. -/
def playEvents (busses : List ℤ) (r : Susp S × List (Event (Susp (ValueMap S)))) :
    Streaming S X (Susp S) := do
  let tes ← processCps ops r.2
  sendMessages showDouble send cxs listen nudge busses tes
  return r.1

variable [StateMap S]

/-- The state that is left and the events: first the state is used to query the pattern, then it's
passed through the events. Sorting them reads the answer to its end. -/
def tickEvents (cps : ℚ) (patstack : ControlPattern S) (sMap : Susp S) :
    Susp (Susp S × List (Event (Susp (ValueMap S)))) := do
  let sMap' := sMap.map (StateMap.insert "_cps" (.VF cps))
  let es ← (patstack.query ⟨⟨nowArc.1, nowArc.2⟩, sMap'⟩).all
  return resolveState sMap' (es.insertionSort fun e e' => e.part.start ≤ e'.part.start)

/-- What a tick does with the state map it has taken; it returns the one to put back. -/
def tickBody (sMap : Susp S) : Streaming S X (Susp S) := do
  let pMap ← readMVar playMV
  let busses ← readMVar busMV
  let sGlobalF ← readMVar globalFMV
  let bpm ← calling ops.getTempo
  let cps := ops.beatToCycles bpm / 60
  let r ← evaluate (tickEvents nowArc cps (sGlobalF (playStack pMap)) sMap)
  playEvents showDouble send cxs listen nudge ops busses r

/-- What a tick runs under its exception handler. -/
def tick : Streaming S X Unit := do
  let sMap ← takeMVar stateMV
  let sMap'' ← tickBody showDouble send cxs listen nowArc nudge ops sMap
  putMVar stateMV sMap''

/-- Queries the current pattern for the events in the current arc, translates them to OSC messages, and
sends these. If any exception occurs before or outside sending, this function prints a warning and resets
the current pattern to the previous one (or to silence if there isn't one) and continues. -/
def doTick : Streaming S X Unit :=
  handle (fun e => do
    hPutStrLn ("Failed to Stream.doTick: " ++ e)
    hPutStrLn "Return to previous pattern."
    setPreviousPatternOrSilence) (tick showDouble send cxs listen nowArc nudge ops)

end Tick

/-! ## Storing values from outside -/

/-- `streamSet`, with the `toValue` of the type of the pattern's values. -/
def streamSet [StateMap S] {α : Type} (toValue : α → Value S) (k : String) (pat : LivePattern S α) :
    Streaming S X Unit := do
  let sMap ← takeMVar stateMV
  let pat' := LivePattern.fmap toValue pat
  let sMap' := sMap.map (StateMap.insert k (.VPattern pat'))
  putMVar stateMV sMap'

/-- What a `/ctrl` message does (`Sound.Tidal.Stream.Listen`). -/
def add [StateMap S] (k : String) (v : Value S) : Streaming S X Unit := do
  let sMap ← takeMVar stateMV
  putMVar stateMV (sMap.map (StateMap.insert k v))

end Tidal
