import Tidal.Stream.Transition
import Tidal.Lib.LockOrder
import Tidal.Lib.Serial

/-!
# The threads of a stream

The clock's thread ticks, a thread listens to messages, and users call the functions of `Stream.UI` and
`Transition` from threads of their own. They share the variables of the stream. Here each of these is a
program: between two of its accesses to the variables any other thread may run. What a program does
between its accesses is about the clock, the network and the printing, and is one step.
-/

namespace Tidal

open Effect MVar Concurrent

/-- The shared variables of a stream. -/
inductive Name where
  | stateMV
  | busMV
  | playMV
  | globalFMV
deriving DecidableEq

/-- What a variable holds. -/
abbrev Name.Val (S : Type) : Name → Type
  | stateMV => Susp S
  | busMV => List ℤ
  | playMV => PlayMap S
  | globalFMV => ControlPattern S → ControlPattern S

/-- Where it is in the world. -/
def Name.var {S X : Type} : (n : Name) → MVar (World S X) (n.Val S)
  | stateMV => Tidal.stateMV
  | busMV => Tidal.busMV
  | playMV => Tidal.playMV
  | globalFMV => Tidal.globalFMV

def streamVars (S X : Type) : Vars Name (World S X) where
  Val := Name.Val S
  var := Name.var
  apart l l' h := by
    intro b w
    cases l <;> cases l' <;> first | exact absurd rfl h | rfl

/-- The program of a thread. -/
abbrev Thread (S X : Type) := Prog (streamVars S X) SomeException

namespace Thread

open Prog

variable {S X Udp Addr : Type}

/-! The accesses. -/

def take (n : Name) : Thread S X (n.Val S) := takeVar n

def put (n : Name) (b : n.Val S) : Thread S X Unit := putVar n b

def read (n : Name) : Thread S X (n.Val S) := readVar n

def swap (n : Name) (b : n.Val S) : Thread S X (n.Val S) := swapVar n b

/-- `modifyMVar_` -/
def modify (n : Name) (f : n.Val S → Thread S X (n.Val S)) : Thread S X Unit := do
  let b ← take n
  let b' ← Prog.handle (fun e => do put n b; .fail e) (f b)
  put n b'

def setPreviousPatternOrSilence : Thread S X Unit :=
  modify .playMV fun pMap => pure (pMap.map fun _ pState => previousPattern pState)

section Tick

variable [StateMap S] (showDouble : ℚ → String)
  (send : Option Udp → Cx S Udp Addr → ℚ → ℚ → Susp ℚ × Bool × Message → X → Susp Unit × X)
  (cxs : List (Cx S Udp Addr)) (listen : Option Udp) (nowArc : Time × Time) (nudge : ℚ)
  (ops : LinkOperations X)

def tick : Thread S X Unit := do
  let sMap ← take Name.stateMV
  let pMap ← read Name.playMV
  let busses ← read Name.busMV
  let sGlobalF ← read Name.globalFMV
  let bpm ← lift (calling ops.getTempo)
  let cps := ops.beatToCycles bpm / 60
  let r ← lift (evaluate (tickEvents nowArc cps (sGlobalF (playStack pMap)) sMap))
  let sMap'' ← lift (playEvents showDouble send cxs listen nudge ops busses r)
  put Name.stateMV sMap''

def doTick : Thread S X Unit :=
  Prog.handle (fun e => do
    lift (hPutStrLn ("Failed to Stream.doTick: " ++ e))
    lift (hPutStrLn "Return to previous pattern.")
    setPreviousPatternOrSilence) (tick showDouble send cxs listen nowArc nudge ops)

end Tick

section UI

variable [StateMap S]

def updatePattern [EmptyCollection S] (k : String) (t : Time) (pat : ControlPattern S) :
    Thread S X Unit := do
  let _ ← lift (evaluate (pat.queryArc ⟨0, 0⟩).first)
  let pMap ← take Name.playMV
  put Name.playMV (pMap.insert k (updatePS k t pat pMap[k]?))

def streamReplace [EmptyCollection S] (getCycleTime : X → Time × X) (k : String)
    (pat : ControlPattern S) : Thread S X Unit := do
  let t ← lift (calling getCycleTime)
  Prog.handle (fun e => do
    lift (hPutStrLn ("Failed to Stream.streamReplace: " ++ e))
    lift (hPutStrLn "Return to previous pattern.")
    setPreviousPatternOrSilence) (updatePattern k t pat)

def withPatIds (ks : List String) (f : PlayState S → PlayState S) : Thread S X Unit := do
  let playMap ← take Name.playMV
  put Name.playMV (updateIds ks f playMap)

def withAll (f : PlayState S → PlayState S) : Thread S X Unit :=
  modify Name.playMV fun pMap => pure (Std.ExtTreeMap.map (fun _ x => f x) pMap)

/-- `streamSet`, and what a `/ctrl` message does. -/
def store (k : String) (v : Value S) : Thread S X Unit := do
  let sMap ← take Name.stateMV
  put Name.stateMV (sMap.map (StateMap.insert k v))

/-- The updates of the play map by users. -/
def command [EmptyCollection S] (getCycleTime : X → Time × X) : Command S → Thread S X Unit
  | .replace k pat => streamReplace getCycleTime k pat
  | .onIds ks c => withPatIds ks c.apply
  | .onAll c => withAll c.apply
  | .rollback => setPreviousPatternOrSilence

end UI

/-- A transition reads the play map and swaps in another one later. -/
def transition (historyFlag : Bool) (mapper : TransitionMapper S) (patId : String)
    (pat : ControlPattern S) (getCycleTime : X → Time × X) : Thread S X Unit := do
  let pMap ← read Name.playMV
  let t ← lift (calling getCycleTime)
  let pMap' ← lift (evaluate (transitionMap historyFlag mapper patId pat t pMap))
  let _ ← swap Name.playMV pMap'
  pure ()

end Thread

/-! ## What threads do -/

/-- One thing that a thread does: a tick, a function of a user, or what a message asks for. -/
inductive Job (S X : Type) where
  | doTick (nowArc : Time × Time) (nudge : ℚ) (ops : LinkOperations X)
  | command (c : Command S)
  /-- `streamSet`, and a `/ctrl` message. -/
  | store (k : String) (v : Value S)
  | streamAll (f : ControlPattern S → ControlPattern S)
  /-- The reply to a handshake. -/
  | busses (indices : List ℤ)
  /-- `streamList`, `streamGet` and the check for a handshake read a variable. -/
  | look (n : Name)
  | transition (historyFlag : Bool) (mapper : TransitionMapper S) (patId : String)
      (pat : ControlPattern S)

section Jobs

variable {S X Udp Addr : Type} [StateMap S] [EmptyCollection S] (showDouble : ℚ → String)
  (send : Option Udp → Cx S Udp Addr → ℚ → ℚ → Susp ℚ × Bool × Message → X → Susp Unit × X)
  (cxs : List (Cx S Udp Addr)) (listen : Option Udp) (getCycleTime : X → Time × X)

def Job.thread : Job S X → Thread S X Unit
  | doTick nowArc nudge ops => Thread.doTick showDouble send cxs listen nowArc nudge ops
  | command c => Thread.command getCycleTime c
  | store k v => Thread.store k v
  | streamAll f => do
    let _ ← Thread.swap .globalFMV f
    pure ()
  | busses indices => do
    let _ ← Thread.swap .busMV indices
    pure ()
  | look n => do
    let _ ← Thread.read n
    pure ()
  | transition historyFlag mapper patId pat =>
    Thread.transition historyFlag mapper patId pat getCycleTime

/-- The job as an action of a thread that runs alone. -/
def Job.action : Job S X → Streaming S X Unit
  | doTick nowArc nudge ops => Tidal.doTick showDouble send cxs listen nowArc nudge ops
  | command c => c.run getCycleTime
  | store k v => add k v
  | streamAll f => do
    let _ ← swapMVar globalFMV f
    pure ()
  | busses indices => do
    let _ ← swapMVar busMV indices
    pure ()
  | look n => do
    let _ ← readMVar n.var
    pure ()
  | transition historyFlag mapper patId pat =>
    Tidal.transition historyFlag mapper patId pat getCycleTime

/-- One job after the other. -/
def Thread.jobs : List (Job S X) → Thread S X Unit
  | [] => pure ()
  | j :: js => do
    j.thread showDouble send cxs listen getCycleTime
    Thread.jobs js

/-- The threads of a stream, each with its jobs. -/
def streamPool {ι : Type} (w : World S X) (js : ι → List (Job S X)) :
    Pool (streamVars S X) SomeException ι :=
  ⟨w, fun i => Thread.jobs showDouble send cxs listen getCycleTime (js i)⟩

end Jobs

/-- No variable is taken. -/
def World.Full {S X : Type} (w : World S X) : Prop := ∀ n : Name, (n.var.get w).isSome

/-! ## What a tick did

A thread that ticks takes and reads the variables one after the other, and what it found there decides how the
tick ends. -/

/-- What a step of a thread of the stream did. -/
abbrev StreamLabel (S X : Type) := Prog.Label (streamVars S X)

/-- What a tick finds in the variables, and the worlds before and after it asks for the tempo. -/
structure Found (S X : Type) where
  sMap : Susp S
  pMap : PlayMap S
  busses : List ℤ
  sGlobalF : ControlPattern S → ControlPattern S
  asked : World S X
  told : World S X

namespace Found

variable {S X Udp Addr : Type} [StateMap S]

def did (f : Found S X) : List (StreamLabel S X) :=
  [.took Name.stateMV f.sMap, .read Name.playMV f.pMap, .read Name.busMV f.busses,
    .read Name.globalFMV f.sGlobalF, .acted f.asked f.told]

/-- The events of the tick: those of the pattern that the play map and the global function play. -/
def events (nowArc : Time × Time) (ops : LinkOperations X) (f : Found S X) :
    Susp (Susp S × List (Event (Susp (ValueMap S)))) :=
  tickEvents nowArc (ops.beatToCycles (ops.getTempo f.asked.outside).1 / 60) (f.sGlobalF (playStack f.pMap)) f.sMap

variable (showDouble : ℚ → String)
  (send : Option Udp → Cx S Udp Addr → ℚ → ℚ → Susp ℚ × Bool × Message → X → Susp Unit × X)
  (cxs : List (Cx S Udp Addr)) (listen : Option Udp)

/-- The thread did this for a tick that returned, and put back the state map `sMap'` that its events have left. -/
def Returned (nowArc : Time × Time) (nudge : ℚ) (ops : LinkOperations X) (f : Found S X) (sMap' : Susp S)
    (as : List (StreamLabel S X)) : Prop :=
  ∃ es w w₁ w₂, as = f.did ++ [.acted w w, .acted w₁ w₂, .put Name.stateMV sMap'] ∧
    f.events nowArc ops = .ok (sMap', es) ∧
    playEvents showDouble send cxs listen nudge ops f.busses (sMap', es) w₁ = .returned sMap' w₂

/-- The thread did this for a tick that failed: evaluating the pattern that plays or playing its events raised an
exception. -/
def Failed (nowArc : Time × Time) (nudge : ℚ) (ops : LinkOperations X) (f : Found S X)
    (as : List (StreamLabel S X)) : Prop :=
  (∃ e w, as = f.did ++ [.acted w w] ∧ f.events nowArc ops = .error e) ∨
  ∃ r e w w₁ w₂, as = f.did ++ [.acted w w, .acted w₁ w₂] ∧ f.events nowArc ops = .ok r ∧
    playEvents showDouble send cxs listen nudge ops f.busses r w₁ = .raised e w₂

end Found

section Done

variable {S X Udp Addr : Type} [StateMap S] (showDouble : ℚ → String)
  (send : Option Udp → Cx S Udp Addr → ℚ → ℚ → Susp ℚ × Bool × Message → X → Susp Unit × X)
  (cxs : List (Cx S Udp Addr)) (listen : Option Udp) (getCycleTime : X → Time × X)

/-- The job is a tick that failed after what its thread did for it. -/
def Job.Lost (u : Job S X × List (StreamLabel S X)) : Prop :=
  match u.1 with
  | doTick nowArc nudge ops => ∃ f : Found S X, f.Failed showDouble send cxs listen nowArc nudge ops u.2
  | _ => False

/-- What a job makes of the state map, with what its thread did for it: a tick that returns leaves the state map
as the events of the pattern that it found leave the state map that it found. -/
def Job.Stores (u : Job S X × List (StreamLabel S X)) (sMap sMap' : Susp S) : Prop :=
  match u.1 with
  | store k v => sMap' = sMap.map (StateMap.insert k v)
  | doTick nowArc nudge ops => ∃ f : Found S X, f.sMap = sMap ∧
      f.Returned showDouble send cxs listen nowArc nudge ops sMap' u.2
  | _ => sMap' = sMap

end Done

/-- The job is no transition. -/
def Job.plain {S X : Type} : Job S X → Bool
  | transition _ _ _ _ => false
  | _ => true

end Tidal
