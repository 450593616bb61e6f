import Tidal.Pattern
import Tidal.Lib.Effect
import Tidal.Lib.Yielded

/-!
# The types of a stream (`Sound.Tidal.Stream.Types`)

A stream plays patterns that are written live, so evaluating one may raise an exception. What the source
holds unevaluated is an `Except` here: what evaluating it gives. Doubles are rationals.

`S` is the type of the state map, and of the map of controls that comes with a query. It is a parameter:
a value of such a map may be a function on the map itself.
-/

namespace Tidal

/-- An exception, as `show` prints it. -/
abbrev SomeException := String

/-- A value held unevaluated. Unlike `Lazy` it says which exception evaluating it raises. -/
abbrev Susp (α : Type) := Except SomeException α

/-! ## Maps -/

/-- A map from names; two maps with the same entries are equal. -/
abbrev Map (α : Type) := Std.ExtTreeMap String α

namespace Map

variable {α β σ : Type}

/-- The elements in ascending order of their keys. -/
def elems (m : Map α) : List α := m.values

/-- The left-biased union. -/
def union (m m' : Map α) : Map α := Std.ExtTreeMap.union m' m

/-- Applies a function to every key; of two keys that become one, the greater keeps its value. -/
def mapKeys (f : String → String) (m : Map α) : Map α :=
  Std.ExtTreeMap.ofList (m.toList.map fun x => (f x.1, x.2))

/-- Threads an accumulator through the map in ascending order of keys. -/
def mapAccum (f : σ → α → Susp (σ × β)) (s : σ) (m : Map α) : Susp (σ × Map β) :=
  m.foldlM (fun acc k v => do
    let r ← f acc.1 v
    return (r.1, acc.2.insert k r.2)) (s, ∅)

end Map

/-! ## Values and control patterns -/

/-- A pattern whose query may raise an exception as its answer is read, and so may the evaluation of an event's
value. -/
structure LivePattern (S α : Type) where
  query : State (Except SomeException S) → Yielded SomeException (EventF Arc (Except SomeException α))

/-- Polymorphic values. A `VState` function is given the state map, and both the map and the value it
returns are held unevaluated. -/
inductive Value (S : Type) where
  | VS (svalue : String)
  | VF (fvalue : ℚ)
  | VN (nvalue : ℚ)
  | VR (rvalue : ℚ)
  | VI (ivalue : ℤ)
  | VB (bvalue : Bool)
  | VX (xvalue : List UInt8)
  | VPattern (pvalue : LivePattern S (Value S))
  | VList (lvalue : List (Value S))
  | VState (statevalue : Except SomeException S →
      Except SomeException (Except SomeException S × Value S))

abbrev ValueMap (S : Type) := Map (Value S)

abbrev ControlPattern (S : Type) := LivePattern S (ValueMap S)

/-- A state map that values are stored in by name. -/
class StateMap (S : Type) where
  insert : String → Value S → S → S

namespace Value

variable {S T : Type}

def getI : Value S → Option ℤ
  | VI i => some i
  | VR x => some ⌊x⌋
  | VF x => some ⌊x⌋
  | _ => none

def getF : Value S → Option ℚ
  | VF f => some f
  | VR x => some x
  | VI x => some x
  | _ => none

def getS : Value S → Option String
  | VS s => some s
  | _ => none

def notVState : Value S → Bool
  | VState _ => false
  | _ => true

/-- The values that hold no pattern, list or function, which are the same over every state map. -/
def scalar : Value S → Option (Value T)
  | VS s => some (VS s)
  | VF x => some (VF x)
  | VN x => some (VN x)
  | VR x => some (VR x)
  | VI i => some (VI i)
  | VB b => some (VB b)
  | VX xs => some (VX xs)
  | _ => none

end Value

/-- A state map of scalars. -/
instance : StateMap (ValueMap Empty) where
  insert k v m := match v.scalar with
    | some v' => Std.ExtTreeMap.insert m k v'
    | none => m

namespace LivePattern

variable {S α β : Type}

def silence : LivePattern S α := ⟨fun _ => .ofList []⟩

/-- `<>`: both patterns at the same time. -/
def overlay (p p' : LivePattern S α) : LivePattern S α :=
  ⟨fun st => (p.query st).append (p'.query st)⟩

def stack (pats : List (LivePattern S α)) : LivePattern S α := pats.foldr overlay silence

def fmap (f : α → β) (p : LivePattern S α) : LivePattern S β :=
  ⟨fun st => (p.query st).map (EventF.map (Except.map f))⟩

/-- The values of two events together, in the intersection of their parts. -/
def withFXWhole (ef : EventF Arc (Susp (α → β))) (ex : EventF Arc (Susp α)) :
    Option (EventF Arc (Susp β)) := do
  let part' ← subArc ef.part ex.part
  return ⟨combineContexts [ef.context, ex.context], ef.whole, part', do return (← ef.value) (← ex.value)⟩

/-- `<*`: the wholes come from the left. -/
def apLeft (pf : LivePattern S (α → β)) (px : LivePattern S α) : LivePattern S β :=
  ⟨fun st => (pf.query st).flatMap fun ef =>
    (px.query { st with arc := ef.wholeOrPart }).filterMap (withFXWhole ef)⟩

def withQueryControls (f : S → S) (p : LivePattern S α) : LivePattern S α :=
  ⟨fun st => p.query { st with controls := st.controls.map f }⟩

def queryArc [EmptyCollection S] (p : LivePattern S α) (a : Arc) :
    Yielded SomeException (EventF Arc (Susp α)) := p.query ⟨a, .ok ∅⟩

/-- A pattern that raises nothing. -/
def ofPattern (p : Pattern (Susp S) α) : LivePattern S α :=
  ⟨fun st => .ofList ((p.query st).map (EventF.map .ok))⟩

end LivePattern

namespace ControlPattern

variable {S : Type}

/-- `#`: the controls of the right pattern are added to the events of the left one, in place of those of
the same name. -/
def add (a b : ControlPattern S) : ControlPattern S :=
  LivePattern.apLeft (LivePattern.fmap (fun x y => Map.union y x) a) b

/-- A control of strings. -/
def pS (name : String) (p : LivePattern S String) : ControlPattern S :=
  LivePattern.fmap (fun s => (∅ : ValueMap S).insert name (.VS s)) p

end ControlPattern

/-! ## Targets -/

inductive StampStyle where
  | BundleStamp
  | MessageStamp
deriving DecidableEq

inductive Schedule where
  | Pre (style : StampStyle)
  | Live
deriving DecidableEq

structure Target where
  oName : String
  oLatency : ℚ
  oSchedule : Schedule

inductive Args (S : Type) where
  | Named (requiredArgs : List String)
  | ArgList (as : List (String × Option (Value S)))

set_option linter.dupNamespace false in
inductive OSC (S : Type) where
  | OSC (path : String) (args : Args S)
  | OSCContext (path : String)

structure Cx (S Udp Addr : Type) where
  cxTarget : Target
  cxUDP : Udp
  cxOSCs : List (OSC S)
  cxAddr : Addr
  cxBusAddr : Option Addr

inductive Datum where
  | float (x : ℚ)
  | int32 (n : ℤ)
  | string (s : String)
  | blob (xs : List UInt8)

/-- A message; its arguments are evaluated when it is sent. -/
structure Message where
  messageAddress : String
  messageDatum : List (Susp Datum)

/-! ## The state of a stream -/

structure PlayState (S : Type) where
  psPattern : ControlPattern S
  psMute : Bool
  psSolo : Bool
  psHistory : List (ControlPattern S)

abbrev PlayMap (S : Type) := Map (PlayState S)

/-- What the threads of a stream share: its MVars, the world outside (the Link session and the network)
and what has been printed to `stderr`. -/
structure World (S X : Type) where
  sStateMV : Option (Susp S)
  sBusses : Option (List ℤ)
  sPMapMV : Option (PlayMap S)
  sGlobalFMV : Option (ControlPattern S → ControlPattern S)
  outside : X
  stderr : List String

/-- The actions of a stream. -/
abbrev Streaming (S X : Type) := Effect (World S X) SomeException

variable {S X α : Type}

def stateMV : MVar (World S X) (Susp S) :=
  ⟨World.sStateMV, fun b w => { w with sStateMV := b }, fun _ _ => rfl⟩

def busMV : MVar (World S X) (List ℤ) :=
  ⟨World.sBusses, fun b w => { w with sBusses := b }, fun _ _ => rfl⟩

def playMV : MVar (World S X) (PlayMap S) :=
  ⟨World.sPMapMV, fun b w => { w with sPMapMV := b }, fun _ _ => rfl⟩

def globalFMV : MVar (World S X) (ControlPattern S → ControlPattern S) :=
  ⟨World.sGlobalFMV, fun b w => { w with sGlobalFMV := b }, fun _ _ => rfl⟩

/-- Evaluates a value where it is needed. -/
def evaluate (x : Susp α) : Streaming S X α := fun w =>
  match x with
  | .ok a => .returned a w
  | .error e => .raised e w

/-- Calls the world outside; a call that cannot fail. -/
def calling (f : X → α × X) : Streaming S X α := fun w =>
  .returned (f w.outside).1 { w with outside := (f w.outside).2 }

/-- Calls the world outside; the call may raise an exception. -/
def callingE (f : X → Susp α × X) : Streaming S X α := do
  let r ← calling f
  evaluate r

/-- `hPutStrLn stderr` -/
def hPutStrLn (s : String) : Streaming S X Unit := fun w =>
  .returned () { w with stderr := w.stderr ++ [s] }

end Tidal
