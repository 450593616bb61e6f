import Tidal.Stream.UI
import Tidal.Lib.ReadSwap

/-!
# Transitions (`Sound.Tidal.Transition`)

A transition works out a pattern from the history of an id. It reads the play map, asks the clock, and
swaps in a play map with the new pattern.
-/

namespace Tidal

open Effect MVar

variable {S X : Type}

/-- Makes a pattern from the current time and a list of patterns, the newest first; evaluating the result
may raise an exception. -/
abbrev TransitionMapper (S : Type) := Time → List (ControlPattern S) → Susp (ControlPattern S)

section Transition

variable (historyFlag : Bool) (mapper : TransitionMapper S) (patId : String) (pat : ControlPattern S)

def appendPat (flag : Bool) (ps : List (ControlPattern S)) : List (ControlPattern S) :=
  if flag then pat :: ps else ps

/-- The play state of the id, with the new pattern in its history if the flag says so. -/
def transitionPS : Option (PlayState S) → PlayState S
  | some playState => { playState with psHistory := appendPat pat historyFlag playState.psHistory }
  | none => ⟨LivePattern.silence, false, false, appendPat pat historyFlag [LivePattern.silence]⟩

/-- The play map that is swapped in for `pMap`. -/
def transitionMap (t : Time) (pMap : PlayMap S) : Susp (PlayMap S) := do
  let playState := transitionPS historyFlag pat pMap[patId]?
  let pat' ← mapper t (appendPat pat (!historyFlag) playState.psHistory)
  return pMap.insert patId { playState with psPattern := pat' }

def transition (getCycleTime : X → Time × X) : Streaming S X Unit := do
  let pMap ← readMVar playMV
  let t ← calling getCycleTime
  let pMap' ← evaluate (transitionMap historyFlag mapper patId pat t pMap)
  let _ ← swapMVar playMV pMap'
  pure ()

/-- The accesses of a transition to the play map: it is read, and later taken and put back. -/
theorem transition_eq (getCycleTime : X → Time × X) :
    transition historyFlag mapper patId pat getCycleTime = (do
      let pMap ← readMVar playMV
      let t ← calling getCycleTime
      let pMap' ← evaluate (transitionMap historyFlag mapper patId pat t pMap)
      let _ ← takeMVar playMV
      putMVar playMV pMap' : Streaming S X Unit) := by
  simp only [transition, swapMVar, bind_assoc, pure_bind, bind_pure_unit]

end Transition

/-! ## Other threads -/

/-- An update of the play map by another thread, and the time at which it was worked out. -/
structure Update (S : Type) where
  command : Command S
  time : Time

variable [StateMap S]

/-- A transition while other threads update the play map. -/
abbrev Threads (S : Type) := ReadSwap.System (PlayMap S) (Update S)

/-- The play map after one update, and after several. -/
def Update.apply (u : Update S) (pMap : PlayMap S) : PlayMap S := u.command.effect u.time pMap

def updated (us : List (Update S)) (pMap : PlayMap S) : PlayMap S := ReadSwap.run Update.apply us pMap

/-- What a transition may make of the play map that it read: the clock shows some time. -/
def Makes (historyFlag : Bool) (mapper : TransitionMapper S) (patId : String) (pat : ControlPattern S)
    (pMap pMap' : PlayMap S) : Prop :=
  ∃ t, transitionMap historyFlag mapper patId pat t pMap = .ok pMap'

/-- The states of the threads that the accesses to the play map lead to, in whatever order they come. -/
def Interleaved (historyFlag : Bool) (mapper : TransitionMapper S) (patId : String)
    (pat : ControlPattern S) (pMap : PlayMap S) : Threads S → Prop :=
  ReadSwap.Reachable Update.apply (Makes historyFlag mapper patId pat) pMap

end Tidal
