import Tidal.Stream.Transition
import Tidal.Clock
import Tidal.Regular

/-!
# A performance

The clock hands one arc after another to the ticks. Between the ticks users and listeners update the
play map. Each tick queries the stack that plays then, with the state map that the tick before has left.
-/

namespace Tidal

open Effect

variable {S : Type}

/-- What leads up to a tick, and the tick: the updates of the play map, the arc and the tempo. -/
structure Beat (S : Type) where
  updates : List (Update S)
  nowArc : Time × Time
  cps : ℚ

/-- A tick as it was played: what it queried, with which controls, the state map that it leaves, and the
events that it goes on to process. -/
structure Played (S : Type) where
  nowArc : Time × Time
  patstack : ControlPattern S
  controls : Susp S
  left : Susp S
  events : List (Event (Susp (ValueMap S)))

/-- The ticks, one after another, up to one that raises an exception. `sGlobalF` is the global effect. -/
def perform [StateMap S] (sGlobalF : ControlPattern S → ControlPattern S) :
    List (Beat S) → PlayMap S → Susp S → Susp (List (Played S))
  | [], _, _ => .ok []
  | b :: bs, pMap, sMap => do
    let pMap' := updated b.updates pMap
    let patstack := sGlobalF (playStack pMap')
    let r ← tickEvents b.nowArc b.cps patstack sMap
    let ps ← perform sGlobalF bs pMap' r.1
    return ⟨b.nowArc, patstack, sMap.map (StateMap.insert "_cps" (.VF b.cps)), r.1, r.2⟩ :: ps

/-! ## A session -/

section Session

variable {X Udp Addr : Type} (showDouble : ℚ → String)
  (send : Option Udp → Cx S Udp Addr → ℚ → ℚ → Susp ℚ × Bool × Message → X → Susp Unit × X)
  (cxs : List (Cx S Udp Addr)) (listen : Option Udp) (nudge : ℚ) (ops : LinkOperations X)

/-- The updates, each at the time that the clock shows for it, and then the tick. -/
def Beat.play [StateMap S] [EmptyCollection S] (b : Beat S) : Streaming S X Unit := do
  forM_ b.updates fun u => u.command.run fun x => (u.time, x)
  doTick showDouble send cxs listen b.nowArc nudge ops

def session [StateMap S] [EmptyCollection S] (bs : List (Beat S)) : Streaming S X Unit :=
  forM_ bs fun b => b.play showDouble send cxs listen nudge ops

/-- What is left of a tick for the world outside: it asks for the tempo, processes the events and sends
their messages. -/
def Played.sound (busses : List ℤ) (p : Played S) : Streaming S X Unit := do
  let _ ← calling ops.getTempo
  let _ ← playEvents showDouble send cxs listen nudge ops busses (p.left, p.events)
  pure ()

end Session

end Tidal
