import Tidal.Stream.Process
import Tidal.Lib.Track

/-!
# The clock (`Sound.Tidal.Clock`)

The clock hands one arc of cycles after another to the tick action. It counts ticks of a fixed length
and leaves it to Link to say where the cycles are in time. What Link says is constant while one iteration
of the loop runs and may change between iterations; it comes in as a session, as do the times at which
the loop looks at the clock of Link.
-/

namespace Tidal.Clock

open Track

/-- Configuration of the clock. -/
structure ClockConfig where
  cQuantum : ℚ
  cBeatsPerCycle : ℚ
  cFrameTimespan : ℚ
  cSkipTicks : ℤ
  cProcessAhead : ℚ

def defaultConfig : ClockConfig where
  cFrameTimespan := 1 / 20
  cProcessAhead := 3 / 10
  cSkipTicks := 10
  cQuantum := 4
  cBeatsPerCycle := 4

/-- Internal mutable state of the clock. -/
structure ClockState where
  ticks : ℤ
  start : ℤ
  nowArc : Time × Time
  nudged : ℚ

/-- Possible actions for interacting with the clock. -/
inductive ClockAction where
  | NoAction
  | SetCycle (cyc : Time)
  | SetTempo (bpm : Time)
  | SetNudge (n : ℚ)

/-- A captured session of Link, for a given quantum, with maps taken as exact: later beats are not earlier in
time, and the time of the beat at a time is that time. Link itself counts whole millionths of a beat; below 60
beats a minute these are longer than the microseconds they are mapped to, and the second law fails. -/
structure SessionState where
  timeAtBeat : ℚ → ℚ → ℤ
  beatAtTime : ℤ → ℚ → ℚ
  timeAtBeat_mono : ∀ quantum, Monotone fun beat => timeAtBeat beat quantum
  timeAtBeat_beatAtTime : ∀ quantum time, timeAtBeat (beatAtTime time quantum) quantum = time

/-- What an iteration of the loop meets: the action that waits for it, the time when that is processed,
the session after it, and the time of the tick. -/
structure Iteration where
  action : ClockAction
  actionNow : ℤ
  ss : SessionState
  tickNow : ℤ

/-- What is to be seen of the clock from outside. -/
inductive Output where
  | setCycle (cyc : Time)
  | action (nowArc : Time × Time) (nudged : ℚ)
  | stderr (text : String)
  | threadDelay (micros : ℤ)
deriving DecidableEq

/-! ## Helper functions -/

def arcEnd (a : Time × Time) : Time := a.2

def timeToCycles' (config : ClockConfig) (ss : SessionState) (time : ℤ) : Time :=
  ss.beatAtTime time config.cQuantum / config.cBeatsPerCycle

/-- At what time does the cycle occur according to Link? -/
def cyclesToTime (config : ClockConfig) (ss : SessionState) (cyc : Time) : ℤ :=
  ss.timeAtBeat (cyc * config.cBeatsPerCycle) config.cQuantum

def frameTimespan (config : ClockConfig) : ℤ := round (config.cFrameTimespan * 1000000)

/-- Time is processed at a fixed rate according to configuration; this is the time when a tick starts,
based on when processing first started. -/
def logicalTime (config : ClockConfig) (startTime : ℤ) (ticks' : ℤ) : ℤ :=
  startTime + ticks' * frameTimespan config

/-! ## The loop -/

/-- The state that `initClock` starts with. -/
def initState (now : ℤ) : ClockState := ⟨0, now, (0, 0), 0⟩

/-- A tempo is for Link alone to know; a new cycle also restarts the count of ticks. -/
def processAction (it : Iteration) (st : ClockState) : ClockState :=
  match it.action with
  | .NoAction => st
  | .SetNudge n => { st with nudged := n }
  | .SetTempo _ => st
  | .SetCycle cyc => { st with ticks := 0, start := it.actionNow, nowArc := (cyc, cyc) }

/-- `tick` moves the logical time forward or recalculates the ticks in case the logical time is out of
sync with Link time. It delays the thread when logical time is ahead of Link time. With a frame of no
length the division raises, and the thread ends. -/
def tick (config : ClockConfig) (it : Iteration) (st : ClockState) :
    List Output × Option ClockState :=
  let processAhead := round (config.cProcessAhead * 1000000)
  let preferredNewTick := st.ticks + 1
  let logicalNow := logicalTime config st.start preferredNewTick
  let aheadOfNow := it.tickNow + processAhead
  if frameTimespan config = 0 then ([], none)
  else
    let actualTick := (aheadOfNow - st.start).fdiv (frameTimespan config)
    let drifted := |actualTick - preferredNewTick| > config.cSkipTicks
    let newTick := if drifted then actualTick else preferredNewTick
    let delta := min (frameTimespan config) (logicalNow - aheadOfNow)
    (if drifted then [.stderr ("skip: " ++ toString (actualTick - st.ticks))]
      else if delta > 0 then [.threadDelay delta] else [], some { st with ticks := newTick })

/-- Hands the arc from the end of the last one to the end of the tick to the action. -/
def clockProcess (config : ClockConfig) (it : Iteration) (st : ClockState) :
    List Output × Option ClockState :=
  let logicalEnd := logicalTime config st.start (st.ticks + 1)
  let startCycle := arcEnd st.nowArc
  let endCycle := timeToCycles' config it.ss logicalEnd
  let st' := { st with nowArc := (startCycle, endCycle) }
  let (os, st'') := tick config it st'
  (.action st'.nowArc st'.nudged :: os, st'')

/-- The rest of an iteration, after the action has been processed. -/
def checkArc (config : ClockConfig) (it : Iteration) (st : ClockState) :
    List Output × Option ClockState :=
  let logicalEnd := logicalTime config st.start (st.ticks + 1)
  let nextArcStartCycle := arcEnd st.nowArc
  let arcStartTime := cyclesToTime config it.ss nextArcStartCycle
  if arcStartTime < logicalEnd then clockProcess config it st else tick config it st

/-- One iteration of `clockCheck`, up to where it begins again. -/
def clockCheck (config : ClockConfig) (it : Iteration) (st : ClockState) :
    List Output × Option ClockState :=
  let (os, st') := checkArc config it (processAction it st)
  match it.action with
  | .SetCycle cyc => (.setCycle cyc :: os, st')
  | _ => (os, st')

/-- What is to be seen of the loop, iteration after iteration, for as long as the thread runs. -/
def run (config : ClockConfig) (st : ClockState) : List Iteration → List Output
  | [] => []
  | it :: its =>
    match clockCheck config it st with
    | (os, some st') => os ++ run config st' its
    | (os, none) => os

/-! ## The track of a run -/

/-- A cycle that is set is a jump, and an arc that is handed over is covered. -/
def Output.step : Output → Option (Step Time)
  | .setCycle cyc => some (.jump cyc)
  | .action nowArc _ => some (.span nowArc.1 nowArc.2)
  | _ => none

def track (os : List Output) : List (Step Time) := os.filterMap Output.step

/-- The arcs that are handed to the tick action. -/
def arcs (os : List Output) : List (Time × Time) := spans (track os)

end Tidal.Clock
