import Tidal.Proofs.ClockProofs

/-!
# Proofs: the pace of the clock

A tick moves the logical time on by a frame and sleeps for as long as the logical time is ahead of Link,
a frame at most. So if Link's clock does not go back and the thread sleeps for as long as it is asked to,
the logical time has come when the thread is awake again: this is the invariant. How far the logical
time may fall behind is bounded by the ticks that may be skipped.
-/

namespace Tidal.Clock

variable {config : ClockConfig} {it : Iteration} {st st' : ClockState} {os : List Output}

def Output.delay : Output → ℤ
  | .threadDelay micros => micros
  | _ => 0

/-- For how long the thread sleeps. -/
def slept (os : List Output) : ℤ := (os.map Output.delay).sum

/-- The margin by which arcs are processed ahead of Link's time. -/
def processAhead (config : ClockConfig) : ℤ := round (config.cProcessAhead * 1000000)

/-- The iteration comes after `wake`, and the clock of Link does not go back in it. -/
structure Iteration.After (it : Iteration) (wake : ℤ) : Prop where
  wake_le : wake ≤ it.actionNow
  actionNow_le : it.actionNow ≤ it.tickNow

/-- The states between iterations, each with a time at which the thread is awake again: it sleeps at
least for as long as it asked to. -/
inductive Paced (config : ClockConfig) : ClockState → ℤ → Prop
  | start (now : ℤ) : Paced config (initState now) now
  | step {st : ClockState} {wake : ℤ} {it : Iteration} {os : List Output} {st' : ClockState} (wake' : ℤ) :
      Paced config st wake → it.After wake → clockCheck config it st = (os, some st') →
      it.tickNow + slept os ≤ wake' → Paced config st' wake'

/-! ## One tick -/

theorem round_nonneg {x : ℚ} (h : 0 ≤ x) : 0 ≤ round x := by
  have hfloor : 0 ≤ ⌊x⌋ := Int.floor_nonneg.mpr h
  simp only [round]
  split_ifs <;> omega

/-- The logical time lies within a tick that is reached at the time `ahead`. -/
theorem logicalTime_fdiv (hframe : 0 < frameTimespan config) (start ahead : ℤ) :
    logicalTime config start ((ahead - start).fdiv (frameTimespan config)) ≤ ahead ∧
      ahead < logicalTime config start ((ahead - start).fdiv (frameTimespan config) + 1) := by
  rw [Int.fdiv_eq_ediv_of_nonneg _ hframe.le, logicalTime, logicalTime]
  have hle := Int.ediv_mul_le (ahead - start) hframe.ne'
  have hlt := Int.lt_ediv_add_one_mul_self (ahead - start) hframe
  omega

theorem logicalTime_le (hframe : 0 < frameTimespan config) (start : ℤ) {m n : ℤ} (h : m ≤ n) :
    logicalTime config start m ≤ logicalTime config start n :=
  add_le_add_right (mul_le_mul_of_nonneg_right h hframe.le) start

theorem logicalTime_add (config : ClockConfig) (start m n : ℤ) :
    logicalTime config start (m + n) = logicalTime config start m + n * frameTimespan config := by
  rw [logicalTime, logicalTime, add_mul, add_assoc]

/-- The thread keeps in step: when it is awake, the logical time has come. -/
def InStep (config : ClockConfig) (st : ClockState) (wake : ℤ) : Prop :=
  logicalTime config st.start st.ticks ≤ wake + processAhead config

/-- What a tick does for the time, from a state that is in step. -/
structure Keeps (config : ClockConfig) (now : ℤ) (st st' : ClockState) (os : List Output) : Prop where
  start : st'.start = st.start
  forward : st.ticks + 1 ≤ st'.ticks
  delay_nonneg : 0 ≤ slept os
  delay_le : slept os ≤ frameTimespan config
  inStep : InStep config st' (now + slept os)
  behind : now + processAhead config <
    logicalTime config st'.start st'.ticks + (config.cSkipTicks + 1) * frameTimespan config

theorem keeps_tick (hframe : 0 < frameTimespan config) (hskip : 1 ≤ config.cSkipTicks)
    (hstep : InStep config st it.tickNow) (h : tick config it st = (os, some st')) :
    Keeps config it.tickNow st st' os := by
  set ahead := it.tickNow + processAhead config with hahead
  set actual := (ahead - st.start).fdiv (frameTimespan config) with hactual
  obtain ⟨hle, hlt⟩ := logicalTime_fdiv hframe st.start ahead
  rw [← hactual] at hle hlt
  have hnow : logicalTime config st.start st.ticks ≤ ahead := hstep
  -- the logical time before the tick is not in the future, so no tick is to be taken back
  have hnotback : st.ticks ≤ actual := by
    by_contra hback
    have := logicalTime_le hframe st.start (show actual + 1 ≤ st.ticks by omega)
    omega
  simp only [tick] at h
  rw [if_neg hframe.ne'] at h
  change (if |actual - (st.ticks + 1)| > config.cSkipTicks then _ else _, _) = (os, some st') at h
  obtain ⟨hos, hst⟩ := Prod.mk.inj h
  have hstart : st'.start = st.start := by rw [← Option.some.inj hst]
  have hticks : st'.ticks =
      if |actual - (st.ticks + 1)| > config.cSkipTicks then actual else st.ticks + 1 := by
    rw [← Option.some.inj hst]
    rfl
  by_cases hdrift : |actual - (st.ticks + 1)| > config.cSkipTicks
  · -- the ticks in between are skipped
    rw [if_pos hdrift] at hos hticks
    rw [gt_iff_lt, lt_abs] at hdrift
    have hslept : slept os = 0 := by rw [← hos]; rfl
    have hnext := logicalTime_add config st.start actual 1
    have hbound : 0 ≤ config.cSkipTicks * frameTimespan config :=
      mul_nonneg (zero_le_one.trans hskip) hframe.le
    refine ⟨hstart, by omega, hslept.ge, hslept.le.trans hframe.le, ?_, ?_⟩
    · rw [InStep, hstart, hticks, hslept, add_zero]
      exact hle
    · rw [hstart, hticks, add_mul]
      omega
  · rw [if_neg hdrift] at hos hticks
    rw [gt_iff_lt, not_lt, abs_le] at hdrift
    have hnext := logicalTime_add config st.start st.ticks 1
    -- the thread sleeps until the logical time has come
    have hslept : slept os = max 0 (min (frameTimespan config)
        (logicalTime config st.start (st.ticks + 1) - ahead)) := by
      rw [← hos]
      split_ifs with hpos
      · exact (add_zero _).trans (max_eq_right hpos.le).symm
      · exact (max_eq_left (not_lt.mp hpos)).symm
    have hbehind : ahead < logicalTime config st.start (st.ticks + 1) +
        (config.cSkipTicks + 1) * frameTimespan config := by
      rw [← logicalTime_add]
      exact hlt.trans_le (logicalTime_le hframe st.start (by omega))
    refine ⟨hstart, hticks.ge, by omega, by omega, ?_, ?_⟩
    · rw [InStep, hstart, hticks]
      omega
    · rw [hstart, hticks]
      exact hbehind

/-! ## One iteration -/

theorem inStep_processAction {wake : ℤ} (hahead : 0 ≤ config.cProcessAhead) (hstep : InStep config st wake)
    (hit : it.After wake) : InStep config (processAction it st) it.tickNow := by
  have hnonneg : 0 ≤ processAhead config := round_nonneg (by positivity)
  have hwake := hit.wake_le
  have hnow := hit.actionNow_le
  have hkept : InStep config st it.tickNow := by
    rw [InStep] at hstep ⊢
    omega
  cases hact : it.action with
  | SetCycle cyc =>
    simp only [InStep, processAction, hact, logicalTime]
    omega
  | _ =>
    simp only [processAction, hact]
    exact hkept

/-- The end of an arc that is handed over: the time of the tick after the next, seen from Link. -/
def EndsInTime (config : ClockConfig) (it : Iteration) (st : ClockState) (os : List Output) : Prop :=
  ∀ nowArc nudge, .action nowArc nudge ∈ os →
    cyclesToTime config it.ss nowArc.2 = logicalTime config st.start (st.ticks + 1) ∧
      cyclesToTime config it.ss nowArc.2 ≤ it.tickNow + processAhead config + frameTimespan config

theorem cyclesToTime_timeToCycles' (h : 0 < config.cBeatsPerCycle) (ss : SessionState) (time : ℤ) :
    cyclesToTime config ss (timeToCycles' config ss time) = time := by
  rw [cyclesToTime, timeToCycles', div_mul_cancel₀ _ h.ne', ss.timeAtBeat_beatAtTime]

theorem not_action_tick (h : tick config it st = (os, some st')) (nowArc : Time × Time) (nudge : ℚ) :
    .action nowArc nudge ∉ os := by
  simp only [tick] at h
  split_ifs at h
  all_goals
    obtain rfl := (Prod.mk.inj h).1
    simp

theorem keeps_checkArc (hframe : 0 < frameTimespan config) (hskip : 1 ≤ config.cSkipTicks)
    (hbeats : 0 < config.cBeatsPerCycle) (hstep : InStep config st it.tickNow)
    (h : checkArc config it st = (os, some st')) :
    Keeps config it.tickNow st st' os ∧ EndsInTime config it st os := by
  simp only [checkArc] at h
  split_ifs at h
  · -- an arc is handed over
    set endCycle := timeToCycles' config it.ss (logicalTime config st.start (st.ticks + 1)) with hend
    set st₁ : ClockState := { st with nowArc := (arcEnd st.nowArc, endCycle) } with hst₁
    rcases htick : tick config it st₁ with ⟨os₁, st₁'⟩
    have hprocess : clockProcess config it st = (.action st₁.nowArc st₁.nudged :: os₁, st₁') := by
      show (.action st₁.nowArc st₁.nudged :: (tick config it st₁).1, (tick config it st₁).2) = _
      rw [htick]
    rw [hprocess] at h
    obtain ⟨rfl, rfl⟩ := Prod.mk.inj h
    have hstep₁ : InStep config st₁ it.tickNow := hstep
    have hkeeps := keeps_tick hframe hskip hstep₁ htick
    have hslept : slept (.action st₁.nowArc st₁.nudged :: os₁) = slept os₁ := zero_add _
    refine ⟨⟨hkeeps.start, hkeeps.forward, hslept ▸ hkeeps.delay_nonneg, hslept ▸ hkeeps.delay_le,
      hslept ▸ hkeeps.inStep, hkeeps.behind⟩, ?_⟩
    intro nowArc nudge hmem
    rcases List.mem_cons.mp hmem with heq | hmem
    · obtain ⟨rfl, rfl⟩ := Output.action.inj heq
      have htime : cyclesToTime config it.ss endCycle = logicalTime config st.start (st.ticks + 1) :=
        cyclesToTime_timeToCycles' hbeats it.ss _
      have hnext := logicalTime_add config st.start st.ticks 1
      refine ⟨htime, ?_⟩
      rw [InStep] at hstep
      show cyclesToTime config it.ss endCycle ≤ _
      omega
    · exact absurd hmem (not_action_tick htick nowArc nudge)
  · exact ⟨keeps_tick hframe hskip hstep h, fun nowArc nudge hmem =>
      absurd hmem (not_action_tick h nowArc nudge)⟩

theorem keeps_clockCheck (hframe : 0 < frameTimespan config) (hskip : 1 ≤ config.cSkipTicks)
    (hahead : 0 ≤ config.cProcessAhead) (hbeats : 0 < config.cBeatsPerCycle) {wake : ℤ}
    (hstep : InStep config st wake) (hit : it.After wake)
    (h : clockCheck config it st = (os, some st')) :
    Keeps config it.tickNow (processAction it st) st' os ∧
      EndsInTime config it (processAction it st) os := by
  rcases hcheck : checkArc config it (processAction it st) with ⟨os₁, st₁⟩
  have hboth := fun st' (h : checkArc config it (processAction it st) = (os₁, some st')) =>
    keeps_checkArc hframe hskip hbeats (inStep_processAction hahead hstep hit) h
  simp only [clockCheck, hcheck] at h
  split at h
  · next cyc hact =>
    obtain ⟨rfl, rfl⟩ := Prod.mk.inj h
    obtain ⟨hkeeps, hends⟩ := hboth st' hcheck
    have hslept : slept (.setCycle cyc :: os₁) = slept os₁ := zero_add _
    refine ⟨⟨hkeeps.start, hkeeps.forward, hslept ▸ hkeeps.delay_nonneg, hslept ▸ hkeeps.delay_le,
      hslept ▸ hkeeps.inStep, hkeeps.behind⟩, ?_⟩
    intro nowArc nudge hmem
    rcases List.mem_cons.mp hmem with heq | hmem
    · cases heq
    · exact hends nowArc nudge hmem
  · obtain ⟨rfl, rfl⟩ := Prod.mk.inj h
    exact hboth st' hcheck

/-! ## A run -/

/-- The invariant of the loop. -/
theorem Paced.inStep (hframe : 0 < frameTimespan config) (hskip : 1 ≤ config.cSkipTicks)
    (hahead : 0 ≤ config.cProcessAhead) (hbeats : 0 < config.cBeatsPerCycle) {wake : ℤ}
    (h : Paced config st wake) : InStep config st wake := by
  induction h with
  | start now =>
    have hnonneg : 0 ≤ processAhead config := round_nonneg (by positivity)
    simp only [InStep, initState, logicalTime]
    omega
  | step wake' _ hit hcheck hwake ih =>
    have hkept := (keeps_clockCheck hframe hskip hahead hbeats ih hit hcheck).1.inStep
    rw [InStep] at hkept ⊢
    omega

theorem clockCheck_some (hframe : 0 < frameTimespan config) (it : Iteration) (st : ClockState) :
    ∃ st', (clockCheck config it st).2 = some st' := by
  have htick : ∀ st, ∃ st', (tick config it st).2 = some st' := by
    intro st
    simp only [tick]
    rw [if_neg hframe.ne']
    exact ⟨_, rfl⟩
  have hcheck : ∃ st', (checkArc config it (processAction it st)).2 = some st' := by
    simp only [checkArc]
    split_ifs
    · exact htick _
    · exact htick _
  simp only [clockCheck]
  split
  · exact hcheck
  · exact hcheck

/-- **The pace of the clock.** However the clock has come to where it is, with any actions, tempos and
delays that are longer than was asked for: the next iteration does not end the thread, counts the ticks
forward, sleeps for a frame at most, and leaves the logical time neither past the time at which it wakes
nor further behind than the ticks that it may skip. An arc that it hands over ends a frame after the
logical time, and so never more than a frame too early. -/
theorem clock_keeps_pace (config : ClockConfig) (hframe : 0 < frameTimespan config)
    (hskip : 1 ≤ config.cSkipTicks) (hahead : 0 ≤ config.cProcessAhead)
    (hbeats : 0 < config.cBeatsPerCycle) (st : ClockState) (wake : ℤ) (h : Paced config st wake)
    (it : Iteration) (hit : it.After wake) :
    ∃ os st', clockCheck config it st = (os, some st') ∧
      Keeps config it.tickNow (processAction it st) st' os ∧
      EndsInTime config it (processAction it st) os := by
  obtain ⟨st', hst'⟩ := clockCheck_some hframe it st
  have hcheck : clockCheck config it st = ((clockCheck config it st).1, some st') := by rw [← hst']
  have hstep := h.inStep hframe hskip hahead hbeats
  exact ⟨_, st', hcheck, keeps_clockCheck hframe hskip hahead hbeats hstep hit hcheck⟩

/-- A cycle is set a tenth of a second after the clock has started. -/
theorem clock_keeps_pace_one :
    let it : Iteration := ⟨.SetCycle 3, 100000, constantTempo (-5850000) 500000 (by norm_num), 150000⟩
    ∃ os st', clockCheck defaultConfig it (initState 0) = (os, some st') ∧
      Keeps defaultConfig it.tickNow (processAction it (initState 0)) st' os ∧
      EndsInTime defaultConfig it (processAction it (initState 0)) os :=
  clock_keeps_pace defaultConfig (by with_unfolding_all decide) (by decide) (by norm_num [defaultConfig])
    (by norm_num [defaultConfig]) (initState 0) 0 (.start 0)
    ⟨.SetCycle 3, 100000, constantTempo (-5850000) 500000 (by norm_num), 150000⟩ ⟨by decide, by decide⟩

end Tidal.Clock
