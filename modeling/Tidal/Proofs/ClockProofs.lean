import Tidal.Clock

/-!
# Proofs: the arcs of the clock

The guard of `clockCheck` asks Link for the time of the cycle where the next arc would start; the arc
ends at the cycle that Link gives for the end of the tick. Both ask the same session, so an arc is handed
over only if it ends after its start, whatever the session before said.
-/

namespace Tidal.Clock

open Track

variable {config : ClockConfig} {it : Iteration} {st : ClockState}

/-! ## One iteration -/

/-- The guard, seen from the side of the cycles. -/
theorem lt_timeToCycles' (h : 0 < config.cBeatsPerCycle) (ss : SessionState) {cyc : Time} {time : ℤ}
    (hlt : cyclesToTime config ss cyc < time) : cyc < timeToCycles' config ss time := by
  by_contra hle
  have hbeat : ss.beatAtTime time config.cQuantum ≤ cyc * config.cBeatsPerCycle := by
    rw [timeToCycles', not_lt, div_le_iff₀ h] at hle
    exact hle
  have htime := ss.timeAtBeat_mono config.cQuantum hbeat
  simp only [ss.timeAtBeat_beatAtTime] at htime
  exact absurd hlt (not_lt.mpr htime)

/-- The outputs take a track forward from the end of the last arc to the end of the last arc. -/
def Advances (st : ClockState) (r : List Output × Option ClockState) : Prop :=
  Forward (arcEnd st.nowArc) (track r.1) ∧
    ∀ st', r.2 = some st' → arcEnd st'.nowArc = position (arcEnd st.nowArc) (track r.1)

theorem advances_tick : Advances st (tick config it st) := by
  have htrack : track (tick config it st).1 = [] := by
    simp only [tick]
    split_ifs <;> rfl
  rw [Advances, htrack]
  refine ⟨trivial, fun st' h => ?_⟩
  simp only [tick] at h
  split_ifs at h
  all_goals
    obtain rfl := Option.some.inj h
    rfl

theorem advances_clockProcess
    (h : arcEnd st.nowArc < timeToCycles' config it.ss (logicalTime config st.start (st.ticks + 1))) :
    Advances st (clockProcess config it st) := by
  let st' : ClockState := { st with nowArc :=
    (arcEnd st.nowArc, timeToCycles' config it.ss (logicalTime config st.start (st.ticks + 1))) }
  have hadvances : Advances st' (tick config it st') := advances_tick
  obtain ⟨hforward, hpos⟩ := hadvances
  exact ⟨⟨rfl, h, hforward⟩, hpos⟩

theorem advances_checkArc (h : 0 < config.cBeatsPerCycle) : Advances st (checkArc config it st) := by
  simp only [checkArc]
  split_ifs with hguard
  · exact advances_clockProcess (lt_timeToCycles' h it.ss hguard)
  · exact advances_tick

theorem advances_clockCheck (h : 0 < config.cBeatsPerCycle) :
    Advances st (clockCheck config it st) := by
  have hcheck : Advances (processAction it st) (checkArc config it (processAction it st)) :=
    advances_checkArc h
  simp only [clockCheck]
  split
  · next cyc hact =>
    -- the track jumps to the cycle that is set, and goes on from there
    have hend : arcEnd (processAction it st).nowArc = cyc := by simp only [processAction, hact, arcEnd]
    rw [Advances, hend] at hcheck
    exact hcheck
  · next hact =>
    have hend : (processAction it st).nowArc = st.nowArc := by
      unfold processAction
      split <;> first | rfl | skip
      next cyc hset => exact absurd hset (hact cyc)
    rw [Advances, hend] at hcheck
    exact hcheck

/-! ## A run -/

theorem forward_run (h : 0 < config.cBeatsPerCycle) (st : ClockState) (its : List Iteration) :
    Forward (arcEnd st.nowArc) (track (run config st its)) := by
  induction its generalizing st with
  | nil => trivial
  | cons it its ih =>
    have hadvances : Advances st (clockCheck config it st) := advances_clockCheck h
    obtain ⟨hforward, hpos⟩ := hadvances
    rw [run]
    split
    · next os st' heq =>
      rw [heq] at hforward hpos
      rw [track, List.filterMap_append, forward_append]
      refine ⟨hforward, ?_⟩
      have := ih st'
      rwa [hpos st' rfl] at this
    · next os heq =>
      rw [heq] at hforward
      exact hforward

theorem noJump_track {os : List Output} (h : ∀ cyc, Output.setCycle cyc ∉ os) : NoJump (track os) := by
  intro cyc hmem
  obtain ⟨o, ho, hstep⟩ := List.mem_filterMap.mp hmem
  cases o with
  | setCycle cyc' => exact h cyc' ho
  | _ => cases hstep

/-- Between two cycles that are set the arcs of any run are contiguous and strictly forward: the first
starts where the arc before ended, or at the set cycle, each ends later than it starts and where the next
one starts, and no cycle position is in two of them. -/
theorem arcs_forward (config : ClockConfig) (h : 0 < config.cBeatsPerCycle) (st : ClockState)
    (its : List Iteration) (before os after : List Output)
    (hrun : run config st its = before ++ os ++ after) (hos : ∀ cyc, Output.setCycle cyc ∉ os) :
    (∀ x, (arcs os).head? = some x → x.1 = position (arcEnd st.nowArc) (track before)) ∧
    (∀ x ∈ arcs os, x.1 < x.2) ∧
    ((arcs os).IsChain fun x y => x.2 = y.1) ∧
    ∀ u, ((arcs os).filter fun x => x.1 ≤ u ∧ u < x.2).length ≤ 1 := by
  have hforward := forward_run h st its
  rw [hrun, track, List.filterMap_append, List.filterMap_append, forward_append, forward_append] at hforward
  obtain ⟨⟨_, hmid⟩, _⟩ := hforward
  have hjump := noJump_track hos
  exact ⟨fun x hx => hmid.head hjump hx, fun x hx => ((hmid.bounds hjump).2 x hx).2.1,
    hmid.isChain hjump, fun u => hmid.once hjump u⟩

/-- A session with a constant tempo, in which beat zero is at the time `zero`. -/
def constantTempo (zero : ℤ) (microsPerBeat : ℚ) (h : 0 < microsPerBeat) : SessionState where
  timeAtBeat beat _ := zero + ⌊beat * microsPerBeat⌋
  beatAtTime time _ := (time - zero) / microsPerBeat
  timeAtBeat_mono _ _ _ hle := add_le_add_right (Int.floor_le_floor (mul_le_mul_of_nonneg_right hle h.le)) _
  timeAtBeat_beatAtTime _ time := by
    rw [div_mul_cancel₀ _ h.ne', ← Int.cast_sub, Int.floor_intCast, add_sub_cancel]

/-- An arc, a slower tempo that puts its end into the future, an arc of the slower tempo, and a jump. -/
def fourIterations : List Iteration :=
  [⟨.NoAction, 0, constantTempo 0 500000 (by norm_num), 0⟩,
    ⟨.SetTempo 30, 50000, constantTempo 0 2000000 (by norm_num), 50000⟩,
    ⟨.NoAction, 100000, constantTempo 0 1000000 (by norm_num), 100000⟩,
    ⟨.SetCycle 3, 150000, constantTempo (-5850000) 500000 (by norm_num), 150000⟩]

theorem arcs_forward_four :
    let os : List Output := [.action (0, 1 / 40) 0, .action (1 / 40, 3 / 80) 0]
    (∀ x, (arcs os).head? = some x → x.1 = position (arcEnd (initState 0).nowArc) (track [])) ∧
    (∀ x ∈ arcs os, x.1 < x.2) ∧
    ((arcs os).IsChain fun x y => x.2 = y.1) ∧
    ∀ u, ((arcs os).filter fun x => x.1 ≤ u ∧ u < x.2).length ≤ 1 :=
  arcs_forward defaultConfig (by norm_num [defaultConfig]) (initState 0) fourIterations []
    [.action (0, 1 / 40) 0, .action (1 / 40, 3 / 80) 0] [.setCycle 3, .action (3, 121 / 40) 0]
    (by with_unfolding_all decide) (by simp)

end Tidal.Clock
