import Tidal.Stream.Performance
import Tidal.Proofs.ReplaceProofs

/-!
# Proofs: a session is a performance

What a tick does after it has read the play map does not look at the variables of the stream. So a
session that ends with its state map in place has done to the world outside what the performance of its
beats does.
-/

namespace Tidal

open Effect MVar

variable {S X α Udp Addr : Type}

/-! ## What a tick does not look at -/

/-- The world without the variables of the stream. -/
def World.bare (w : World S X) : World S X := ⟨none, none, none, none, w.outside, w.stderr⟩

theorem blind_evaluate (x : Susp α) : Blind World.bare (evaluate x : Streaming S X α) := by
  intro w
  cases x <;> rfl

theorem blind_calling (f : X → α × X) : Blind World.bare (calling f : Streaming S X α) := fun _ => rfl

theorem blind_setCps (ops : LinkOperations X) (e : Event (Susp (ValueMap S))) (on : ℤ) :
    Blind World.bare (setCps ops e on) := by
  unfold setCps
  split
  · refine blind_bind (blind_evaluate _) fun m => ?_
    cases m["cps"]? >>= Value.getF with
    | none => exact blind_pure ()
    | some newCps => exact blind_calling _
  · exact blind_pure ()

theorem blind_processEvent (ops : LinkOperations X) (e : Event (Susp (ValueMap S))) :
    Blind World.bare (processEvent ops e) := by
  refine blind_bind (blind_calling _) fun on => ?_
  refine blind_bind (blind_calling _) fun onPart => ?_
  refine blind_bind (blind_setCps ops e on) fun _ => ?_
  refine blind_bind (blind_calling _) fun off => ?_
  exact blind_bind (blind_calling _) fun bpm => blind_pure _

section Tick

variable {showDouble : ℚ → String}
  {send : Option Udp → Cx S Udp Addr → ℚ → ℚ → Susp ℚ × Bool × Message → X → Susp Unit × X}
  {cxs : List (Cx S Udp Addr)} {listen : Option Udp} {nudge : ℚ} {ops : LinkOperations X}

theorem blind_sendMessages (busses : List ℤ) (tes : List (ProcessedEvent S)) :
    Blind World.bare (sendMessages showDouble send cxs listen nudge busses tes) := by
  refine blind_forM_ fun cx => blind_forM_ fun e => blind_forM_ fun osc => ?_
  refine blind_bind (blind_evaluate _) fun ms => blind_forM_ fun m => ?_
  exact blind_handle (fun _ _ => rfl) (blind_bind (blind_calling _) fun r => blind_evaluate r)

theorem blind_playEvents (busses : List ℤ) (r : Susp S × List (Event (Susp (ValueMap S)))) :
    Blind World.bare (playEvents showDouble send cxs listen nudge ops busses r) := by
  refine blind_bind (blind_mapM fun e => blind_processEvent ops e) fun tes => ?_
  exact blind_bind (blind_sendMessages busses tes) fun _ => blind_pure _

end Tick

/-! ## Updates -/

variable [StateMap S] [EmptyCollection S] {w w' : World S X} {pMap : PlayMap S}

/-- A command that succeeds changes the play map and nothing else. -/
theorem command_run {u : Update S} (hu : u.command.Succeeds) (h : w.sPMapMV = some pMap) :
    u.command.run (fun x => (u.time, x)) w =
      .returned () { w with sPMapMV := some (u.apply pMap) } := by
  have htaken : ∀ c : Command S, withTaken playMV (fun m => pure (c.effect u.time m)) w =
      (.returned () { w with sPMapMV := some (c.effect u.time pMap) } : Outcome _ SomeException _) := by
    intro c
    show _ = Outcome.returned () (playMV.set (some (c.effect u.time pMap)) (playMV.set none w))
    exact withTaken_returned (fun _ => leaves_pure _) h rfl
  rw [Update.apply]
  cases hc : u.command with
  | replace k pat =>
    rw [hc] at hu
    have hupdate : (updatePattern k u.time pat : Streaming S X Unit) w = _ :=
      (congrFun (Command.updatePattern_eq_withTaken u.time hu) w).trans (htaken (.replace k pat))
    show handle _ (updatePattern k u.time pat) w = _
    unfold handle
    rw [hupdate]
  | onIds ks c => exact htaken (.onIds ks c)
  | onAll c =>
    rw [Command.run_eq_withTaken _ u.time fun _ _ h => by cases h]
    exact htaken (.onAll c)
  | rollback =>
    rw [Command.run_eq_withTaken _ u.time fun _ _ h => by cases h]
    exact htaken .rollback

theorem updates_run {us : List (Update S)} (hus : ∀ u ∈ us, u.command.Succeeds)
    (h : w.sPMapMV = some pMap) :
    forM_ us (fun u => u.command.run fun x => (u.time, x)) w =
      .returned () { w with sPMapMV := some (updated us pMap) } := by
  induction us generalizing w pMap with
  | nil =>
    show Outcome.returned () w = .returned () { w with sPMapMV := some pMap }
    rw [← h]
  | cons u us ih =>
    rw [forM_cons, bind_run, command_run (hus u List.mem_cons_self) h]
    exact ih (fun u' hu' => hus u' (List.mem_cons_of_mem u hu')) rfl

/-! ## One tick -/

section Session

variable {showDouble : ℚ → String}
  {send : Option Udp → Cx S Udp Addr → ℚ → ℚ → Susp ℚ × Bool × Message → X → Susp Unit × X}
  {cxs : List (Cx S Udp Addr)} {listen : Option Udp} {nudge : ℚ} {ops : LinkOperations X}
  {busses : List ℤ} {sMap : Susp S} {sGlobalF : ControlPattern S → ControlPattern S}

omit [StateMap S] [EmptyCollection S] in
theorem playEvents_left {r : Susp S × List (Event (Susp (ValueMap S)))} {left : Susp S}
    (h : playEvents showDouble send cxs listen nudge ops busses r w = .returned left w') : left = r.1 := by
  unfold playEvents at h
  rw [bind_run] at h
  cases htes : processCps ops r.2 w with
  | returned tes w₁ =>
    rw [htes] at h
    change (sendMessages _ _ _ _ _ _ _ >>= _) w₁ = _ at h
    rw [bind_run] at h
    cases hsend : sendMessages showDouble send cxs listen nudge busses tes w₁ with
    | returned u w₂ =>
      rw [hsend] at h
      cases h
      rfl
    | raised e w₂ =>
      rw [hsend] at h
      cases h
    | blocked w₂ =>
      rw [hsend] at h
      cases h
  | raised e w₁ =>
    rw [htes] at h
    cases h
  | blocked w₁ =>
    rw [htes] at h
    cases h

omit [EmptyCollection S] in
/-- A tick that leaves a state map in place has queried what plays without an exception, and it has
changed nothing but the state map and the world outside. -/
theorem doTick_plays {nowArc : Time × Time} (hs : w.sStateMV = some sMap)
    (hw : Readable w busses pMap sGlobalF) {sMap' : Susp S}
    (hrun : doTick showDouble send cxs listen nowArc nudge ops w = .returned () w')
    (hs' : w'.sStateMV = some sMap') :
    ∃ r, tickEvents nowArc (cpsOf ops w.outside) (sGlobalF (playStack pMap)) sMap = .ok r ∧
      sMap' = r.1 ∧ Readable w' busses pMap sGlobalF ∧
      (do let _ ← calling ops.getTempo
          let _ ← playEvents showDouble send cxs listen nudge ops busses r
          pure () : Streaming S X Unit) w.bare = .returned () w'.bare := by
  by_cases h : Undisturbed cxs nowArc (cpsOf ops w.outside) (sGlobalF (playStack pMap)) sMap
  · obtain ⟨r, hr, _⟩ := id h
    set w₁ : World S X := { stateMV.set none w with outside := (ops.getTempo w.outside).2 } with hw₁
    have hw' : Readable (stateMV.set none w) busses pMap sGlobalF := ⟨hw.busses, hw.pMap, hw.sGlobalF⟩
    have hyields : Yields (evaluate (tickEvents nowArc (cpsOf ops w.outside) (sGlobalF (playStack pMap)) sMap)
        >>= playEvents showDouble send cxs listen nudge ops busses) fun _ => True := yields_playing h
    obtain ⟨left, w₂, hplay, _⟩ := hyields w₁
    have hbody := (tickBody_run showDouble send cxs listen nowArc nudge ops sMap hw').trans hplay
    have hleaves : ∀ {γ : Type} {v : World S X → γ}, SeesShared v → v w₂ = v (stateMV.set none w) := by
      intro γ v hv
      have hleaves : Leaves v (tickBody showDouble send cxs listen nowArc nudge ops sMap) :=
        leaves_tickBody hv sMap
      have hafter := hleaves (stateMV.set none w)
      rw [hbody] at hafter
      exact hafter
    rw [hr] at hplay
    change playEvents _ _ _ _ _ _ _ r w₁ = _ at hplay
    have hdo := doTick_of_returned showDouble send cxs listen nowArc nudge ops
      (withTaken_returned (leaves_tickBody fun _ _ _ => rfl) hs hbody)
    rw [hrun] at hdo
    cases hdo
    obtain rfl : left = sMap' := Option.some.inj hs'
    refine ⟨r, hr, playEvents_left hplay, ⟨?_, ?_, ?_⟩, ?_⟩
    · exact (hleaves (v := World.sBusses) fun _ _ _ => rfl).trans hw.busses
    · exact (hleaves (v := World.sPMapMV) fun _ _ _ => rfl).trans hw.pMap
    · exact (hleaves (v := World.sGlobalFMV) fun _ _ _ => rfl).trans hw.sGlobalF
    · show andThen (playEvents showDouble send cxs listen nudge ops busses r w₁.bare) _ = _
      rw [blind_playEvents busses r w₁, hplay]
      rfl
  · -- the state map would be gone
    obtain ⟨e, w₁, htick, hempty, hplay⟩ :=
      tick_disturbed showDouble send cxs listen nowArc nudge ops hs hw h
    obtain ⟨w₂, hdo, hstate, _⟩ := doTick_of_raised showDouble send cxs listen nowArc nudge ops hplay htick
    rw [hrun] at hdo
    cases hdo
    rw [hstate, hempty] at hs'
    cases hs'

/-! ## A session -/

theorem leaves_command (c : Command S) (t : Time) :
    Leaves World.sStateMV (c.run (fun x => (t, x)) : Streaming S X Unit) := by
  have hplay : Apart playMV (World.sStateMV : World S X → Option (Susp S)) := fun _ _ => rfl
  cases c with
  | replace k pat =>
    refine leaves_bind (leaves_calling (fun _ _ _ => rfl) _) fun t => leaves_handle (fun e => ?_) ?_
    · exact leaves_bind (fun _ => rfl) fun _ => leaves_bind (fun _ => rfl) fun _ => leaves_setPreviousPattern
    · refine leaves_bind (leaves_evaluate _) fun _ => ?_
      exact leaves_bind (leaves_takeMVar hplay) fun _ => leaves_putMVar hplay
  | onIds ks c => exact leaves_bind (leaves_takeMVar hplay) fun _ => leaves_putMVar hplay
  | onAll c => exact leaves_modifyMVar_ hplay fun _ => leaves_pure _
  | rollback => exact leaves_setPreviousPattern

/-- Without its state map a session cannot go on past the next tick. -/
theorem session_without_state {bs : List (Beat S)} (hs : w.sStateMV = none)
    (hrun : session showDouble send cxs listen nudge ops bs w = .returned () w') : w'.sStateMV = none := by
  cases bs with
  | nil =>
    cases hrun
    exact hs
  | cons b bs =>
    have hupdates : Leaves World.sStateMV (forM_ b.updates (fun u => u.command.run fun x => (u.time, x)) :
        Streaming S X Unit) := leaves_forM_ fun u => leaves_command u.command u.time
    have hafter := hupdates w
    rw [session, forM_cons, Beat.play, bind_assoc, bind_run] at hrun
    cases hr : forM_ b.updates (fun u => u.command.run fun x => (u.time, x)) w with
    | raised e w₁ =>
      rw [hr] at hrun
      cases hrun
    | blocked w₁ =>
      rw [hr] at hrun
      cases hrun
    | returned a w₁ =>
      rw [hr] at hrun hafter
      change andThen (doTick showDouble send cxs listen b.nowArc nudge ops w₁) _ = _ at hrun
      have hempty : w₁.sStateMV = none := hafter.trans hs
      have hblocked := (blocked_of_taken showDouble send cxs listen b.nowArc nudge ops hempty Value.VF ""
        LivePattern.silence (.VF 0)).1
      rw [hblocked] at hrun
      cases hrun

/-- The beats of a session that ends with its state map in place, with the tempos that Link had, and their
performance. -/
theorem session_beats (bs : List (Beat S)) (hbs : ∀ b ∈ bs, ∀ u ∈ b.updates, u.command.Succeeds)
    (w w' : World S X) (busses : List ℤ) (pMap : PlayMap S)
    (sGlobalF : ControlPattern S → ControlPattern S) (sMap sMap' : Susp S)
    (hw : Readable w busses pMap sGlobalF) (hs : w.sStateMV = some sMap)
    (hrun : session showDouble send cxs listen nudge ops bs w = .returned () w')
    (hs' : w'.sStateMV = some sMap') :
    ∃ bs' ps, bs'.map Beat.updates = bs.map Beat.updates ∧ bs'.map Beat.nowArc = bs.map Beat.nowArc ∧
      perform sGlobalF bs' pMap sMap = .ok ps ∧ sMap' = (ps.getLast?.map Played.left).getD sMap ∧
      Readable w' busses (updated (bs.flatMap Beat.updates) pMap) sGlobalF ∧
      forM_ ps (Played.sound showDouble send cxs listen nudge ops busses) w.bare =
        .returned () w'.bare := by
  induction bs generalizing w pMap sMap with
  | nil =>
    cases hrun
    rw [hs] at hs'
    cases hs'
    exact ⟨[], [], rfl, rfl, rfl, rfl, hw, rfl⟩
  | cons b bs ih =>
    set w₁ : World S X := { w with sPMapMV := some (updated b.updates pMap) } with hw₁
    have hread : Readable w₁ busses (updated b.updates pMap) sGlobalF := ⟨hw.busses, rfl, hw.sGlobalF⟩
    have hplay : b.play showDouble send cxs listen nudge ops w =
        doTick showDouble send cxs listen b.nowArc nudge ops w₁ := by
      rw [Beat.play, bind_run, updates_run (hbs b List.mem_cons_self) hw.pMap]
      rfl
    rw [session, forM_cons, bind_run, hplay] at hrun
    cases htick : doTick showDouble send cxs listen b.nowArc nudge ops w₁ with
    | raised e w₂ =>
      rw [htick] at hrun
      cases hrun
    | blocked w₂ =>
      rw [htick] at hrun
      cases hrun
    | returned a w₂ =>
      rw [htick] at hrun
      change session showDouble send cxs listen nudge ops bs w₂ = _ at hrun
      -- a session that goes on without the state map blocks at the next tick
      obtain ⟨sMap₂, hs₂⟩ : ∃ sMap₂, w₂.sStateMV = some sMap₂ := by
        by_contra hnone
        have hgone := session_without_state (Option.eq_none_iff_forall_not_mem.mpr fun s h => hnone ⟨s, h⟩) hrun
        rw [hgone] at hs'
        cases hs'
      obtain ⟨r, hr, rfl, hread₂, hsound⟩ := doTick_plays (w := w₁) hs hread htick hs₂
      obtain ⟨bs', ps, hupdates, harcs, hperform, hleft, hread', hsounds⟩ :=
        ih (fun b' hb' => hbs b' (List.mem_cons_of_mem b hb')) w₂ _ _ hread₂ hs₂ hrun
      let p : Played S := ⟨b.nowArc, sGlobalF (playStack (updated b.updates pMap)),
        sMap.map (StateMap.insert "_cps" (.VF (cpsOf ops w₁.outside))), r.1, r.2⟩
      refine ⟨⟨b.updates, b.nowArc, cpsOf ops w₁.outside⟩ :: bs', p :: ps,
        congrArg (b.updates :: ·) hupdates, congrArg (b.nowArc :: ·) harcs, ?_, ?_, ?_, ?_⟩
      · rw [perform]
        show (tickEvents _ _ _ _ >>= fun r => perform sGlobalF bs' _ r.1 >>= fun ps => _) = _
        rw [hr]
        show (perform sGlobalF bs' _ r.1 >>= fun ps => _) = _
        rw [hperform]
        rfl
      · rw [hleft, List.getLast?_cons]
        cases ps.getLast? <;> rfl
      · rw [List.flatMap_cons, updated, ReadSwap.run_append]
        exact hread'
      · rw [forM_cons, bind_run]
        show andThen (Played.sound showDouble send cxs listen nudge ops busses p w₁.bare) _ = _
        rw [Played.sound, hsound]
        exact hsounds

/-- **A session is a performance.** Updates that succeed and ticks come one after another. If the state
map is in place at the end, every tick has queried what the updates had made of the play map by then, as
in the performance of the same beats; the state map is the one that the last of them leaves, and the
world outside has seen the sound of these ticks and nothing else. -/
theorem session_performs (bs : List (Beat S)) (hbs : ∀ b ∈ bs, ∀ u ∈ b.updates, u.command.Succeeds)
    (w w' : World S X) (busses : List ℤ) (pMap : PlayMap S)
    (sGlobalF : ControlPattern S → ControlPattern S) (sMap sMap' : Susp S)
    (hw : Readable w busses pMap sGlobalF) (hs : w.sStateMV = some sMap)
    (hrun : session showDouble send cxs listen nudge ops bs w = .returned () w')
    (hs' : w'.sStateMV = some sMap') :
    ∃ bs' ps, bs'.map Beat.updates = bs.map Beat.updates ∧ bs'.map Beat.nowArc = bs.map Beat.nowArc ∧
      perform sGlobalF bs' pMap sMap = .ok ps ∧ sMap' = (ps.getLast?.map Played.left).getD sMap ∧
      Readable w' busses (updated (bs.flatMap Beat.updates) pMap) sGlobalF ∧
      forM_ ps (Played.sound showDouble send cxs listen nudge ops busses) w.bare =
        .returned () w'.bare :=
  session_beats bs hbs w w' busses pMap sGlobalF sMap sMap' hw hs hrun hs'

end Session

/-- A pattern is muted before the first tick; before the second it is silenced and heard again. -/
def muteBeats : List (Beat (ValueMap Empty)) :=
  [⟨[⟨.onIds ["1"] .mute, 1 / 50⟩], (0, 1 / 40), 1 / 2⟩,
    ⟨[⟨.onAll .silence, 1 / 25⟩, ⟨.onIds ["1"] .unmute, 1 / 25⟩], (1 / 40, 1 / 20), 1 / 2⟩]

theorem session_performs_mute :
    let w := streamOf ((∅ : PlayMap _).insert "1" (started bd))
    ∃ w' sMap', session toString (fun _ _ _ _ _ x => (.ok (), x)) noTargets none 0 steadyLink muteBeats w =
        .returned () w' ∧ w'.sStateMV = some sMap' ∧
      ∃ bs' ps, bs'.map Beat.updates = muteBeats.map Beat.updates ∧
        bs'.map Beat.nowArc = muteBeats.map Beat.nowArc ∧
        perform id bs' ((∅ : PlayMap _).insert "1" (started bd)) (.ok ∅) = .ok ps ∧
        sMap' = (ps.getLast?.map Played.left).getD (.ok ∅) ∧
        Readable w' [] (updated (muteBeats.flatMap Beat.updates)
          ((∅ : PlayMap _).insert "1" (started bd))) id ∧
        forM_ ps (Played.sound toString (fun _ _ _ _ _ x => (.ok (), x)) noTargets none 0 steadyLink [])
          w.bare = .returned () w'.bare := by
  intro w
  obtain ⟨w', hrun, sMap', hs'⟩ : ∃ w', session toString (fun _ _ _ _ _ x => (.ok (), x)) noTargets
      none 0 steadyLink muteBeats w = .returned () w' ∧ ∃ sMap', w'.sStateMV = some sMap' :=
    ⟨_, rfl, _, rfl⟩
  have hsucceed : ∀ b ∈ muteBeats, ∀ u ∈ b.updates, u.command.Succeeds := by
    intro b hb u hu
    rcases List.mem_cons.mp hb with rfl | hb
    · rw [List.mem_singleton.mp hu]
      trivial
    · rw [List.mem_singleton.mp hb] at hu
      rcases List.mem_cons.mp hu with rfl | hu
      · trivial
      · rw [List.mem_singleton.mp hu]
        trivial
  exact ⟨w', sMap', hrun, hs', session_performs muteBeats hsucceed w w' [] _ id (.ok ∅) sMap'
    ⟨rfl, rfl, rfl⟩ rfl hrun hs'⟩

end Tidal
