import Tidal.Stream.Threads
import Tidal.Proofs.StreamProofs
import Tidal.Proofs.TransitionProofs

/-!
# The threads of a stream: no deadlock, and no update lost

Run alone the programs of the threads are the functions of the stream. The state map is taken before the
other variables, of which no two are taken together. So threads never wait for each other in a circle;
they wait for ever only for a state map that a failed tick did not put back. Whatever the interleaving,
the play map and the state map are what the jobs of the threads make of them one after the other.
-/

namespace Tidal

open EventF Effect MVar Concurrent Concurrent.Prog

variable {S X Udp Addr : Type}

/-! ## Running alone -/

namespace Thread

theorem run_take (n : Name) : (take n : Thread S X (n.Val S)).run = takeMVar n.var :=
  run_takeVar (V := streamVars S X) n

theorem run_put (n : Name) (b : n.Val S) : (put n b : Thread S X Unit).run = putMVar n.var b :=
  run_putVar (V := streamVars S X) n b

theorem run_read (n : Name) : (read n : Thread S X (n.Val S)).run = readMVar n.var :=
  run_readVar (V := streamVars S X) n

theorem run_swap (n : Name) (b : n.Val S) :
    (swap n b : Thread S X (n.Val S)).run = swapMVar n.var b :=
  run_swapVar (V := streamVars S X) n b

theorem run_modify (n : Name) (f : n.Val S → Thread S X (n.Val S)) :
    (modify n f).run = modifyMVar_ n.var fun b => (f b).run := by
  simp only [modify, run_bind, run_take, run_handle, run_put, run_fail, modifyMVar_]

theorem run_setPreviousPattern :
    (setPreviousPatternOrSilence : Thread S X Unit).run = Tidal.setPreviousPatternOrSilence :=
  run_modify _ _

section Tick

variable [StateMap S] (showDouble : ℚ → String)
  (send : Option Udp → Cx S Udp Addr → ℚ → ℚ → Susp ℚ × Bool × Message → X → Susp Unit × X)
  (cxs : List (Cx S Udp Addr)) (listen : Option Udp) (nowArc : Time × Time) (nudge : ℚ)
  (ops : LinkOperations X)

theorem run_doTick : (doTick showDouble send cxs listen nowArc nudge ops).run =
    Tidal.doTick showDouble send cxs listen nowArc nudge ops := by
  simp only [doTick, tick, run_handle, run_bind, run_lift, run_setPreviousPattern,
    run_take (S := S) (X := X) .stateMV, run_read (S := S) (X := X) .playMV,
    run_read (S := S) (X := X) .busMV, run_read (S := S) (X := X) .globalFMV, run_put, Tidal.doTick,
    Tidal.tick, tickBody, bind_assoc]
  rfl

end Tick

variable [StateMap S]

theorem run_store (k : String) (v : Value S) : (store k v : Thread S X Unit).run = add k v := by
  simp only [store, run_bind, run_take (S := S) (X := X) .stateMV, run_put]
  rfl

variable [EmptyCollection S]

theorem run_command (getCycleTime : X → Time × X) (c : Command S) :
    (command getCycleTime c : Thread S X Unit).run = c.run getCycleTime := by
  cases c with
  | replace k pat =>
    simp only [command, streamReplace, updatePattern, run_bind, run_lift, run_handle, run_take (S := S) (X := X) .playMV,
      run_put, run_setPreviousPattern]
    rfl
  | onIds ks c =>
    simp only [command, withPatIds, run_bind, run_take (S := S) (X := X) .playMV, run_put]
    rfl
  | onAll c => exact run_modify _ _
  | rollback => exact run_setPreviousPattern

omit [StateMap S] [EmptyCollection S] in
theorem run_transition (historyFlag : Bool) (mapper : TransitionMapper S) (patId : String)
    (pat : ControlPattern S) (getCycleTime : X → Time × X) :
    (transition historyFlag mapper patId pat getCycleTime : Thread S X Unit).run =
      Tidal.transition historyFlag mapper patId pat getCycleTime := by
  simp only [transition, run_bind, run_lift, run_read (S := S) (X := X) .playMV, run_swap (S := S) (X := X) .playMV, run_pure]
  rfl

end Thread

section Alone

variable [StateMap S] [EmptyCollection S] (showDouble : ℚ → String)
  (send : Option Udp → Cx S Udp Addr → ℚ → ℚ → Susp ℚ × Bool × Message → X → Susp Unit × X)
  (cxs : List (Cx S Udp Addr)) (listen : Option Udp) (getCycleTime : X → Time × X)

theorem run_thread (j : Job S X) : (j.thread showDouble send cxs listen getCycleTime).run =
    j.action showDouble send cxs listen getCycleTime := by
  cases j with
  | doTick nowArc nudge ops => exact Thread.run_doTick ..
  | command c => exact Thread.run_command ..
  | store k v => exact Thread.run_store ..
  | streamAll f =>
    simp only [Job.thread, run_bind, Thread.run_swap (S := S) (X := X) .globalFMV, run_pure]
    rfl
  | busses indices =>
    simp only [Job.thread, run_bind, Thread.run_swap (S := S) (X := X) .busMV, run_pure]
    rfl
  | look n =>
    simp only [Job.thread, run_bind, Thread.run_read, run_pure]
    rfl
  | transition historyFlag mapper patId pat => exact Thread.run_transition ..

/-- The steps of a job that runs alone come to what the job does as an action. -/
theorem action_returned_iff (j : Job S X) {w w' : World S X} :
    j.action showDouble send cxs listen getCycleTime w = .returned () w' ↔
      Relation.ReflTransGen Prog.Step (w, j.thread showDouble send cxs listen getCycleTime)
        (w', .ret ()) := by
  rw [← run_thread]
  exact run_returned_iff

end Alone

/-! ## The order of the variables -/

/-- The state map comes before the other variables. -/
def Name.rank : Name → ℕ
  | stateMV => 0
  | _ => 1

/-- The state map may be lost. -/
def Name.Lossy (n : Name) : Prop := n = stateMV

theorem Name.rank_lt (n : Name) : n.rank < 2 := by
  cases n <;> decide

/-- Only the variable of the lowest rank may be lost. -/
theorem Name.eq_of_lossy (n n' : Name) (h : n'.Lossy) (hle : n.rank ≤ n'.rank) : n = n' := by
  rw [show n' = stateMV from h] at hle ⊢
  cases n with
  | stateMV => rfl
  | _ => exact absurd hle (by decide)

/-! ## Actions that touch no variable -/

theorem seesShared_var (n : Name) : SeesShared (n.var.get : World S X → Option (n.Val S)) := by
  intro w x log
  cases n <;> rfl

theorem evaluate_returned {α : Type} {x : Susp α} {a : α} {w w' : World S X}
    (h : evaluate x w = .returned a w') : x = .ok a := by
  cases x <;> cases h
  rfl

theorem evaluate_raised {α : Type} {x : Susp α} {e : SomeException} {w w' : World S X}
    (h : evaluate x w = .raised e w') : x = .error e := by
  cases x <;> cases h
  rfl

theorem evaluate_world {α : Type} {x : Susp α} {a : α} {w w' : World S X}
    (h : evaluate x w = .returned a w') : w = w' := by
  cases x <;> cases h
  rfl

theorem evaluate_world_raised {α : Type} {x : Susp α} {e : SomeException} {w w' : World S X}
    (h : evaluate x w = .raised e w') : w = w' := by
  cases x <;> cases h
  rfl

theorem confined_evaluate {α : Type} (x : Susp α) :
    Confined (streamVars S X) (evaluate x : Streaming S X α) where
  leaves _ := leaves_evaluate x
  goes w w' h := by cases x <;> cases h

theorem confined_calling {α : Type} (f : X → α × X) :
    Confined (streamVars S X) (calling f : Streaming S X α) where
  leaves n := leaves_calling (seesShared_var n) f
  goes w w' h := by cases h

theorem confined_hPutStrLn (s : String) : Confined (streamVars S X) (hPutStrLn s : Streaming S X Unit) where
  leaves n := leaves_hPutStrLn (seesShared_var n) s
  goes w w' h := by cases h

theorem confined_setCps (ops : LinkOperations X) (e : Event (Susp (ValueMap S))) (on : ℤ) :
    Confined (streamVars S X) (setCps ops e on) := by
  unfold setCps
  split
  · refine (confined_evaluate _).bind fun m => ?_
    cases m["cps"]? >>= Value.getF with
    | none => exact confined_pure ()
    | some newCps => exact confined_calling _
  · exact confined_pure ()

theorem confined_processEvent (ops : LinkOperations X) (e : Event (Susp (ValueMap S))) :
    Confined (streamVars S X) (processEvent ops e) := by
  refine (confined_calling _).bind fun on => ?_
  refine (confined_calling _).bind fun onPart => ?_
  refine (confined_setCps ops e on).bind fun _ => ?_
  refine (confined_calling _).bind fun off => ?_
  exact (confined_calling _).bind fun bpm => confined_pure _

section Tick

variable {showDouble : ℚ → String}
  {send : Option Udp → Cx S Udp Addr → ℚ → ℚ → Susp ℚ × Bool × Message → X → Susp Unit × X}
  {cxs : List (Cx S Udp Addr)} {listen : Option Udp} {nudge : ℚ} {ops : LinkOperations X}

theorem confined_sendEvent (busses : List ℤ) (cx : Cx S Udp Addr) (e : ProcessedEvent S) (osc : OSC S) :
    Confined (streamVars S X) (sendEvent showDouble send listen nudge busses cx e osc) :=
  (confined_evaluate _).bind fun _ => confined_forM_ (fun _ =>
    Confined.handle (fun _ => confined_hPutStrLn _) ((confined_calling _).bind confined_evaluate)) _

theorem confined_playEvents (busses : List ℤ) (r : Susp S × List (Event (Susp (ValueMap S)))) :
    Confined (streamVars S X) (playEvents showDouble send cxs listen nudge ops busses r) := by
  refine (confined_mapM (fun e => confined_processEvent ops e) _).bind fun tes => ?_
  refine Confined.bind ?_ fun _ => confined_pure _
  exact confined_forM_ (fun cx => confined_forM_ (fun e => confined_forM_ (fun osc =>
    confined_sendEvent busses cx e osc) _) _) _

/-- A tick gives back the state map that its events have left. -/
theorem playEvents_returned {busses : List ℤ}
    {r : Susp S × List (Event (Susp (ValueMap S)))} {sMap : Susp S} {w w' : World S X}
    (h : playEvents showDouble send cxs listen nudge ops busses r w = .returned sMap w') :
    sMap = r.1 := by
  unfold playEvents at h
  rw [bind_run] at h
  cases hp : processCps ops r.2 w with
  | returned tes w₁ =>
    rw [hp] at h
    change (sendMessages showDouble send cxs listen nudge busses tes >>= fun _ => pure r.1) w₁ = _ at h
    rw [bind_run] at h
    cases hs : sendMessages showDouble send cxs listen nudge busses tes w₁ with
    | returned u w₂ => rw [hs] at h; cases h; rfl
    | raised e w₂ => rw [hs] at h; cases h
    | blocked w₂ => rw [hs] at h; cases h
  | raised e w₁ => rw [hp] at h; cases h
  | blocked w₁ => rw [hp] at h; cases h

end Tick

/-! ## Every job keeps to the order -/

section Order

variable {hs : List Name}

/-- Beside the state map and what is lost, any variable may be waited for. -/
theorem waits_above (hl : AllLossy Name.Lossy hs) (n : Name) :
    ∀ h ∈ hs, h.rank < n.rank ∨ h.Lossy := fun h hh => Or.inr (hl h hh)

theorem ordered_setPreviousPattern (hl : ∀ h ∈ hs, h.rank < Name.playMV.rank ∨ h.Lossy)
    (hend : AllLossy Name.Lossy hs) :
    (Thread.setPreviousPatternOrSilence : Thread S X Unit).Ordered Name.rank Name.Lossy hs :=
  ordered_take hl fun _ => ordered_put hend

/-- What a tick does in its handler, while it has the state map. -/
theorem ordered_failed (hl : AllLossy Name.Lossy hs) (s s' : String) :
    (do lift (hPutStrLn s); lift (hPutStrLn s'); Thread.setPreviousPatternOrSilence :
      Thread S X Unit).Ordered Name.rank Name.Lossy (.stateMV :: hs) := by
  have hl' : AllLossy Name.Lossy (.stateMV :: hs) := by
    intro h hh
    rcases List.mem_cons.mp hh with rfl | hh
    · rfl
    · exact hl h hh
  refine ordered_act (confined_hPutStrLn s) hl' fun _ => ?_
  refine ordered_act (confined_hPutStrLn s') hl' fun _ => ?_
  exact ordered_setPreviousPattern (waits_above hl' _) hl'

section Jobs

variable [StateMap S] {showDouble : ℚ → String}
  {send : Option Udp → Cx S Udp Addr → ℚ → ℚ → Susp ℚ × Bool × Message → X → Susp Unit × X}
  {cxs : List (Cx S Udp Addr)} {listen : Option Udp} {getCycleTime : X → Time × X}

theorem ordered_doTick {nowArc : Time × Time} {nudge : ℚ} {ops : LinkOperations X} (hl : AllLossy Name.Lossy hs) :
    (Thread.doTick showDouble send cxs listen nowArc nudge ops).Ordered Name.rank Name.Lossy
      hs := by
  have habove : ∀ n : Name, 0 < n.rank →
      ∀ h ∈ Name.stateMV :: hs, h.rank < n.rank ∨ h.Lossy := by
    intro n hn h hh
    rcases List.mem_cons.mp hh with rfl | hh
    · exact Or.inl hn
    · exact Or.inr (hl h hh)
  refine ordered_take (waits_above hl _) fun sMap => ?_
  refine ordered_read (habove .playMV one_pos) fun pMap => ?_
  refine ordered_read (habove .busMV one_pos) fun busses => ?_
  refine ordered_read (habove .globalFMV one_pos) fun sGlobalF => ?_
  refine ordered_attempt (confined_calling _) ?_ ?_
  · intro bpm _
    refine ordered_attempt (confined_evaluate _) ?_ ?_
    · intro r _
      refine ordered_attempt (confined_playEvents busses r) ?_ ?_
      · exact fun _ _ => ordered_put hl
      · exact fun _ _ => ordered_failed hl _ _
    · exact fun _ _ => ordered_failed hl _ _
  · rintro e ⟨w, w', he⟩
    cases he

theorem ordered_store (hl : AllLossy Name.Lossy hs) (k : String) (v : Value S) :
    (Thread.store k v : Thread S X Unit).Ordered Name.rank Name.Lossy hs :=
  ordered_take (waits_above hl _) fun _ => ordered_put hl

variable [EmptyCollection S]

theorem ordered_streamReplace (hl : AllLossy Name.Lossy hs) (k : String)
    (pat : ControlPattern S) :
    (Thread.streamReplace getCycleTime k pat).Ordered Name.rank Name.Lossy hs := by
  refine ordered_act (confined_calling _) hl fun t => ?_
  refine ordered_attempt (confined_evaluate _) ?_ ?_
  · exact fun _ _ => ordered_take (waits_above hl _) fun _ => ordered_put hl
  · intro e _
    refine ordered_act (confined_hPutStrLn _) hl fun _ => ?_
    refine ordered_act (confined_hPutStrLn _) hl fun _ => ?_
    exact ordered_setPreviousPattern (waits_above hl _) hl

theorem ordered_command (hl : AllLossy Name.Lossy hs) (c : Command S) :
    (Thread.command getCycleTime c).Ordered Name.rank Name.Lossy hs := by
  cases c with
  | replace k pat => exact ordered_streamReplace hl k pat
  | onIds ks c => exact ordered_take (waits_above hl _) fun _ => ordered_put hl
  | onAll c => exact ordered_take (waits_above hl _) fun _ => ordered_put hl
  | rollback => exact ordered_setPreviousPattern (waits_above hl _) hl

theorem ordered_thread {j : Job S X} (hl : AllLossy Name.Lossy hs) :
    (j.thread showDouble send cxs listen getCycleTime).Ordered Name.rank Name.Lossy hs := by
  cases j with
  | doTick nowArc nudge ops => exact ordered_doTick hl
  | command c => exact ordered_command hl c
  | store k v => exact ordered_store hl k v
  | streamAll f => exact ordered_take (waits_above hl _) fun _ => ordered_put hl
  | busses indices => exact ordered_take (waits_above hl _) fun _ => ordered_put hl
  | look n => exact ordered_read (waits_above hl _) fun _ => hl
  | transition historyFlag mapper patId pat =>
    refine ordered_read (waits_above hl _) fun pMap => ?_
    refine ordered_act (confined_calling _) hl fun t => ?_
    refine ordered_act (confined_evaluate _) hl fun pMap' => ?_
    exact ordered_take (waits_above hl _) fun _ => ordered_put hl

theorem ordered_jobs {js : List (Job S X)} (hl : AllLossy Name.Lossy hs) :
    (Thread.jobs showDouble send cxs listen getCycleTime js).Ordered Name.rank Name.Lossy
      hs := by
  induction js generalizing hs with
  | nil => exact hl
  | cons j js ih =>
    exact Ordered.bind (ordered_thread hl) fun _ hs hl => ih hl

end Jobs

end Order

theorem noPut_failed (n : Name) (hn : n = .playMV ∨ n = .stateMV) (s s' : String) :
    (do lift (hPutStrLn s); lift (hPutStrLn s'); Thread.setPreviousPatternOrSilence :
      Thread S X Unit).NoPut n := by
  refine ⟨(confined_hPutStrLn s).leaves n, fun _ => ⟨(confined_hPutStrLn s').leaves n, fun _ => ?_⟩⟩
  rcases hn with rfl | rfl
  · exact Or.inl rfl
  · exact Or.inr fun _ => ⟨by decide, trivial⟩

/-! ## What the jobs do to the play map -/

section Updates

variable [StateMap S] [EmptyCollection S] {showDouble : ℚ → String}
  {send : Option Udp → Cx S Udp Addr → ℚ → ℚ → Susp ℚ × Bool × Message → X → Susp Unit × X}
  {cxs : List (Cx S Udp Addr)} {listen : Option Udp} {getCycleTime : X → Time × X}

section PlayMap

variable (showDouble send cxs listen getCycleTime)

end PlayMap

variable {as : List (StreamLabel S X)}

/-- No job puts the play map or the state map without having taken it. -/
theorem noPut_thread (n : Name) (hn : n = .playMV ∨ n = .stateMV) (j : Job S X) :
    (j.thread showDouble send cxs listen getCycleTime).NoPut n := by
  cases j with
  | doTick nowArc nudge ops =>
    rcases hn with rfl | rfl
    · exact Or.inr fun _ => Or.inl rfl
    · exact Or.inl rfl
  | command c =>
    cases c with
    | replace k pat =>
      refine ⟨(confined_calling _).leaves n, fun _ => ?_⟩
      refine noPut_attempt ((confined_evaluate _).leaves n) (fun _ => ?_) fun _ => noPut_failed n hn _ _
      rcases hn with rfl | rfl
      · exact Or.inl rfl
      · exact Or.inr fun _ => ⟨by decide, trivial⟩
    | _ =>
      rcases hn with rfl | rfl
      · exact Or.inl rfl
      · exact Or.inr fun _ => ⟨by decide, trivial⟩
  | store k v =>
    rcases hn with rfl | rfl
    · exact Or.inr fun _ => ⟨by decide, trivial⟩
    · exact Or.inl rfl
  | streamAll f => exact Or.inr fun _ => ⟨by rcases hn with rfl | rfl <;> decide, trivial⟩
  | busses indices => exact Or.inr fun _ => ⟨by rcases hn with rfl | rfl <;> decide, trivial⟩
  | look m => exact Or.inr fun _ => trivial
  | transition historyFlag mapper patId pat =>
    rcases hn with rfl | rfl
    · exact Or.inl rfl
    · refine Or.inr fun _ => ⟨(confined_calling _).leaves _, fun _ => ⟨(confined_evaluate _).leaves _, ?_⟩⟩
      exact fun _ => Or.inr fun _ => ⟨by decide, trivial⟩

theorem noPut_jobs (n : Name) (hn : n = .playMV ∨ n = .stateMV) (js : List (Job S X)) :
    (Thread.jobs showDouble send cxs listen getCycleTime js).NoPut n := by
  induction js with
  | nil => trivial
  | cons j js ih => exact (noPut_thread n hn j).bind fun _ => ih

section StateMap

variable (showDouble send cxs listen)

/-- The plan of a thread for the state map, which a tick loses if it fails. -/
abbrev PlanStores (as : List (StreamLabel S X)) (js : List (Job S X)) (p : Thread S X Unit) : Prop :=
  p.Plan .stateMV (Job.Stores showDouble send cxs listen) (Job.Lost showDouble send cxs listen) as none js

end StateMap

omit [EmptyCollection S] in
theorem stores_doTick (nowArc : Time × Time) (nudge : ℚ) (ops : LinkOperations X) :
    PlanStores showDouble send cxs listen [] [Job.doTick nowArc nudge ops]
      (Thread.doTick showDouble send cxs listen nowArc nudge ops) := by
  refine .take fun sMap => ?_
  refine .readOther (by decide) fun pMap => ?_
  refine .readOther (by decide) fun busses => ?_
  refine .readOther (by decide) fun sGlobalF => ?_
  refine plan_attempt ((confined_calling _).leaves _) ?_ fun w e w' he => by cases he
  intro w bpm w' hbpm
  obtain rfl : bpm = (ops.getTempo w.outside).1 := by
    cases hbpm
    rfl
  let f : Found S X := ⟨sMap, pMap, busses, sGlobalF, w, w'⟩
  refine plan_attempt ((confined_evaluate _).leaves _) ?_ ?_
  · intro w₁ r w₁' hr
    obtain rfl := evaluate_world hr
    have hevents : f.events nowArc ops = .ok r := evaluate_returned hr
    refine plan_attempt ((confined_playEvents busses r).leaves _) ?_ ?_
    · intro w₂ sMap'' w₂' hs
      obtain rfl := playEvents_returned hs
      exact .put ⟨f, rfl, r.2, w₁, w₂, w₂', rfl, hevents, hs⟩ (.ret ())
    · intro w₂ e w₂' he
      refine .keep ?_ List.prefix_rfl (noPut_failed .stateMV (Or.inr rfl) _ _)
      exact ⟨f, Or.inr ⟨r, e, w₁, w₂, w₂', rfl, hevents, he⟩⟩
  · intro w₁ e w₁' he
    obtain rfl := evaluate_world_raised he
    refine .keep ?_ List.prefix_rfl (noPut_failed .stateMV (Or.inr rfl) _ _)
    exact ⟨f, Or.inl ⟨e, w₁, rfl, evaluate_raised he⟩⟩

theorem stores_command (c : Command S) :
    PlanStores showDouble send cxs listen [] [Job.command c] (Thread.command getCycleTime c) := by
  have hsection : ∀ (as : List (StreamLabel S X)) (f : PlayMap S → PlayMap S),
      PlanStores showDouble send cxs listen as [Job.command c]
        (Thread.take .playMV >>= fun pMap => Thread.put .playMV (f pMap)) :=
    fun _ _ => .takeOther (by decide) fun _ => .putOther (by decide) (.skip (fun _ => rfl) (.ret ()))
  cases c with
  | replace k pat =>
    refine .act ((confined_calling _).leaves _) (Or.inl rfl) fun _ t _ _ => ?_
    refine plan_attempt ((confined_evaluate _).leaves _) ?_ ?_
    · exact fun _ _ _ _ => hsection _ _
    · intro _ e _ _
      refine .act ((confined_hPutStrLn _).leaves _) (Or.inl rfl) fun _ _ _ _ => ?_
      refine .act ((confined_hPutStrLn _).leaves _) (Or.inl rfl) fun _ _ _ _ => ?_
      exact hsection _ _
  | onIds ks c => exact hsection _ _
  | onAll c => exact hsection _ _
  | rollback => exact hsection _ _

theorem stores_thread (j : Job S X) :
    PlanStores showDouble send cxs listen [] [j] (j.thread showDouble send cxs listen getCycleTime) := by
  cases j with
  | doTick nowArc nudge ops => exact stores_doTick nowArc nudge ops
  | command c => exact stores_command c
  | store k v => exact .take fun _ => .put rfl (.ret ())
  | streamAll f =>
    exact .takeOther (by decide) fun _ => .putOther (by decide) (.skip (fun _ => rfl) (.ret ()))
  | busses indices =>
    exact .takeOther (by decide) fun _ => .putOther (by decide) (.skip (fun _ => rfl) (.ret ()))
  | look n =>
    by_cases hn : n = .stateMV
    · subst hn
      exact .read fun _ => .skip (fun _ => rfl) (.ret ())
    · exact .readOther hn fun _ => .skip (fun _ => rfl) (.ret ())
  | transition historyFlag mapper patId pat =>
    refine .readOther (by decide) fun pMap => ?_
    refine .act ((confined_calling _).leaves _) (Or.inl rfl) fun _ t _ _ => ?_
    refine .act ((confined_evaluate _).leaves _) (Or.inl rfl) fun _ pMap' _ _ => ?_
    exact .takeOther (by decide) fun _ => .putOther (by decide) (.skip (fun _ => rfl) (.ret ()))

theorem stores_jobs (js : List (Job S X)) :
    PlanStores showDouble send cxs listen [] js (Thread.jobs showDouble send cxs listen getCycleTime js) := by
  induction js with
  | nil => exact .ret ()
  | cons j js ih =>
    rw [← List.singleton_append]
    exact Plan.bind (stores_thread j) (fun _ => ih)
      fun _ => noPut_jobs .stateMV (Or.inr rfl) js

end Updates

/-! ## Two threads -/

/-- One thread mutes the id `2`, the other one stores a value. -/
def muteAndStore : Bool → List (Job (ValueMap Empty) Unit)
  | true => [.command (.onIds ["2"] .mute)]
  | false => [.store "k" (.VI 1)]

/-- It sends nothing. -/
abbrev sendNothing (_ : Option Unit) (_ : Cx (ValueMap Empty) Unit Unit) (_ _ : ℚ)
    (_ : Susp ℚ × Bool × Message) (x : Unit) : Susp Unit × Unit := (.ok (), x)

/-- The threads of a stream that plays `2`, without targets. -/
def muteAndStorePool : Pool (streamVars (ValueMap Empty) Unit) SomeException Bool :=
  streamPool (fun _ => "") sendNothing [] none clockAtThree (streamOf playsTwo) muteAndStore

theorem full_streamOf (pMap : PlayMap (ValueMap Empty)) : (streamOf pMap).Full := by
  intro n
  cases n <;> rfl

/-- The first thread takes the play map, the second one the state map, and they put them back. -/
theorem muteAndStore_steps : ∃ c₁ c₂ c₃ c₄, Pool.ThreadStep true muteAndStorePool c₁ ∧
    Pool.ThreadStep false c₁ c₂ ∧ Pool.ThreadStep false c₂ c₃ ∧ Pool.ThreadStep true c₃ c₄ ∧
    c₄.world.sStateMV.isSome ∧ ∀ i, c₄.thread i = .ret () :=
  ⟨_, _, _, _, ⟨.take rfl⟩, ⟨.take rfl⟩, ⟨.put rfl⟩, ⟨.put rfl⟩, rfl, fun i => by cases i <;> rfl⟩

section Pool

variable [StateMap S] [EmptyCollection S] (showDouble : ℚ → String)
  (send : Option Udp → Cx S Udp Addr → ℚ → ℚ → Susp ℚ × Bool × Message → X → Susp Unit × X)
  (cxs : List (Cx S Udp Addr)) (listen : Option Udp) (getCycleTime : X → Time × X) {ι : Type}
  [DecidableEq ι]

/-- Who has which variable, in whatever the threads come to. -/
theorem holds_streamPool {w : World S X} (hw : w.Full) (js : ι → List (Job S X))
    {c : Pool (streamVars S X) SomeException ι}
    (hc : Pool.Reachable (streamPool showDouble send cxs listen getCycleTime w js) c) :
    ∃ held, Pool.Holds Name.rank Name.Lossy c held := by
  refine Pool.Holds.reachable (Pool.holds_start ?_ ?_) hc
  · intro n hn
    have hfull := hw n
    rw [show n.var.get w = none from hn] at hfull
    cases hfull
  · intro i
    exact ordered_jobs fun _ h => absurd h List.not_mem_nil

/-- Whatever the threads do and in whatever order, they come to rest, and then each of them is through or
waits for the state map. If one waits, then a tick has failed: what a thread did on the way here ends the tick
in an exception of the events of the pattern that it found playing. -/
theorem threads_come_to_rest [Fintype ι] {w : World S X} (hw : w.Full) (js : ι → List (Job S X))
    {s : ℕ → Pool (streamVars S X) SomeException ι}
    (hs : Pool.Run (streamPool showDouble send cxs listen getCycleTime w js) s) :
    ∃ n, (∀ i, ¬ Pool.CanStep (s n) i) ∧
      (∃ T, Pool.Path (streamPool showDouble send cxs listen getCycleTime w js) T (s n)) ∧
      (∀ T, Pool.Path (streamPool showDouble send cxs listen getCycleTime w js) T (s n) →
        ∀ i, ((s n).thread i).Ended ∨ Pool.Waits (s n) i .stateMV ∧
          ∃ k, ∃ j ∈ js k, ∃ as, as <:+: logOf T k ∧ Job.Lost showDouble send cxs listen (j, as)) ∧
      (s n).world.sPMapMV.isSome ∧ (s n).world.sBusses.isSome ∧ (s n).world.sGlobalFMV.isSome := by
  obtain ⟨n, hn⟩ := hs.settles
  obtain ⟨held, hheld⟩ :=
    holds_streamPool showDouble send cxs listen getCycleTime hw js (hs.reachable n)
  have hfull : ∀ m : Name, m ≠ .stateMV → (m.var.get (s n).world).isSome := by
    intro m hm
    exact Option.isSome_iff_ne_none.mpr (hheld.full Name.rank_lt Name.eq_of_lossy hn hm)
  have hstuck : ∀ i, ((s n).thread i).Ended ∨ Pool.Waits (s n) i .stateMV := by
    intro i
    rcases hheld.stuck Name.rank_lt Name.eq_of_lossy hn i with hend | ⟨m, hm, hwait⟩
    · exact Or.inl hend
    · exact Or.inr ((show m = .stateMV from hm) ▸ hwait)
  obtain ⟨sMap₀, hsMap⟩ := Option.isSome_iff_exists.mp (hw .stateMV)
  refine ⟨n, hn, Pool.reachable_iff_path.mp (hs.reachable n), fun T hT i => (hstuck i).imp_right ?_,
    hfull .playMV (by decide), hfull .busMV (by decide), hfull .globalFMV (by decide)⟩
  intro hwait
  have hstart := Pool.serial_start (l := Name.stateMV)
    (c := streamPool showDouble send cxs listen getCycleTime w js) hsMap fun i => stores_jobs (js i)
  obtain ⟨log, now, left, cur, hser⟩ := hstart.path hT
  exact ⟨hwait, hser.exists_lost hwait.1 fun i => (hstuck i).imp_right fun h => h.2⟩

theorem threads_come_to_rest_both : ∃ s, Pool.Run muteAndStorePool s ∧
    ∃ n, (∀ i, ¬ Pool.CanStep (s n) i) ∧ (∃ T, Pool.Path muteAndStorePool T (s n)) ∧
      (∀ T, Pool.Path muteAndStorePool T (s n) →
        ∀ i, ((s n).thread i).Ended ∨ Pool.Waits (s n) i .stateMV ∧
          ∃ k, ∃ j ∈ muteAndStore k, ∃ as, as <:+: logOf T k ∧
            Job.Lost (fun _ => "") sendNothing [] none (j, as)) ∧
      (s n).world.sPMapMV.isSome ∧ (s n).world.sBusses.isSome ∧ (s n).world.sGlobalFMV.isSome := by
  obtain ⟨c₁, c₂, c₃, c₄, h₁, h₂, h₃, h₄, _, hret⟩ := muteAndStore_steps
  have hrest : ∀ i, ¬ Pool.CanStep c₄ i := by
    rintro i ⟨c', ⟨hstep⟩⟩
    rw [hret i] at hstep
    cases hstep
  have hrun := ((((Pool.run_rest hrest).cons h₄).cons h₃).cons h₂).cons h₁
  exact ⟨_, hrun, threads_come_to_rest _ _ _ _ _ (full_streamOf playsTwo) muteAndStore hrun⟩

/-! ## Nothing lost -/

end Pool

end Tidal
