import Tidal.Stream.Process

/-!
# What users do to a stream (`Sound.Tidal.Stream.UI`)
-/

namespace Tidal

open Effect MVar

variable {S X : Type}

/-- Replaces the pattern of an id. If the new pattern raises an exception, this function prints a warning
and returns to the previous pattern. `getCycleTime` asks the clock. -/
def streamReplace [StateMap S] [EmptyCollection S] (getCycleTime : X → Time × X) (k : String)
    (pat : ControlPattern S) : Streaming S X Unit := do
  let t ← calling getCycleTime
  handle (fun e => do
    hPutStrLn ("Failed to Stream.streamReplace: " ++ e)
    hPutStrLn "Return to previous pattern."
    setPreviousPatternOrSilence) (updatePattern k t pat)

/-- The map with the play states of these ids changed, as far as they are there. -/
def updateIds (ks : List String) (f : PlayState S → PlayState S) (playMap : PlayMap S) : PlayMap S :=
  ks.foldr (fun k m => m.modify k f) playMap

theorem updateIds_cons (k : String) (ks : List String) (f : PlayState S → PlayState S)
    (playMap : PlayMap S) : updateIds (k :: ks) f playMap = (updateIds ks f playMap).modify k f := rfl

def withPatIds (ks : List String) (f : PlayState S → PlayState S) : Streaming S X Unit := do
  let playMap ← takeMVar playMV
  putMVar playMV (updateIds ks f playMap)

/-- `modifyMVar_` with a change of every play state. -/
def withAll (f : PlayState S → PlayState S) : Streaming S X Unit :=
  modifyMVar_ playMV fun pMap => pure (pMap.map fun _ x => f x)

/-- The play state with its pattern silenced. -/
def silenced (x : PlayState S) : PlayState S :=
  { x with psPattern := LivePattern.silence, psHistory := LivePattern.silence :: x.psHistory }

/-! ## The functions of users -/

def streamMute (k : String) : Streaming S X Unit := withPatIds [k] fun x => { x with psMute := true }

def streamMutes (ks : List String) : Streaming S X Unit := withPatIds ks fun x => { x with psMute := true }

def streamUnmute (k : String) : Streaming S X Unit := withPatIds [k] fun x => { x with psMute := false }

def streamSolo (k : String) : Streaming S X Unit := withPatIds [k] fun x => { x with psSolo := true }

def streamUnsolo (k : String) : Streaming S X Unit := withPatIds [k] fun x => { x with psSolo := false }

def streamMuteAll : Streaming S X Unit := withAll fun x => { x with psMute := true }

def streamHush : Streaming S X Unit := withAll silenced

def streamUnmuteAll : Streaming S X Unit := withAll fun x => { x with psMute := false }

def streamUnsoloAll : Streaming S X Unit := withAll fun x => { x with psSolo := false }

def streamSilence (k : String) : Streaming S X Unit := withPatIds [k] silenced

/-! ## Commands -/

/-- What is done to a play state: the functions above do it to some ids or to all. -/
inductive Change where
  | mute
  | unmute
  | solo
  | unsolo
  | silence
deriving DecidableEq

def Change.apply : Change → PlayState S → PlayState S
  | mute, x => { x with psMute := true }
  | unmute, x => { x with psMute := false }
  | solo, x => { x with psSolo := true }
  | unsolo, x => { x with psSolo := false }
  | silence, x => silenced x

/-- The updates of the play map. -/
inductive Command (S : Type) where
  | replace (k : String) (pat : ControlPattern S)
  | onIds (ks : List String) (c : Change)
  | onAll (c : Change)
  | rollback

namespace Command

variable [StateMap S] [EmptyCollection S]

def run (getCycleTime : X → Time × X) : Command S → Streaming S X Unit
  | replace k pat => streamReplace getCycleTime k pat
  | onIds ks c => withPatIds ks c.apply
  | onAll c => withAll c.apply
  | rollback => setPreviousPatternOrSilence

/-- The map after the command, if it succeeds at time `t`. -/
def effect (t : Time) : Command S → PlayMap S → PlayMap S
  | replace k pat, m => m.insert k (updatePS k t pat m[k]?)
  | onIds ks c, m => updateIds ks c.apply m
  | onAll c, m => m.map fun _ x => c.apply x
  | rollback, m => m.map fun _ x => previousPattern x

/-- Only the test query of a replacement can fail. -/
def Succeeds : Command S → Prop
  | replace _ pat => (pat.queryArc ⟨0, 0⟩).first = .ok ()
  | _ => True

/-- What a command comes to: a replacement that fails comes to a rollback. -/
def outcome : Command S → Command S
  | replace k pat =>
    match (pat.queryArc ⟨0, 0⟩).first with
    | .ok _ => replace k pat
    | .error _ => rollback
  | c => c

/-- Every command but a replacement takes the play map and puts it back with its effect. -/
theorem run_eq_withTaken (getCycleTime : X → Time × X) (t : Time) {c : Command S}
    (hc : ∀ k pat, c ≠ replace k pat) :
    c.run getCycleTime = withTaken playMV fun pMap => pure (c.effect t pMap) := by
  cases c with
  | replace k pat => exact absurd rfl (hc k pat)
  | onIds ks c => rfl
  | onAll c => rfl
  | rollback => rfl

/-- So does a replacement, once its pattern has been tried out. -/
theorem updatePattern_eq_withTaken (t : Time) {k : String} {pat : ControlPattern S}
    (hpat : (replace k pat).Succeeds) :
    (updatePattern k t pat : Streaming S X Unit) =
      withTaken playMV fun pMap => pure ((replace k pat).effect t pMap) := by
  rw [updatePattern, show (pat.queryArc ⟨0, 0⟩).first = .ok () from hpat]
  rfl

end Command

example (k : String) : (streamMute k : Streaming (ValueMap Empty) X Unit) =
    (Command.onIds [k] .mute).run fun x => (0, x) := rfl

example : (streamHush : Streaming (ValueMap Empty) X Unit) =
    (Command.onAll .silence).run fun x => (0, x) := rfl

end Tidal
