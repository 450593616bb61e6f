import Tidal.Stream.Transition
import Tidal.Proofs.ReplaceProofs
import Tidal.Proofs.TransitionProofs
import Tidal.Lib.Views

/-!
# Proofs: the ids of a stream are independent of each other

The play map is a mixer with a strip for every id. A command acts on a strip by what it finds there, and
on the strips that it names only. So what becomes of an id in a run of commands depends on the commands
that concern it: its flags are as the last of these has set them, and replacing or silencing its pattern
leaves them alone.
-/

namespace Tidal

variable {S : Type} [StateMap S]

/-! ## One strip -/

/-- What a command does to the strip `j`. -/
def Command.onStrip (t : Time) (j : String) : Command S → Option (PlayState S) → Option (PlayState S)
  | replace k pat, x => if k = j then some (updatePS k t pat x) else x
  | onIds ks c, x => x.map c.apply^[ks.count j]
  | onAll c, x => x.map c.apply
  | rollback, x => x.map previousPattern

omit [StateMap S] in
theorem getElem?_updateIds (ks : List String) (f : PlayState S → PlayState S) (pMap : PlayMap S)
    (j : String) : (updateIds ks f pMap)[j]? = pMap[j]?.map f^[ks.count j] := by
  induction ks with
  | nil =>
    rw [List.count_nil, Function.iterate_zero, Option.map_id]
    rfl
  | cons k ks ih =>
    rw [updateIds_cons, getElem?_modify, ih]
    by_cases hk : k = j
    · subst hk
      rw [if_pos rfl, List.count_cons_self, Option.map_map, Function.iterate_succ']
    · rw [if_neg hk, List.count_cons_of_ne hk]

/-- A command acts on every strip by what is there. -/
theorem getElem?_apply (u : Update S) (pMap : PlayMap S) (j : String) :
    (u.apply pMap)[j]? = u.command.onStrip u.time j pMap[j]? := by
  rcases u with ⟨c, t⟩
  cases c with
  | replace k pat =>
    show (pMap.insert k (updatePS k t pat pMap[k]?))[j]? = _
    rw [getElem?_insert, Command.onStrip]
    by_cases hk : k = j
    · subst hk
      rfl
    · rw [if_neg hk, if_neg hk]
  | onIds ks c => exact getElem?_updateIds ks c.apply pMap j
  | onAll c => exact Std.ExtTreeMap.getElem?_map ..
  | rollback => exact Std.ExtTreeMap.getElem?_map ..

/-- So does a run. -/
theorem getElem?_updated (us : List (Update S)) (pMap : PlayMap S) (j : String) :
    (updated us pMap)[j]? = Views.run (fun u : Update S => u.command.onStrip u.time j) us pMap[j]? :=
  Views.view_run (fun m : PlayMap S => m[j]?) (fun u m => getElem?_apply u m j) us pMap

/-! ## Independence -/

/-- The command names the id, or all ids. -/
def Command.concerns (j : String) : Command S → Bool
  | replace k _ => k = j
  | onIds ks _ => j ∈ ks
  | onAll _ | rollback => true

omit [StateMap S] in
theorem onStrip_of_not_concerns [StateMap S] {c : Command S} {j : String} (h : c.concerns j = false)
    (t : Time) (x : Option (PlayState S)) : c.onStrip t j x = x := by
  cases c with
  | replace k pat => exact if_neg (of_decide_eq_false h)
  | onIds ks c =>
    have hcount : ks.count j = 0 := List.count_eq_zero.mpr (of_decide_eq_false h)
    rw [Command.onStrip, hcount, Function.iterate_zero, Option.map_id]
    rfl
  | onAll c => cases h
  | rollback => cases h

/-- What an update comes to. -/
def Update.outcome [EmptyCollection S] (u : Update S) : Update S := ⟨u.command.outcome, u.time⟩

section Runs

variable {X : Type} [EmptyCollection S]

/-- Commands, one after the other. -/
def runCommands (getCycleTime : X → Time × X) (cs : List (Command S)) : Streaming S X Unit :=
  Effect.forM_ cs fun c => c.run getCycleTime

theorem runCommands_cons_run (getCycleTime : X → Time × X) {c : Command S} {cs : List (Command S)}
    {w w₁ : World S X} (hc : c.run getCycleTime w = .returned () w₁) :
    runCommands getCycleTime (c :: cs) w = runCommands getCycleTime cs w₁ := by
  unfold runCommands Effect.forM_
  simp only [Effect.mapM, Effect.bind_run, hc, Effect.andThen]
  cases Effect.mapM (fun c : Command S => c.run getCycleTime) cs w₁ <;> rfl

/-- Every command returns with what it comes to, a replacement that fails too. -/
theorem run_outcome (getCycleTime : X → Time × X) (c : Command S) {w : World S X} {pMap : PlayMap S}
    (h : w.sPMapMV = some pMap) :
    ∃ w' t, c.run getCycleTime w = .returned () w' ∧ w'.sPMapMV = some (c.outcome.effect t pMap) := by
  cases c with
  | replace k pat =>
    cases hpat : (pat.queryArc ⟨0, 0⟩).first with
    | ok _ =>
      obtain ⟨w', hrun, hmap⟩ := run_effect getCycleTime (c := .replace k pat) hpat h
      refine ⟨w', (getCycleTime w.outside).1, hrun, ?_⟩
      rw [hmap, Command.outcome, hpat]
    | error e =>
      obtain ⟨w', hrun, hmap⟩ := streamReplace_failed getCycleTime (k := k) hpat h
      refine ⟨w', 0, hrun, ?_⟩
      rw [hmap, Command.outcome, hpat]
      rfl
  | onIds ks c =>
    obtain ⟨w', hrun, hmap⟩ := run_effect getCycleTime (c := .onIds ks c) trivial h
    exact ⟨w', _, hrun, hmap⟩
  | onAll c =>
    obtain ⟨w', hrun, hmap⟩ := run_effect getCycleTime (c := .onAll c) trivial h
    exact ⟨w', _, hrun, hmap⟩
  | rollback =>
    obtain ⟨w', hrun, hmap⟩ := run_effect getCycleTime (c := .rollback) trivial h
    exact ⟨w', _, hrun, hmap⟩

/-- So a run of commands is a run of what they come to, each at some time. -/
theorem runCommands_updated (getCycleTime : X → Time × X) (cs : List (Command S)) {w : World S X}
    {pMap : PlayMap S} (h : w.sPMapMV = some pMap) :
    ∃ (us : List (Update S)) (w' : World S X), us.map Update.command = cs ∧
      runCommands getCycleTime cs w = .returned () w' ∧
      w'.sPMapMV = some (updated (us.map Update.outcome) pMap) := by
  induction cs generalizing w pMap with
  | nil => exact ⟨[], w, rfl, rfl, h⟩
  | cons c cs ih =>
    obtain ⟨w₁, t, hrun, hmap⟩ := run_outcome getCycleTime c h
    obtain ⟨us, w', hus, hrest, hmap'⟩ := ih hmap
    refine ⟨⟨c, t⟩ :: us, w', ?_, (runCommands_cons_run getCycleTime hrun).trans hrest, hmap'⟩
    rw [List.map_cons, hus]

/-- **What becomes of an id depends on what concerns it.** Two runs with the same updates that come to something
for the id, from play maps that agree on the id, end in play maps that agree on it. A replacement that fails
concerns every id, for it goes back on all of them. What the commands of users make of a stream is such a run. -/
theorem updated_congr_of_concerns (us us' : List (Update S)) (j : String)
    (h : us.filter (fun u => u.command.outcome.concerns j) = us'.filter fun u => u.command.outcome.concerns j)
    (pMap pMap' : PlayMap S) (hm : pMap[j]? = pMap'[j]?) :
    (updated (us.map Update.outcome) pMap)[j]? = (updated (us'.map Update.outcome) pMap')[j]? ∧
    ∀ (getCycleTime : X → Time × X) (cs : List (Command S)) (w : World S X), w.sPMapMV = some pMap →
      ∃ (vs : List (Update S)) (w' : World S X), vs.map Update.command = cs ∧
        runCommands getCycleTime cs w = .returned () w' ∧
        w'.sPMapMV = some (updated (vs.map Update.outcome) pMap) := by
  refine ⟨?_, fun getCycleTime cs w hw => runCommands_updated getCycleTime cs hw⟩
  have hmap : ∀ vs : List (Update S), (vs.map Update.outcome).filter (fun u => u.command.concerns j) =
      (vs.filter fun u => u.command.outcome.concerns j).map Update.outcome := by
    intro vs
    rw [List.filter_map]
    rfl
  rw [getElem?_updated, getElem?_updated, hm]
  refine Views.run_congr (fun u hu => onStrip_of_not_concerns hu u.time) ?_ _
  rw [hmap, hmap, h]

end Runs

/-- Muting `1` makes no difference to `2`, which goes back when a replacement of `1` fails. -/
theorem updated_congr_of_concerns_two :
    (updated ([⟨.onIds ["1"] .mute, 0⟩, muteTwo, ⟨.replace "1" undefinedPattern, 0⟩].map Update.outcome)
        playsTwo)["2"]? =
      (updated ([muteTwo, ⟨.replace "1" undefinedPattern, 0⟩].map Update.outcome) playsTwo)["2"]? :=
  (updated_congr_of_concerns (X := Unit) [⟨.onIds ["1"] .mute, 0⟩, muteTwo, ⟨.replace "1" undefinedPattern, 0⟩]
    [muteTwo, ⟨.replace "1" undefinedPattern, 0⟩] "2" (by rfl) playsTwo playsTwo rfl).1

/-! ## Flags -/

/-- What a change sets the mute flag to, if it does. -/
def Change.mutes : Change → Option Bool
  | mute => some true
  | unmute => some false
  | _ => none

/-- What a change sets the solo flag to, if it does. -/
def Change.solos : Change → Option Bool
  | solo => some true
  | unsolo => some false
  | _ => none

/-- What a command sets a flag of the strip `j` to, where `sets` says what the changes do. -/
def Command.flag (sets : Change → Option Bool) (j : String) : Command S → Option Bool
  | onIds ks c => if j ∈ ks then sets c else none
  | onAll c => sets c
  | _ => none

/-- What a command does to a strip that is there. -/
def Command.onState (t : Time) (j : String) : Command S → PlayState S → PlayState S
  | replace k pat, x => if k = j then updatePS k t pat (some x) else x
  | onIds ks c, x => c.apply^[ks.count j] x
  | onAll c, x => c.apply x
  | rollback, x => previousPattern x

/-- A strip that is there stays. -/
theorem onStrip_some (t : Time) (j : String) (c : Command S) (x : PlayState S) :
    c.onStrip t j (some x) = some (c.onState t j x) := by
  cases c with
  | replace k pat =>
    rw [Command.onStrip, Command.onState]
    by_cases hk : k = j
    · rw [if_pos hk, if_pos hk]
    · rw [if_neg hk, if_neg hk]
  | _ => rfl

omit [StateMap S] in
/-- A flag after a change has been made some times. -/
theorem flag_iterate {get : PlayState S → Bool} {sets : Change → Option Bool}
    (h : ∀ (c : Change) (x : PlayState S), get (c.apply x) = (sets c).getD (get x)) (c : Change) (n : ℕ)
    (x : PlayState S) : get (c.apply^[n] x) = if 0 < n then (sets c).getD (get x) else get x := by
  induction n with
  | zero => rfl
  | succ n ih =>
    rw [Function.iterate_succ_apply', h, ih, if_pos n.succ_pos]
    cases sets c with
    | none => split_ifs <;> rfl
    | some b => rfl

/-- A command sets a flag as its change says, or leaves it alone. -/
theorem flag_onState (get : PlayState S → Bool) {sets : Change → Option Bool}
    (h : ∀ (c : Change) (x : PlayState S), get (c.apply x) = (sets c).getD (get x))
    (hpat : ∀ k t pat (x : PlayState S), get (updatePS k t pat (some x)) = get x)
    (hback : ∀ x : PlayState S, get (previousPattern x) = get x) (t : Time) (j : String)
    (c : Command S) (x : PlayState S) :
    get (c.onState t j x) = (c.flag sets j).getD (get x) := by
  cases c with
  | replace k pat =>
    rw [Command.onState]
    split_ifs
    · exact hpat k t pat x
    · rfl
  | onIds ks c =>
    show get (c.apply^[ks.count j] x) = (if j ∈ ks then sets c else none).getD (get x)
    rw [flag_iterate h]
    by_cases hj : j ∈ ks
    · rw [if_pos hj, if_pos (List.count_pos_iff.mpr hj)]
    · rw [if_neg hj, if_neg (fun hpos => hj (List.count_pos_iff.mp hpos))]
      rfl
  | onAll c => exact h c x
  | rollback => exact hback x

omit [StateMap S] in
theorem previousPattern_flags (x : PlayState S) :
    (previousPattern x).psMute = x.psMute ∧ (previousPattern x).psSolo = x.psSolo := by
  unfold previousPattern
  split <;> exact ⟨rfl, rfl⟩

/-- **The flags of an id** that is there are as the last command has set them that names the id or all
ids: no other command changes them, nor do replacements, silences and rollbacks of its pattern. -/
theorem flags_updated (us : List (Update S)) (pMap : PlayMap S) (j : String) (x : PlayState S)
    (hx : pMap[j]? = some x) :
    ∃ x', (updated us pMap)[j]? = some x' ∧
      x'.psMute = (us.filterMap fun u => u.command.flag Change.mutes j).getLast?.getD x.psMute ∧
      x'.psSolo = (us.filterMap fun u => u.command.flag Change.solos j).getLast?.getD x.psSolo := by
  let step (u : Update S) : PlayState S → PlayState S := u.command.onState u.time j
  refine ⟨Views.run step us x, ?_, ?_, ?_⟩
  · rw [getElem?_updated, hx]
    exact (Views.view_run some (fun u y => (onStrip_some u.time j u.command y).symm) us x).symm
  · refine Views.get_run (fun u y => ?_) us x
    refine flag_onState PlayState.psMute ?_ ?_ ?_ u.time j u.command y
    · exact fun c y => by cases c <;> rfl
    · exact fun _ _ _ _ => rfl
    · exact fun y => (previousPattern_flags y).1
  · refine Views.get_run (fun u y => ?_) us x
    refine flag_onState PlayState.psSolo ?_ ?_ ?_ u.time j u.command y
    · exact fun c y => by cases c <;> rfl
    · exact fun _ _ _ _ => rfl
    · exact fun y => (previousPattern_flags y).2

theorem flags_updated_two : ∃ x', (updated [muteTwo, ⟨.onAll .silence, 0⟩] playsTwo)["2"]? = some x' ∧
    x'.psMute = true ∧ x'.psSolo = false :=
  flags_updated [muteTwo, ⟨.onAll .silence, 0⟩] playsTwo "2" (started bd)
    Std.ExtTreeMap.getElem?_insert_self

/-! ## Back through the history -/

omit [StateMap S] in
/-- What plays after going back some times. -/
theorem previousPattern_iterate (n : ℕ) (x : PlayState S) :
    (previousPattern^[n + 1] x).psPattern = x.psHistory.getD (n + 1) LivePattern.silence := by
  induction n generalizing x with
  | zero =>
    rw [zero_add, Function.iterate_one]
    rcases hx : x.psHistory with _ | ⟨_, _ | ⟨p, ps⟩⟩ <;> rw [previousPattern, hx] <;> rfl
  | succ n ih =>
    rw [Function.iterate_succ_apply, ih]
    rcases hx : x.psHistory with _ | ⟨_, _ | ⟨p, ps⟩⟩ <;> rw [previousPattern, hx] <;> rfl

section Failures

variable {X : Type} [EmptyCollection S]

/-- A list of replacements, one after the other. -/
def replaceAll (getCycleTime : X → Time × X) (rs : List (String × ControlPattern S)) :
    Streaming S X Unit :=
  Effect.forM_ rs fun r => streamReplace getCycleTime r.1 r.2

theorem replaceAll_cons_run (getCycleTime : X → Time × X) {r : String × ControlPattern S}
    {rs : List (String × ControlPattern S)} {w w₁ : World S X}
    (hr : streamReplace getCycleTime r.1 r.2 w = .returned () w₁) :
    replaceAll getCycleTime (r :: rs) w = replaceAll getCycleTime rs w₁ := by
  unfold replaceAll Effect.forM_
  simp only [Effect.mapM, Effect.bind_run, hr, Effect.andThen]
  cases Effect.mapM (fun r => streamReplace getCycleTime r.1 r.2) rs w₁ <;> rfl

/-- **Failures walk back.** After a number of replacements that fail, one after the other, every id of
the stream, and not only those whose patterns failed, plays the pattern that many places back in its
history, and silence where its history ends. -/
theorem replaceAll_failed (getCycleTime : X → Time × X) (rs : List (String × ControlPattern S))
    (hne : rs ≠ []) (hrs : ∀ r ∈ rs, ∃ e, (r.2.queryArc ⟨0, 0⟩).first = .error e) (w : World S X)
    (pMap : PlayMap S) (h : w.sPMapMV = some pMap) :
    ∃ w' pMap', replaceAll getCycleTime rs w = .returned () w' ∧ w'.sPMapMV = some pMap' ∧
      ∀ j : String, (pMap'[j]?).map PlayState.psPattern =
        (pMap[j]?).map fun x : PlayState S => x.psHistory.getD rs.length LivePattern.silence := by
  have hback : ∀ rs : List (String × ControlPattern S), (∀ r ∈ rs, ∃ e, (r.2.queryArc ⟨0, 0⟩).first = .error e) →
      ∀ (w : World S X) (pMap : PlayMap S), w.sPMapMV = some pMap →
        ∃ w' pMap', replaceAll getCycleTime rs w = .returned () w' ∧ w'.sPMapMV = some pMap' ∧
          ∀ j : String, pMap'[j]? = (pMap[j]?).map previousPattern^[rs.length] := by
    intro rs hrs
    induction rs with
    | nil =>
      intro w pMap h
      refine ⟨w, pMap, rfl, h, fun j => ?_⟩
      rw [List.length_nil, Function.iterate_zero, Option.map_id]
      rfl
    | cons r rs ih =>
      intro w pMap h
      obtain ⟨e, he⟩ := hrs r List.mem_cons_self
      obtain ⟨w₁, hrun, hmap⟩ := streamReplace_failed getCycleTime (k := r.1) he h
      obtain ⟨w', pMap', hrest, hpMap', hall⟩ :=
        ih (fun r' hr' => hrs r' (List.mem_cons_of_mem r hr')) w₁ _ hmap
      refine ⟨w', pMap', (replaceAll_cons_run getCycleTime hrun).trans hrest, hpMap', fun j => ?_⟩
      rw [hall j, Std.ExtTreeMap.getElem?_map, Option.map_map, List.length_cons,
        Function.iterate_succ]
  obtain ⟨w', pMap', hrun, hpMap', hall⟩ := hback rs hrs w pMap h
  obtain ⟨n, hn⟩ := Nat.exists_eq_succ_of_ne_zero (mt List.length_eq_zero_iff.mp hne)
  refine ⟨w', pMap', hrun, hpMap', fun j => ?_⟩
  rw [hall j, hn, Option.map_map]
  exact congrArg (fun f => (pMap[j]?).map f) (funext fun x => previousPattern_iterate n x)

end Failures

/-- Two replacements of `1` fail, and `2` falls silent. -/
theorem replaceAll_failed_twice :
    let rs := [("1", undefinedPattern), ("1", undefinedPattern)]
    ∃ w' pMap', replaceAll clockAtThree rs (streamOf playsTwo) = .returned () w' ∧
      w'.sPMapMV = some pMap' ∧ ∀ j : String, (pMap'[j]?).map PlayState.psPattern =
        (playsTwo[j]?).map fun x : PlayState (ValueMap Empty) =>
          x.psHistory.getD rs.length LivePattern.silence :=
  replaceAll_failed clockAtThree [("1", undefinedPattern), ("1", undefinedPattern)] (by decide)
    (fun r hr => ⟨"Prelude.undefined", by
      rcases List.mem_cons.mp hr with rfl | hr
      · rfl
      · rw [List.mem_singleton.mp hr]
        rfl⟩) (streamOf playsTwo) playsTwo rfl

end Tidal
