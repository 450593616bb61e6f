import Tidal.Stream.UI
import Tidal.Proofs.StreamProofs

/-!
# Proofs: replacing patterns and going back

A pattern that raises while it is tried out is not taken up, but the handler sets every id back by one
pattern all the same. What an id goes back to is the pattern in its history, which is not always the one
that was played.
-/

namespace Tidal

open Effect MVar

variable {S X : Type} {w : World S X} {pMap : PlayMap S}

/-! ## Going back -/

theorem previousPattern_eq_iff {x : PlayState S} :
    previousPattern x = x ↔ x.psPattern = LivePattern.silence ∧ x.psHistory = [LivePattern.silence] := by
  obtain ⟨p, mute, solo, history⟩ := x
  match history with
  | [] => simp [previousPattern]
  | [q] => simp [previousPattern, eq_comm]
  | q :: q' :: qs =>
    -- one pattern is dropped from the history
    have hlen : q' :: qs ≠ q :: q' :: qs := fun h => by simpa using congrArg List.length h
    simp [previousPattern, hlen]

theorem map_eq_self_iff {α : Type} {m : Map α} {f : α → α} :
    (m.map fun _ x => f x) = m ↔ ∀ (k : String) x, m[k]? = some x → f x = x := by
  constructor
  · intro h k x hx
    have hk := congrArg (fun m : Map α => m[k]?) h
    simp only [Std.ExtTreeMap.getElem?_map, hx, Option.map_some] at hk
    exact Option.some.inj hk
  · intro h
    refine Std.ExtTreeMap.ext_getElem? fun k => ?_
    rw [Std.ExtTreeMap.getElem?_map]
    cases hx : m[k]? with
    | none => rfl
    | some x => rw [Option.map_some, h k x hx]

theorem setPreviousPattern_run (h : w.sPMapMV = some pMap) :
    ∃ w', (setPreviousPatternOrSilence : Streaming S X Unit) w = .returned () w' ∧
      w'.sPMapMV = some (pMap.map fun _ x => previousPattern x) :=
  modifyMVar_pure (m := playMV) (fun m : PlayMap S => m.map fun _ x => previousPattern x) h

/-! ## A replacement that fails -/

section Failed

variable [StateMap S] [EmptyCollection S] {getCycleTime : X → Time × X} {k : String}
  {pat : ControlPattern S}

variable (getCycleTime) in
theorem streamReplace_failed {e : SomeException} (hpat : (pat.queryArc ⟨0, 0⟩).first = .error e)
    (h : w.sPMapMV = some pMap) :
    ∃ w', streamReplace getCycleTime k pat w = .returned () w' ∧
      w'.sPMapMV = some (pMap.map fun _ x => previousPattern x) := by
  set w₁ : World S X := { w with
    outside := (getCycleTime w.outside).2
    stderr := w.stderr ++ ["Failed to Stream.streamReplace: " ++ e] ++ ["Return to previous pattern."] }
    with hw₁
  have hrun : streamReplace getCycleTime k pat w = setPreviousPatternOrSilence w₁ := by
    show handle _ (updatePattern k _ pat) _ = _
    unfold handle updatePattern
    rw [hpat]
    rfl
  rw [hrun]
  exact setPreviousPattern_run h

/-- **A failed replacement changes nothing** only in a map of silent ids without a history. -/
theorem streamReplace_failed_unchanged_iff (getCycleTime : X → Time × X) (k : String)
    (pat : ControlPattern S) (e : SomeException) (hpat : (pat.queryArc ⟨0, 0⟩).first = .error e)
    (w : World S X) (pMap : PlayMap S) (h : w.sPMapMV = some pMap) :
    (∃ w', streamReplace getCycleTime k pat w = .returned () w' ∧ w'.sPMapMV = some pMap) ↔
      ∀ (j : String) x, pMap[j]? = some x →
        x.psPattern = LivePattern.silence ∧ x.psHistory = [LivePattern.silence] := by
  obtain ⟨w', hrun, hmap⟩ := streamReplace_failed getCycleTime (k := k) hpat h
  have hunchanged : (∃ w', streamReplace getCycleTime k pat w = .returned () w' ∧
      w'.sPMapMV = some pMap) ↔ (pMap.map fun _ x => previousPattern x) = pMap := by
    constructor
    · rintro ⟨w₁, hrun₁, hmap₁⟩
      rw [hrun] at hrun₁
      cases hrun₁
      exact Option.some.inj (hmap.symm.trans hmap₁)
    · intro heq
      exact ⟨w', hrun, by rw [hmap, heq]⟩
  rw [hunchanged, map_eq_self_iff]
  exact forall₃_congr fun _ _ _ => previousPattern_eq_iff

end Failed

/-! ## Examples of streams -/

/-- One drum in every cycle. -/
def bd : ControlPattern (ValueMap Empty) :=
  ControlPattern.pS "s" (LivePattern.ofPattern (Pattern.pure "bd"))

/-- Whether the pattern names the id in its first event. -/
def hasId (p : ControlPattern (ValueMap Empty)) : Bool :=
  match (p.queryArc ⟨0, 1⟩).elems with
  | e :: _ =>
    match e.value with
    | .ok v => v.contains "_id_"
    | .error _ => false
  | [] => false

/-- The number of events in the first cycle. -/
def countEvents (p : ControlPattern (ValueMap Empty)) : ℕ :=
  (p.queryArc ⟨0, 1⟩).elems.length

theorem bd_ne_silence : bd ≠ LivePattern.silence := fun h =>
  absurd (congrArg countEvents h) (by decide)

/-- A stream with the given play map. -/
def streamOf (pMap : PlayMap (ValueMap Empty)) : World (ValueMap Empty) Unit :=
  ⟨some (.ok ∅), some [], some pMap, some id, (), []⟩

/-- An id that started with this pattern. -/
def started (p : ControlPattern (ValueMap Empty)) : PlayState (ValueMap Empty) := ⟨p, false, false, [p]⟩

/-- A clock that stands at cycle three. -/
def clockAtThree (x : Unit) : Time × Unit := (3, x)

/-- Two ids that have always been silent, of which one is muted. -/
def silentTwo : PlayMap (ValueMap Empty) :=
  ((∅ : PlayMap _).insert "1" (started LivePattern.silence)).insert "2"
    { started LivePattern.silence with psMute := true }

/-- They stay as they are when a replacement fails, but not if a third id plays. -/
theorem streamReplace_failed_unchanged_iff_two :
    (∃ w', streamReplace clockAtThree "3" undefinedPattern (streamOf silentTwo) = .returned () w' ∧
      w'.sPMapMV = some silentTwo) ∧
    ¬ ∃ w', streamReplace clockAtThree "3" undefinedPattern (streamOf (silentTwo.insert "4" (started bd))) =
        .returned () w' ∧ w'.sPMapMV = some (silentTwo.insert "4" (started bd)) := by
  constructor
  · refine (streamReplace_failed_unchanged_iff clockAtThree "3" undefinedPattern "Prelude.undefined" rfl
      (streamOf silentTwo) silentTwo rfl).mpr fun j x hx => ?_
    rw [silentTwo, Std.ExtTreeMap.getElem?_insert, Std.ExtTreeMap.getElem?_insert] at hx
    split_ifs at hx
    · exact Option.some.inj hx ▸ ⟨rfl, rfl⟩
    · exact Option.some.inj hx ▸ ⟨rfl, rfl⟩
    · simp at hx
  · intro h
    exact bd_ne_silence ((streamReplace_failed_unchanged_iff clockAtThree "3" undefinedPattern
      "Prelude.undefined" rfl (streamOf (silentTwo.insert "4" (started bd))) _ rfl).mp h "4" (started bd)
      Std.ExtTreeMap.getElem?_insert_self).1

/-- The test reads no further than to the first event. -/
example : (Command.replace "1" (LivePattern.stack [bd, undefinedPattern])).Succeeds ∧
    ¬ (Command.replace "1" (LivePattern.stack [undefinedPattern, bd])).Succeeds := ⟨rfl, nofun⟩

/-- While `1` plays, replacing `2` fails, and `1` falls silent. -/
theorem streamReplace_failed_changes :
    let pMap : PlayMap (ValueMap Empty) := (∅ : PlayMap _).insert "1" (started bd)
    (undefinedPattern.queryArc ⟨0, 0⟩).first = .error "Prelude.undefined" ∧
    ¬ ∃ w', streamReplace clockAtThree "2" undefinedPattern (streamOf pMap) = .returned () w' ∧
      w'.sPMapMV = some pMap := by
  have hpat : (undefinedPattern.queryArc ⟨0, 0⟩).first = .error "Prelude.undefined" := rfl
  refine ⟨hpat, ?_⟩
  rintro ⟨w', hrun, hsame⟩
  obtain ⟨w₁, hrun₁, hmap⟩ := streamReplace_failed clockAtThree (k := "2")
    hpat (w := streamOf ((∅ : PlayMap _).insert "1" (started bd))) rfl
  rw [hrun] at hrun₁
  cases hrun₁
  have heq := Option.some.inj (hmap.symm.trans hsame)
  have hbd := map_eq_self_iff.mp heq "1" (started bd) Std.ExtTreeMap.getElem?_insert_self
  exact bd_ne_silence (previousPattern_eq_iff.mp hbd).1

/-! ## The latest pattern -/

/-- What plays is the latest pattern of the history. -/
def Latest (x : PlayState S) : Prop := x.psHistory.head? = some x.psPattern

/-- Every id of the map plays its latest pattern. -/
def AllLatest (pMap : PlayMap S) : Prop := ∀ (j : String) x, pMap[j]? = some x → Latest x

theorem latest_previousPattern (x : PlayState S) : Latest (previousPattern x) := by
  obtain ⟨p, mute, solo, history⟩ := x
  match history with
  | [] => rfl
  | [_] => rfl
  | _ :: _ :: _ => rfl

theorem latest_apply (c : Change) {x : PlayState S} (h : Latest x) : Latest (c.apply x) := by
  cases c with
  | silence => rfl
  | _ => exact h

theorem AllLatest.map {f : PlayState S → PlayState S} (hf : ∀ x, Latest x → Latest (f x))
    (h : AllLatest pMap) : AllLatest (pMap.map fun _ x => f x) := by
  intro j x hx
  rw [Std.ExtTreeMap.getElem?_map, Option.map_eq_some_iff] at hx
  obtain ⟨y, hy, rfl⟩ := hx
  exact hf y (h j y hy)

theorem getElem?_modify (f : PlayState S → PlayState S) (k j : String) :
    (pMap.modify k f)[j]? = if k = j then pMap[j]?.map f else pMap[j]? := by
  rw [Std.ExtTreeMap.getElem?_modify]
  by_cases hk : k = j
  · subst hk
    rw [if_pos Std.ReflCmp.compare_self, if_pos rfl]
  · rw [if_neg (mt Std.LawfulEqCmp.eq_of_compare hk), if_neg hk]

theorem AllLatest.updateIds {f : PlayState S → PlayState S} (hf : ∀ x, Latest x → Latest (f x))
    (ks : List String) (h : AllLatest pMap) : AllLatest (updateIds ks f pMap) := by
  induction ks with
  | nil => exact h
  | cons k ks ih =>
    intro j x hx
    rw [updateIds_cons, getElem?_modify] at hx
    split_ifs at hx
    · obtain ⟨y, hy, rfl⟩ := Option.map_eq_some_iff.mp hx
      exact hf y (ih j y hy)
    · exact ih j x hx

theorem getElem?_insert (k : String) (x : PlayState S) (j : String) :
    (pMap.insert k x)[j]? = if k = j then some x else pMap[j]? := by
  rw [Std.ExtTreeMap.getElem?_insert]
  by_cases hk : k = j
  · subst hk
    rw [if_pos Std.ReflCmp.compare_self, if_pos rfl]
  · rw [if_neg (mt Std.LawfulEqCmp.eq_of_compare hk), if_neg hk]

section Commands

variable [StateMap S] {k : String} {t : Time} {pat : ControlPattern S}

/-- A new id remembers what it plays; an id that plays remembers the pattern as it was given. -/
theorem latest_updatePS_iff {x : Option (PlayState S)} :
    Latest (updatePS k t pat x) ↔ (x = none ∨ playedPattern k t pat = pat) := by
  cases x with
  | none => exact iff_of_true rfl (.inl rfl)
  | some x => simp [Latest, updatePS, eq_comm]

/-- The command does not make the history of an id differ from what it plays: it replaces no pattern, or
that of a new id, or the given pattern is the one that is played. -/
def Command.KeepsHistory (t : Time) (pMap : PlayMap S) : Command S → Prop
  | replace k pat => pMap[k]? = none ∨ playedPattern k t pat = pat
  | _ => True

theorem allLatest_effect {c : Command S} (hc : c.KeepsHistory t pMap) (h : AllLatest pMap) :
    AllLatest (c.effect t pMap) := by
  cases c with
  | replace k pat =>
    intro j x hx
    rw [Command.effect, getElem?_insert] at hx
    split_ifs at hx
    · obtain rfl := Option.some.inj hx
      exact latest_updatePS_iff.mpr hc
    · exact h j x hx
  | onIds ks c => exact h.updateIds (fun _ => latest_apply c) ks
  | onAll c => exact h.map fun _ => latest_apply c
  | rollback => exact h.map fun x _ => latest_previousPattern x

/-! ## Runs -/

variable [EmptyCollection S] {getCycleTime : X → Time × X}

variable (getCycleTime) in
/-- A successful command returns, and has its effect on the play map. -/
theorem run_effect {c : Command S} (hc : c.Succeeds) (h : w.sPMapMV = some pMap) :
    ∃ w', c.run getCycleTime w = .returned () w' ∧
      w'.sPMapMV = some (c.effect (getCycleTime w.outside).1 pMap) := by
  cases c with
  | replace k pat =>
    have hfirst : (pat.queryArc ⟨0, 0⟩).first = .ok () := hc
    set w₁ : World S X := { w with outside := (getCycleTime w.outside).2 } with hw₁
    have hw : playMV.get w₁ = some pMap := h
    refine ⟨playMV.set (some (Command.effect (getCycleTime w.outside).1 (.replace k pat) pMap))
      (playMV.set none w₁), ?_, rfl⟩
    show handle _ (updatePattern k _ pat) w₁ = _
    have hupdate : updatePattern k (getCycleTime w.outside).1 pat w₁ = .returned ()
        (playMV.set (some (Command.effect (getCycleTime w.outside).1 (.replace k pat) pMap))
          (playMV.set none w₁)) := by
      rw [updatePattern, hfirst]
      show (takeMVar playMV >>= _) w₁ = _
      rw [bind_run, takeMVar_full hw]
      rfl
    unfold handle
    rw [hupdate]
  | onIds ks c =>
    refine ⟨playMV.set (some (updateIds ks c.apply pMap)) (playMV.set none w), ?_, rfl⟩
    show (takeMVar playMV >>= _) w = _
    rw [bind_run, takeMVar_full (m := playMV) h]
    rfl
  | onAll c => exact modifyMVar_pure (m := playMV) (fun m : PlayMap S => m.map fun _ x => c.apply x) h
  | rollback => exact setPreviousPattern_run h

/-- The streams that commands make from one without ids, each under the condition `C`. -/
inductive Commanded (getCycleTime : X → Time × X) (C : Command S → World S X → Prop) :
    World S X → Prop
  | start {w : World S X} : w.sPMapMV = some ∅ → Commanded getCycleTime C w
  | step {w w' : World S X} (c : Command S) : Commanded getCycleTime C w → C c w →
      c.run getCycleTime w = .returned () w' → Commanded getCycleTime C w'

/-- The command succeeds, and keeps the history as it is. -/
def Keeps (getCycleTime : X → Time × X) (c : Command S) (w : World S X) : Prop :=
  c.Succeeds ∧ ∀ pMap, w.sPMapMV = some pMap → c.KeepsHistory (getCycleTime w.outside).1 pMap

/-- A replacement and going back from it leaves an id with the pattern that played. -/
def GoesBack (getCycleTime : X → Time × X) (w : World S X) : Prop :=
  ∀ k pat, (Command.replace k pat).Succeeds → ∀ pMap, w.sPMapMV = some pMap →
    ∀ x, pMap[k]? = some x → ∀ w₁ w₂, streamReplace getCycleTime k pat w = .returned () w₁ →
      setPreviousPatternOrSilence w₁ = .returned () w₂ →
        ∃ pMap₂ x₂, w₂.sPMapMV = some pMap₂ ∧ pMap₂[k]? = some x₂ ∧ x₂.psPattern = x.psPattern

theorem goesBack_of_latest (h : w.sPMapMV = some pMap) (hm : AllLatest pMap) :
    GoesBack getCycleTime w := by
  intro k pat hpat pMap' h' x hx w₁ w₂ hrun₁ hrun₂
  obtain rfl := Option.some.inj (h.symm.trans h')
  obtain ⟨v₁, hv₁, hmap₁⟩ := run_effect getCycleTime hpat h
  obtain rfl : v₁ = w₁ := by
    rw [Command.run, hrun₁] at hv₁
    cases hv₁
    rfl
  obtain ⟨v₂, hv₂, hmap₂⟩ := setPreviousPattern_run hmap₁
  obtain rfl : v₂ = w₂ := by
    rw [hrun₂] at hv₂
    cases hv₂
    rfl
  -- the history is the new pattern, and then what played
  obtain ⟨rest, hrest⟩ := List.head?_eq_some_iff.mp (hm k x hx)
  refine ⟨_, _, hmap₂, by
    rw [Std.ExtTreeMap.getElem?_map, Command.effect, getElem?_insert, if_pos rfl, Option.map_some], ?_⟩
  rw [hx, updatePS, hrest]
  rfl

/-- **What plays is the latest pattern of the history**, and is what a rollback of its replacement
restores, as long as replacements are of new ids or by patterns that are played as they are given. -/
theorem commanded_latest (h : Commanded getCycleTime (Keeps getCycleTime) w) :
    (∃ pMap, w.sPMapMV = some pMap ∧ AllLatest pMap) ∧ GoesBack getCycleTime w := by
  have hlatest : ∃ pMap, w.sPMapMV = some pMap ∧ AllLatest pMap := by
    induction h with
    | start h => exact ⟨∅, h, fun j x hx => by simp at hx⟩
    | step c _ hc hrun ih =>
      obtain ⟨pMap, hmap, hall⟩ := ih
      obtain ⟨w', hrun', hmap'⟩ := run_effect getCycleTime hc.1 hmap
      rw [hrun] at hrun'
      cases hrun'
      exact ⟨_, hmap', allLatest_effect (hc.2 _ hmap) hall⟩
  obtain ⟨pMap, hmap, hall⟩ := hlatest
  exact ⟨⟨pMap, hmap, hall⟩, goesBack_of_latest hmap hall⟩

end Commands

theorem played_bd_ne : playedPattern "1" 3 bd ≠ bd := fun h =>
  absurd (congrArg hasId h) (by with_unfolding_all decide)

theorem bd_succeeds : (Command.replace "1" bd).Succeeds := rfl

theorem bd_run {w : World (ValueMap Empty) Unit} {pMap : PlayMap (ValueMap Empty)}
    (h : w.sPMapMV = some pMap) :
    ∃ w', (Command.replace "1" bd).run clockAtThree w = .returned () w' ∧
      w'.sPMapMV = some (pMap.insert "1" (updatePS "1" 3 bd pMap["1"]?)) :=
  run_effect clockAtThree bd_succeeds h

/-- An id is started and muted, and a second one started. -/
theorem commanded_latest_thrice :
    ∃ w₁ w₂ w₃, (Command.replace "1" bd).run clockAtThree (streamOf ∅) = .returned () w₁ ∧
      (Command.onIds ["1"] .mute).run clockAtThree w₁ = .returned () w₂ ∧
      (Command.replace "2" bd).run clockAtThree w₂ = .returned () w₃ ∧
      (∃ pMap, w₃.sPMapMV = some pMap ∧ AllLatest pMap) ∧ GoesBack clockAtThree w₃ := by
  obtain ⟨w₁, hrun₁, hmap₁⟩ := bd_run (w := streamOf ∅) rfl
  obtain ⟨w₂, hrun₂, hmap₂⟩ := run_effect (c := Command.onIds ["1"] .mute) clockAtThree trivial hmap₁
  have hsucceeds : (Command.replace "2" bd).Succeeds := rfl
  obtain ⟨w₃, hrun₃, _⟩ := run_effect clockAtThree hsucceeds hmap₂
  have h₁ : Commanded clockAtThree (Keeps clockAtThree) w₁ :=
    (Commanded.start rfl).step _ ⟨bd_succeeds, fun pMap h => Option.some.inj h ▸ .inl rfl⟩ hrun₁
  have h₂ : Commanded clockAtThree (Keeps clockAtThree) w₂ :=
    h₁.step (Command.onIds ["1"] .mute) ⟨trivial, fun _ _ => trivial⟩ hrun₂
  have h₃ : Commanded clockAtThree (Keeps clockAtThree) w₃ :=
    h₂.step _ ⟨hsucceeds, fun pMap h => Option.some.inj (hmap₂.symm.trans h) ▸ .inl rfl⟩ hrun₃
  exact ⟨w₁, w₂, w₃, hrun₁, hrun₂, hrun₃, commanded_latest h₃⟩

/-- After a second replacement the history of `1` has the pattern as it was given, and going back from a
third one plays that: without its id. -/
theorem replaced_twice :
    ∃ w : World (ValueMap Empty) Unit, Commanded clockAtThree (fun c _ => c.Succeeds) w ∧
      (¬ ∃ pMap, w.sPMapMV = some pMap ∧ AllLatest pMap) ∧ ¬ GoesBack clockAtThree w := by
  obtain ⟨w₁, hrun₁, hmap₁⟩ := bd_run (w := streamOf ∅) rfl
  obtain ⟨w₂, hrun₂, hmap₂⟩ := bd_run hmap₁
  obtain ⟨w₃, hrun₃, hmap₃⟩ := bd_run hmap₂
  obtain ⟨w₄, hrun₄, hmap₄⟩ := setPreviousPattern_run hmap₃
  rw [getElem?_insert, if_pos rfl] at hmap₂ hmap₃
  set x₂ := updatePS "1" 3 bd (some (updatePS "1" 3 bd (∅ : PlayMap (ValueMap Empty))["1"]?)) with hx₂
  refine ⟨w₂, ((Commanded.start rfl).step _ bd_succeeds hrun₁).step _ bd_succeeds hrun₂, ?_,
    fun hback => ?_⟩
  · rintro ⟨pMap, hmap, hall⟩
    obtain rfl := Option.some.inj (hmap₂.symm.trans hmap)
    have hlatest := hall "1" x₂ (by rw [getElem?_insert, if_pos rfl])
    rcases latest_updatePS_iff.mp hlatest with h | h
    · cases h
    · exact played_bd_ne h
  · obtain ⟨pMap, x, hmap, hx, heq⟩ := hback "1" bd bd_succeeds _ hmap₂ x₂
      (by rw [getElem?_insert, if_pos rfl]) w₃ w₄ hrun₃ hrun₄
    obtain rfl := Option.some.inj (hmap₄.symm.trans hmap)
    rw [Std.ExtTreeMap.getElem?_map, getElem?_insert, if_pos rfl, Option.map_some] at hx
    obtain rfl := Option.some.inj hx
    rw [getElem?_insert, if_pos rfl] at heq
    exact played_bd_ne heq.symm

end Tidal
