import Tidal.Stream.Transition
import Tidal.Proofs.ReplaceProofs

/-!
# Proofs: transitions and other threads

Every update looks at each id by itself, so what becomes of an id that a transition does not touch is
decided by the updates alone: by those that the transition has seen, and those that come after its swap.
-/

namespace Tidal

variable {S : Type} {pMap pMap' : PlayMap S} {j k : String} {historyFlag : Bool}
  {mapper : TransitionMapper S} {pat : ControlPattern S}

theorem getElem?_of_makes (h : Makes historyFlag mapper k pat pMap pMap') (hj : j ≠ k) :
    pMap'[j]? = pMap[j]? := by
  obtain ⟨t, ht⟩ := h
  simp only [transitionMap] at ht
  cases hpat : mapper t (appendPat pat (!historyFlag) (transitionPS historyFlag pat pMap[k]?).psHistory) with
  | error e => rw [hpat] at ht; cases ht
  | ok pat' =>
    rw [hpat] at ht
    obtain rfl := Except.ok.inj ht
    rw [getElem?_insert, if_neg (Ne.symm hj)]

/-! ## Updates -/

theorem getElem?_updateIds_congr (ks : List String) (f : PlayState S → PlayState S)
    (h : pMap[j]? = pMap'[j]?) : (updateIds ks f pMap)[j]? = (updateIds ks f pMap')[j]? := by
  induction ks with
  | nil => exact h
  | cons k ks ih =>
    rw [updateIds_cons, updateIds_cons, getElem?_modify, getElem?_modify, ih]

variable [StateMap S]

/-- What an update makes of an id depends on that id alone. -/
theorem getElem?_apply_congr (u : Update S) (h : pMap[j]? = pMap'[j]?) :
    (u.apply pMap)[j]? = (u.apply pMap')[j]? := by
  obtain ⟨c, t⟩ := u
  cases c with
  | replace k pat =>
    simp only [Update.apply, Command.effect, getElem?_insert]
    split_ifs with hk
    · rw [hk, h]
    · exact h
  | onIds ks c => exact getElem?_updateIds_congr ks c.apply h
  | onAll c => simp only [Update.apply, Command.effect, Std.ExtTreeMap.getElem?_map, h]
  | rollback => simp only [Update.apply, Command.effect, Std.ExtTreeMap.getElem?_map, h]

theorem getElem?_updated_congr (us : List (Update S)) (h : pMap[j]? = pMap'[j]?) :
    (updated us pMap)[j]? = (updated us pMap')[j]? := by
  induction us generalizing pMap pMap' with
  | nil => exact h
  | cons u us ih => exact ih (getElem?_apply_congr u h)

/-- When all is done, an id that the transition does not touch is as the updates have left it. -/
def NothingLost (k : String) (pMap : PlayMap S) (s : Threads S) : Prop :=
  ∃ pMap', s.var = some pMap' ∧
    ∀ j, j ≠ k → pMap'[j]? = (updated (s.early ++ s.mid ++ s.late) pMap)[j]?

/-- **A transition loses what others do between its read and its swap.** Nothing is lost just when the
transition fails, or those updates make no difference in the end. -/
theorem transition_nothing_lost_iff (historyFlag : Bool) (mapper : TransitionMapper S) (k : String)
    (pat : ControlPattern S) (pMap : PlayMap S) (s : Threads S)
    (h : Interleaved historyFlag mapper k pat pMap s) (hdone : s.Done) :
    NothingLost k pMap s ↔ s.place = .failed ∨
      ∀ j, j ≠ k → (updated (s.early ++ s.late) pMap)[j]? =
        (updated (s.early ++ s.mid ++ s.late) pMap)[j]? := by
  rcases ReadSwap.done_cases h hdone with ⟨pMap', hp, hmake, hvar⟩ | ⟨hp, hvar⟩
  · have hfinal : ∀ j, j ≠ k →
        (updated s.late pMap')[j]? = (updated (s.early ++ s.late) pMap)[j]? := by
      intro j hj
      rw [updated, updated, ReadSwap.run_append]
      exact getElem?_updated_congr s.late (getElem?_of_makes hmake hj)
    have hplace : s.place ≠ .failed := fun hf => by rw [hp] at hf; cases hf
    rw [or_iff_right hplace]
    constructor
    · rintro ⟨m, hm, hsame⟩ j hj
      obtain rfl := Option.some.inj (hvar.symm.trans hm)
      rw [← hfinal j hj]
      exact hsame j hj
    · intro hsame
      exact ⟨_, hvar, fun j hj => (hfinal j hj).trans (hsame j hj)⟩
  · exact iff_of_true ⟨_, hvar, fun _ _ => rfl⟩ (.inl hp)

/-! ## Two schedules -/

/-- A transition that plays the new pattern as it is. -/
def plain : TransitionMapper (ValueMap Empty) := fun _ ps => .ok (ps.headD LivePattern.silence)

/-- Another thread mutes the id `2`. -/
def muteTwo : Update (ValueMap Empty) := ⟨.onIds ["2"] .mute, 0⟩

/-- The play map of a stream that plays `2`. -/
def playsTwo : PlayMap (ValueMap Empty) := (∅ : PlayMap _).insert "2" (started bd)

theorem makes_plain (pMap : PlayMap (ValueMap Empty)) :
    ∃ pMap', Makes true plain "1" bd pMap pMap' := ⟨_, 0, rfl⟩

/-- The mute comes first, and then the transition. -/
theorem transition_nothing_lost_iff_before :
    ∃ s : Threads (ValueMap Empty), s.early = [muteTwo] ∧ s.mid = [] ∧ (NothingLost "1" playsTwo s ↔
      s.place = .failed ∨ ∀ j, j ≠ "1" → (updated (s.early ++ s.late) playsTwo)[j]? =
        (updated (s.early ++ s.mid ++ s.late) playsTwo)[j]?) := by
  obtain ⟨pMap', hmake⟩ := makes_plain (muteTwo.apply playsTwo)
  have hrun : Interleaved true plain "1" bd playsTwo
      ⟨some pMap', none, .finished, [muteTwo], [], []⟩ :=
    ((((((Relation.ReflTransGen.refl.tail (.take muteTwo rfl)).tail (.put rfl rfl)).tail
      (.look rfl rfl)).tail (.make rfl hmake)).tail (.swapTake rfl rfl)).tail (.swapPut rfl rfl))
  exact ⟨_, rfl, rfl, transition_nothing_lost_iff true plain "1" bd playsTwo _ hrun ⟨.inl rfl, rfl⟩⟩

/-- The mute comes between the read and the swap, and `2` goes on playing. -/
theorem transition_loses_mute :
    ∃ s : Threads (ValueMap Empty), Interleaved true plain "1" bd playsTwo s ∧ s.Done ∧
      s.early ++ s.mid ++ s.late = [muteTwo] ∧ ¬ NothingLost "1" playsTwo s := by
  obtain ⟨pMap', hmake⟩ := makes_plain playsTwo
  have hrun : Interleaved true plain "1" bd playsTwo
      ⟨some pMap', none, .finished, [], [muteTwo], []⟩ :=
    ((((((Relation.ReflTransGen.refl.tail (.look rfl rfl)).tail (.take muteTwo rfl)).tail
      (.put rfl rfl)).tail (.make rfl hmake)).tail (.swapTake rfl rfl)).tail (.swapPut rfl rfl))
  refine ⟨_, hrun, ⟨.inl rfl, rfl⟩, rfl, ?_⟩
  rintro ⟨m, hm, hsame⟩
  obtain rfl := Option.some.inj hm
  have htwo := hsame "2" (by decide)
  have hplays : playsTwo["2"]? = some (started bd) := Std.ExtTreeMap.getElem?_insert_self
  have hmuted : (updated [muteTwo] playsTwo)["2"]? = some { started bd with psMute := true } := by
    show (updateIds ["2"] Change.mute.apply playsTwo)["2"]? = _
    rw [updateIds_cons, getElem?_modify, if_pos rfl]
    exact congrArg (Option.map Change.mute.apply) hplays
  rw [getElem?_of_makes hmake (by decide), hplays] at htwo
  have hflag := congrArg (Option.map PlayState.psMute) (htwo.trans hmuted)
  cases hflag

end Tidal
