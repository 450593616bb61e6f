import Tidal.ParseBP

/-!
# Proofs: feet

A sequence is split at its dots. Whether there is anything to split is decided by the number of segments,
and a dot at the very end does not start a segment.
-/

namespace Tidal

open TPat

variable {α : Type}

/-! ## Splitting -/

/-- Up to the first foot, if there is one. -/
theorem takeFoot_cases (ps : List (TPat α)) :
    (TPat_Foot ∉ ps ∧ takeFoot ps = (ps, [])) ∨
      ∃ pre post, ps = pre ++ TPat_Foot :: post ∧ TPat_Foot ∉ pre ∧ takeFoot ps = (pre, post) := by
  fun_induction takeFoot ps with
  | case1 => exact .inl ⟨List.not_mem_nil, rfl⟩
  | case2 pats => exact .inr ⟨[], pats, rfl, List.not_mem_nil, rfl⟩
  | case3 pat pats hpat ih =>
    have hne : TPat_Foot ≠ pat := fun h => hpat h.symm
    rcases ih with ⟨hno, heq⟩ | ⟨pre, post, rfl, hno, heq⟩
    · exact .inl ⟨by simp [hne, hno], by rw [heq]⟩
    · exact .inr ⟨pat :: pre, post, rfl, by simp [hne, hno], by rw [heq]⟩

/-- The segments hold steps of the list, and no feet. -/
theorem mem_splitFeet {ps : List (TPat α)} {seg : List (TPat α)} (hseg : seg ∈ splitFeet ps)
    {p : TPat α} (hp : p ∈ seg) : p ∈ ps ∧ p ≠ TPat_Foot := by
  fun_induction splitFeet ps with
  | case1 => cases hseg
  | case2 pat pats ih =>
    rcases takeFoot_cases (pat :: pats) with ⟨hno, heq⟩ | ⟨pre, post, hps, hno, heq⟩
    · rw [heq] at hseg
      rw [splitFeet, List.mem_singleton] at hseg
      subst hseg
      exact ⟨hp, fun h => hno (h ▸ hp)⟩
    · rw [heq] at hseg ih
      rw [hps]
      rcases List.mem_cons.mp hseg with rfl | hseg
      · exact ⟨List.mem_append_left _ hp, fun h => hno (h ▸ hp)⟩
      · obtain ⟨hmem, hne⟩ := ih hseg
        exact ⟨List.mem_append_right _ (List.mem_cons_of_mem _ hmem), hne⟩

theorem takeFoot_append {pre : List (TPat α)} (hpre : TPat_Foot ∉ pre) (post : List (TPat α)) :
    takeFoot (pre ++ TPat_Foot :: post) = (pre, post) := by
  induction pre with
  | nil => rfl
  | cons p pre ih =>
    obtain ⟨hp, hpre⟩ := not_or.mp (mt List.mem_cons.mpr hpre)
    rw [List.cons_append, takeFoot, ih hpre]
    exact fun h => hp h.symm

theorem takeFoot_of_not_mem {ps : List (TPat α)} (hps : TPat_Foot ∉ ps) : takeFoot ps = (ps, []) := by
  rcases takeFoot_cases ps with ⟨_, heq⟩ | ⟨pre, post, rfl, _⟩
  · exact heq
  · exact absurd (List.mem_append_right _ (List.mem_cons_self ..)) hps

theorem splitFeet_ne_nil {ps : List (TPat α)} (hps : ps ≠ []) :
    splitFeet ps = (takeFoot ps).1 :: splitFeet (takeFoot ps).2 := by
  cases ps with
  | nil => exact absurd rfl hps
  | cons p ps => rw [splitFeet]

/-- There are two segments or more just when something comes after the first foot. -/
theorem splitFeet_length {pre : List (TPat α)} (hpre : TPat_Foot ∉ pre) (post : List (TPat α)) :
    1 < (splitFeet (pre ++ TPat_Foot :: post)).length ↔ post ≠ [] := by
  rw [splitFeet_ne_nil (by simp), takeFoot_append hpre, List.length_cons]
  cases post with
  | nil => simp [splitFeet]
  | cons p post =>
    rw [splitFeet_ne_nil (List.cons_ne_nil p post), List.length_cons]
    exact iff_of_true (by omega) (List.cons_ne_nil p post)

theorem splitFeet_length_le {ps : List (TPat α)} (hps : TPat_Foot ∉ ps) : (splitFeet ps).length ≤ 1 := by
  cases ps with
  | nil => simp [splitFeet]
  | cons p ps =>
    rw [splitFeet, takeFoot_of_not_mem hps]
    simp [splitFeet]

/-! ## What is left of the feet -/

theorem footless_ofList {ps : List (TPat α)} : (TPats.ofList ps).Footless ↔ ∀ p ∈ ps, p.Footless := by
  induction ps with
  | nil => simp [TPats.ofList, TPats.Footless]
  | cons p ps ih => rw [TPats.ofList, TPats.Footless, ih, List.forall_mem_cons]

theorem footless_seq {ps : List (TPat α)} :
    (TPat_Seq (TPats.ofList ps)).Footless ↔ ∀ p ∈ ps, p.Footless := by
  rw [TPat.Footless, footless_ofList]

/-- The steps end in a foot, and it is the only one. -/
def EndsInOnlyFoot (ps : List (TPat α)) : Prop := ∃ pre, ps = pre ++ [TPat_Foot] ∧ TPat_Foot ∉ pre

theorem footless_resolve_feet {ps : List (TPat α)} (hps : ∀ p ∈ ps, p = TPat_Foot ∨ p.Footless) :
    (resolve_feet ps).Footless ↔ ¬ EndsInOnlyFoot ps := by
  have hother : ∀ p ∈ ps, p ≠ TPat_Foot → p.Footless := fun p hp hne => (hps p hp).resolve_left hne
  rcases takeFoot_cases ps with ⟨hno, _⟩ | ⟨pre, post, rfl, hno, _⟩
  · -- no foot at all
    rw [resolve_feet, if_neg (by have := splitFeet_length_le hno; omega)]
    refine iff_of_true (footless_seq.mpr fun p hp => hother p hp fun h => hno (h ▸ hp)) ?_
    rintro ⟨pre, rfl, _⟩
    exact hno (List.mem_append_right _ (List.mem_singleton_self _))
  · by_cases hpost : post = []
    · -- the foot is the last step, and is not taken for a foot
      subst hpost
      rw [resolve_feet, if_neg fun h => (splitFeet_length hno []).mp h rfl]
      refine iff_of_false (fun h => ?_) (not_not.mpr ⟨pre, rfl, hno⟩)
      exact footless_seq.mp h TPat_Foot (List.mem_append_right _ (List.mem_singleton_self _))
    · rw [resolve_feet, if_pos ((splitFeet_length hno post).mpr hpost)]
      refine iff_of_true (footless_seq.mpr fun t ht => ?_) ?_
      · obtain ⟨seg, hseg, rfl⟩ := List.mem_map.mp ht
        refine footless_seq.mpr fun p hp => ?_
        obtain ⟨hmem, hne⟩ := mem_splitFeet hseg hp
        exact hother p hmem hne
      · rintro ⟨pre', heq, hno'⟩
        -- the last step comes after the first foot
        obtain ⟨post', q, rfl⟩ := List.eq_nil_or_concat'  post |>.resolve_left hpost
        rw [← List.cons_append, ← List.append_assoc] at heq
        have hpre' := (List.append_inj' heq rfl).1
        exact hno' (hpre' ▸ List.mem_append_right _ (List.mem_cons_self ..))

/-! ## Trees without feet -/

section ToPat

variable {P : Type → Type} (I : Interpretation P) (err : {α : Type} → String → P α)

mutual

/-- The meaning of a tree without feet does not depend on what the error is. -/
theorem toPat_of_footless : ∀ {α : Type} [Parseable α] [Enumerable α] (t : TPat α), t.Footless →
    toPat { I with error := err } t = toPat I t
  | _, _, _, TPat_Atom (some loc) x, _ => rfl
  | _, _, _, TPat_Atom none x, _ => rfl
  | _, _, _, TPat_Fast t x, h => by
    rw [toPat, toPat, toPat_of_footless t h.1, toPat_of_footless x h.2]
  | _, _, _, TPat_Slow t x, h => by
    rw [toPat, toPat, toPat_of_footless t h.1, toPat_of_footless x h.2]
  | _, _, _, TPat_DegradeBy seed amt x, h => by rw [toPat, toPat, toPat_of_footless x h]
  | _, _, _, TPat_CycleChoose seed xs, h => by rw [toPat, toPat, toPats_of_footless xs h]
  | _, _, _, TPat_Euclid n k s thing, h => by
    rw [toPat, toPat, toPat_of_footless n h.1, toPat_of_footless k h.2.1, toPat_of_footless s h.2.2.1,
      toPat_of_footless thing h.2.2.2]
  | _, _, _, TPat_Stack xs, h => by rw [toPat, toPat, toPats_of_footless xs h]
  | _, _, _, TPat_Silence, _ => rfl
  | _, _, _, TPat_EnumFromTo a b, h => by
    rw [toPat, toPat, toPat_of_footless a h.1, toPat_of_footless b h.2]
  | _, _, _, TPat_Polyrhythm (some r) ps, h => by
    rw [toPat, toPat, toPat_of_footless r h.1, resolve_tpats_of_footless ps h.2]
    rfl
  | _, _, _, TPat_Polyrhythm none ps, h => by
    rw [toPat, toPat, resolve_tpats_of_footless ps h]
    cases resolve_tpats I ps <;> rfl
  | _, _, _, TPat_Seq xs, h => by
    rw [toPat, toPat, sized_pats_of_footless xs h]
    rfl
  | _, _, _, TPat_Var s, _ => rfl
  | _, _, _, TPat_Chord f iP nP mP, h => by
    rw [toPat, toPat, toPat_of_footless iP h.1, toPat_of_footless nP h.2.1, toPats_of_footless mP h.2.2]
  | _, _, _, TPat_Elongate _ _, _ => rfl
  | _, _, _, TPat_Repeat _ _, _ => rfl

theorem toPats_of_footless : ∀ {α : Type} [Parseable α] [Enumerable α] (ps : TPats α), ps.Footless →
    toPats { I with error := err } ps = toPats I ps
  | _, _, _, .nil, _ => rfl
  | _, _, _, .cons p ps, h => by
    rw [toPats, toPats, toPat_of_footless p h.1, toPats_of_footless ps h.2]

theorem resolve_tpats_of_footless : ∀ {α : Type} [Parseable α] [Enumerable α] (ps : TPats α),
    ps.Footless → resolve_tpats { I with error := err } ps = resolve_tpats I ps
  | _, _, _, .nil, _ => rfl
  | _, _, _, .cons p ps, h => by
    have hp := toPat_of_footless p h.1
    have hps := resolve_tpats_of_footless ps h.2
    cases p with
    | TPat_Seq xs =>
      rw [resolve_tpats, resolve_tpats, sized_pats_of_footless xs h.1, hps]
      rfl
    | _ => simp only [resolve_tpats, hp, hps]

theorem sized_pats_of_footless : ∀ {α : Type} [Parseable α] [Enumerable α] (ps : TPats α),
    ps.Footless → sized_pats { I with error := err } ps = sized_pats I ps
  | _, _, _, .nil, _ => rfl
  | _, _, _, .cons p ps, h => by
    have hp := toPat_of_footless p h.1
    have hps := sized_pats_of_footless ps h.2
    cases p with
    | TPat_Elongate r p => rw [sized_pats, sized_pats, toPat_of_footless p h.1, hps]
    | TPat_Repeat n p => rw [sized_pats, sized_pats, toPat_of_footless p h.1, hps]
    | _ => simp only [sized_pats, hp, hps]

end

end ToPat

section Feet

variable [Parseable α] [Enumerable α]

/-- The tree contains no foot, so whatever its error for feet is, it is not reached. -/
def FeetProcessed (t : TPat α) : Prop :=
  t.Footless ∧ ∀ (P : Type → Type) (I : Interpretation P) (err : {α : Type} → String → P α),
    toPat { I with error := err } t = toPat I t

/-- **Feet are pre-processed**, unless the steps end in a foot and it is the only one. -/
theorem resolve_feet_processed_iff (ps : List (TPat α)) (hps : ∀ p ∈ ps, p = TPat_Foot ∨ p.Footless) :
    FeetProcessed (resolve_feet ps) ↔ ¬ EndsInOnlyFoot ps := by
  rw [← footless_resolve_feet hps]
  exact ⟨And.left, fun h => ⟨h, fun _ I err => toPat_of_footless I err _ h⟩⟩

end Feet

theorem resolve_feet_processed_iff_two :
    FeetProcessed (resolve_feet [TPat_Atom none (0 : ℚ), TPat_Foot, TPat_Atom none 1]) ↔
      ¬ EndsInOnlyFoot [TPat_Atom none (0 : ℚ), TPat_Foot, TPat_Atom none 1] :=
  resolve_feet_processed_iff _ (by simp [TPat.Footless])

/-- The step `bd` of `bd .` -/
def bdStep : TPat String := TPat_Atom (some ((1, 1), (3, 1))) "bd"

/-- In `bd .` the foot is still there, and its error is one of the steps that are played. -/
theorem resolve_feet_leaves_foot :
    (∀ p ∈ [bdStep, TPat_Foot], p = TPat_Foot ∨ p.Footless) ∧
    ¬ FeetProcessed (resolve_feet [bdStep, TPat_Foot]) ∧
    ∀ (P : Type → Type) (I : Interpretation P),
      toPat I (resolve_feet [bdStep, TPat_Foot]) =
        I.timeCat [(1, toPat I bdStep), (1, I.error "Can't happen, feet are pre-processed.")] := by
  have hsteps : ∀ p ∈ [bdStep, TPat_Foot], p = TPat_Foot ∨ p.Footless := by
    simp [bdStep, TPat.Footless]
  have hno : TPat_Foot ∉ [bdStep] := by simp [bdStep]
  have hseq : resolve_feet [bdStep, TPat_Foot] = TPat_Seq (TPats.ofList [bdStep, TPat_Foot]) :=
    if_neg fun h => (splitFeet_length hno []).mp h rfl
  refine ⟨hsteps, fun h => (footless_resolve_feet hsteps).mp h.1 ⟨[bdStep], rfl, hno⟩, fun P I => ?_⟩
  rw [hseq]
  rfl

end Tidal
