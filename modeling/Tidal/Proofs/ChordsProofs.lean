import Tidal.Chords
import Tidal.Lib.Rearranged

/-!
# Re-voiced chords

Inverting a chord, opening it, or dropping one of its notes gives the chord's own notes, some of them an
octave away. `Drop 0` is the exception: it looks for the note behind the last one.
-/

namespace Tidal.Chords

variable {α : Type}

theorem index_eq {ds : List (Lazy α)} {s : ℕ} (hs : s < ds.length) : index ds s = ds[s] := by
  simp [index, hs]

section Notes

variable [AddCommGroupWithOne α]

/-- A rearrangement in which some notes are moved by exactly one octave. -/
def Revoiced (ds ds' : List α) : Prop := Rearranged Octave ds ds'

/-- The modifiers that re-voice a chord: all but `Range`. The number of a `Drop` is not negative. -/
def Revoices : Modifier → Prop
  | .Range _ => False
  | .Drop i => 0 ≤ i
  | .Invert => True
  | .Open => True

/-! ## Moves by an octave -/

theorem Octave.pitchClass_eq {x y : α} (h : Octave x y) : pitchClass x = pitchClass y := by
  have hmem : (12 : α) ∈ AddSubgroup.zmultiples (12 : α) := AddSubgroup.mem_zmultiples 12
  unfold pitchClass
  rcases h with rfl | rfl | rfl
  · rfl
  · rw [QuotientAddGroup.mk_add_of_mem x hmem]
  · rw [sub_eq_add_neg, QuotientAddGroup.mk_add_of_mem x (neg_mem hmem)]

theorem Revoiced.pitchClasses_eq {ds ds' : List α} (h : Revoiced ds ds') :
    pitchClasses ds' = pitchClasses ds :=
  Multiset.coe_eq_coe.mpr (h.map_perm fun _ _ hxy => hxy.pitchClass_eq)

theorem octave_refl (d : Lazy α) : Option.Rel Octave d d := by
  cases d with
  | none => exact .none
  | some x => exact .some (Or.inl rfl)

theorem octave_up (d : Lazy α) : Option.Rel Octave d (add 12 d) := by
  cases d with
  | none => exact .none
  | some x => exact .some (Or.inr (Or.inl rfl))

theorem octave_down (d : Lazy α) : Option.Rel Octave d (add (-12) d) := by
  cases d with
  | none => exact .none
  | some x => exact .some (Or.inr (Or.inr (sub_eq_add_neg x 12).symm))

theorem forall₂_octave_refl (ds : List (Lazy α)) : List.Forall₂ (Option.Rel Octave) ds ds :=
  List.forall₂_same.mpr fun d _ => octave_refl d

/-! ## The modifiers -/

theorem invert_rearranged (ds : List (Lazy α)) :
    Rearranged (Option.Rel Octave) ds (invert ds) := by
  cases ds with
  | nil => exact Rearranged.refl octave_refl []
  | cons d ds =>
    refine ⟨add 12 d :: ds, .cons (octave_up d) (forall₂_octave_refl ds), ?_⟩
    exact (List.perm_append_singleton _ _).symm

theorem openVoicing_rearranged (ds : List (Lazy α)) :
    Rearranged (Option.Rel Octave) ds (openVoicing ds) := by
  unfold openVoicing
  by_cases hlen : ds.length > 2
  · rw [if_pos hlen]
    rcases ds with _ | ⟨a, _ | ⟨b, _ | ⟨c, ds⟩⟩⟩
    · simp at hlen
    · simp at hlen
    · simp at hlen
    have htail : ((a :: b :: c :: ds).reverse.take ((a :: b :: c :: ds).length - 3)).reverse = ds := by
      have h3 : ds.length + 1 + 1 + 1 - ds.length = 3 := by omega
      rw [List.take_reverse, List.reverse_reverse]
      simp [h3]
    rw [htail]
    refine ⟨add (-12) a :: b :: add (-12) c :: ds, ?_, .cons _ (.swap _ _ _)⟩
    exact .cons (octave_down a) (.cons (octave_refl b) (.cons (octave_down c) (forall₂_octave_refl ds)))
  · rw [if_neg hlen]
    exact Rearranged.refl octave_refl ds

theorem dropNote_rearranged (ds : List (Lazy α)) {i : ℤ} (hi : 1 ≤ i) :
    Rearranged (Option.Rel Octave) ds (dropNote i ds) := by
  unfold dropNote
  by_cases hlen : (ds.length : ℤ) < i
  · rw [if_pos hlen]
    exact Rearranged.refl octave_refl ds
  · rw [if_neg hlen]
    obtain ⟨s, hs⟩ := Int.eq_ofNat_of_zero_le (show 0 ≤ ds.length - i by omega)
    have hlt : s < ds.length := by omega
    have hsplit : ds = ds.take s ++ ds[s] :: ds.drop (s + 1) := by
      rw [← List.drop_eq_getElem_cons hlt, List.take_append_drop]
    refine ⟨ds.take s ++ add (-12) ds[s] :: ds.drop (s + 1), ?_, ?_⟩
    · nth_rewrite 1 [hsplit]
      exact List.rel_append (forall₂_octave_refl _) (.cons (octave_down _) (forall₂_octave_refl _))
    · simp only [hs, index_eq hlt, List.splitAt_eq, Int.toNat_natCast, List.drop_drop]
      exact List.perm_middle

/-- The note behind the last one is an error. -/
theorem none_mem_dropNote_zero (ds : List (Lazy α)) : none ∈ dropNote 0 ds := by
  unfold dropNote
  rw [if_neg (by simp)]
  simp [index, add]

/-! ## Runs of modifiers -/

section Runs

variable (fuel : ℕ) {m : Modifier} {ms : List Modifier}

theorem applyModifier_rearranged (hm : Revoices m) (h0 : m ≠ .Drop 0) (ds : List (Lazy α)) :
    ∃ ds', applyModifier fuel m (some ds) = some ds' ∧ Rearranged (Option.Rel Octave) ds ds' := by
  cases m with
  | Range i => exact hm.elim
  | Drop i =>
    have hi : 0 ≤ i := hm
    have hi0 : i ≠ 0 := fun h => h0 (by rw [h])
    exact ⟨_, rfl, dropNote_rearranged ds (by omega)⟩
  | Invert => exact ⟨_, rfl, invert_rearranged ds⟩
  | Open => exact ⟨_, rfl, openVoicing_rearranged ds⟩

theorem applyModifier_revoiced (hm : Revoices m) (h0 : m ≠ .Drop 0) (ds : List α) :
    ∃ ds', applyModifier fuel m (some (ds.map some)) = some (ds'.map some) ∧ Revoiced ds ds' := by
  obtain ⟨ds', heq, hre⟩ := applyModifier_rearranged fuel hm h0 (ds.map some)
  obtain ⟨zs, rfl, hzs⟩ := hre.of_some
  exact ⟨zs, heq, hzs⟩

/-- An error among the notes stays there, and `Drop 0` is one. -/
theorem applyModifier_none_mem (hm : Revoices m) {ds : List (Lazy α)} (h : none ∈ ds ∨ m = .Drop 0) :
    ∃ ds', applyModifier fuel m (some ds) = some ds' ∧ none ∈ ds' := by
  by_cases h0 : m = .Drop 0
  · subst h0
    exact ⟨_, rfl, none_mem_dropNote_zero ds⟩
  · obtain ⟨ds', heq, hre⟩ := applyModifier_rearranged fuel hm h0 ds
    exact ⟨ds', heq, hre.none_mem_iff.mpr (h.resolve_right h0)⟩

theorem applyModifiers_cons {ds ds' : List (Lazy α)} (ms : List Modifier)
    (h : applyModifier fuel m (some ds) = some ds') :
    applyModifiers fuel ds (m :: ms) = applyModifiers fuel ds' ms := by
  simp only [applyModifiers, List.foldl_cons, h]

theorem applyModifiers_revoiced (hms : ∀ m ∈ ms, Revoices m) (h0 : Modifier.Drop 0 ∉ ms)
    (ds : List α) :
    ∃ ds', applyModifiers fuel (ds.map some) ms = some (ds'.map some) ∧
      ds'.length = ds.length ∧ pitchClasses ds' = pitchClasses ds := by
  induction ms generalizing ds with
  | nil => exact ⟨ds, rfl, rfl, rfl⟩
  | cons m ms ih =>
    rw [List.mem_cons, not_or] at h0
    obtain ⟨ds₁, hstep, hre⟩ := applyModifier_revoiced fuel (hms m (by simp))
      (Ne.symm h0.1) ds
    obtain ⟨ds', hrun, hlen, hpc⟩ := ih (fun m hm => hms m (List.mem_cons_of_mem _ hm)) h0.2 ds₁
    refine ⟨ds', ?_, hlen.trans hre.length_eq, hpc.trans hre.pitchClasses_eq⟩
    rw [applyModifiers_cons fuel ms hstep, hrun]

theorem applyModifiers_none_mem (hms : ∀ m ∈ ms, Revoices m) {ds : List (Lazy α)}
    (h : none ∈ ds ∨ Modifier.Drop 0 ∈ ms) :
    ∃ ds', applyModifiers fuel ds ms = some ds' ∧ none ∈ ds' := by
  induction ms generalizing ds with
  | nil => exact ⟨ds, rfl, h.resolve_right (by simp)⟩
  | cons m ms ih =>
    have hms' : ∀ m ∈ ms, Revoices m := fun m hm => hms m (List.mem_cons_of_mem _ hm)
    by_cases h1 : none ∈ ds ∨ m = .Drop 0
    · obtain ⟨ds₁, hstep, hmem⟩ := applyModifier_none_mem fuel (hms m (by simp)) h1
      rw [applyModifiers_cons fuel ms hstep]
      exact ih hms' (Or.inl hmem)
    · rw [not_or] at h1
      obtain ⟨ds₁, hstep, -⟩ := applyModifier_rearranged fuel (hms m (by simp)) h1.2 ds
      rw [applyModifiers_cons fuel ms hstep]
      refine ih hms' (Or.inr ?_)
      rcases List.mem_cons.mp (h.resolve_left h1.1) with h | h
      · exact absurd h.symm h1.2
      · exact h

theorem not_map_some {ds : List (Lazy α)} (h : none ∈ ds) (zs : List α) : ds ≠ zs.map some := by
  rintro rfl
  simp at h

end Runs

/-- A modifier re-voices a chord, whatever its notes are, unless it is `Drop 0`; and a run of modifiers keeps
the number of the notes and their pitch classes unless one of them is `Drop 0`. -/
theorem revoicing_iff (fuel : ℕ) (ds : List α) (ms : List Modifier) (hms : ∀ m ∈ ms, Revoices m) :
    (∀ m ∈ ms, (∃ ds', applyModifier fuel m (some (ds.map some)) = some (ds'.map some) ∧
      Revoiced ds ds') ↔ m ≠ .Drop 0) ∧
    ((∃ ds', applyModifiers fuel (ds.map some) ms = some (ds'.map some) ∧
      ds'.length = ds.length ∧ pitchClasses ds' = pitchClasses ds) ↔ Modifier.Drop 0 ∉ ms) := by
  refine ⟨fun m hm => ⟨?_, fun h0 => applyModifier_revoiced fuel (hms m hm) h0 ds⟩, ?_, fun h0 =>
    applyModifiers_revoiced fuel hms h0 ds⟩
  · rintro ⟨ds', heq, -⟩ h0
    obtain ⟨out, hout, hmem⟩ := applyModifier_none_mem fuel (hms m hm)
      (Or.inr h0 : none ∈ ds.map some ∨ _)
    rw [heq, Option.some_inj] at hout
    exact not_map_some hmem ds' hout.symm
  · rintro ⟨ds', heq, -⟩ h0
    obtain ⟨out, hout, hmem⟩ := applyModifiers_none_mem fuel hms
      (Or.inr h0 : none ∈ ds.map some ∨ _)
    rw [heq, Option.some_inj] at hout
    exact not_map_some hmem ds' hout.symm

theorem revoicing_iff_major :
    (∀ m ∈ [Modifier.Invert, .Open, .Drop 1],
      (∃ ds', applyModifier 0 m (some (([0, 4, 7] : List ℤ).map some)) = some (ds'.map some) ∧
        Revoiced [0, 4, 7] ds') ↔ m ≠ .Drop 0) ∧
    ((∃ ds', applyModifiers 0 (([0, 4, 7] : List ℤ).map some) [.Invert, .Open, .Drop 1] =
        some (ds'.map some) ∧
      ds'.length = 3 ∧ pitchClasses ds' = pitchClasses [0, 4, 7]) ↔
        Modifier.Drop 0 ∉ [Modifier.Invert, .Open, .Drop 1]) :=
  revoicing_iff 0 [0, 4, 7] [.Invert, .Open, .Drop 1] (by simp [Revoices])

/-- The note behind the last one of a major chord is asked for, and put in front of the chord. -/
theorem drop_zero_undefined :
    applyModifier 0 (.Drop 0) (some [some (0 : ℤ), some 4, some 7]) =
      some [none, some 0, some 4, some 7] ∧
    ¬ ∀ (ds : List ℤ) (m : Modifier), Revoices m →
      ∃ ds', applyModifier 0 m (some (ds.map some)) = some (ds'.map some) ∧ Revoiced ds ds' := by
  refine ⟨by decide, fun h => ?_⟩
  obtain ⟨ds', heq, -⟩ := h [0, 4, 7] (.Drop 0) le_rfl
  exact not_map_some (none_mem_dropNote_zero _) ds' (Option.some_inj.mp heq)

/-! ## The endless chord -/

/-- The note at `q` of the chord repeated an octave higher each time. -/
def octaveNote (ds : List (Lazy α)) (q : ℕ) : Lazy α :=
  add ((12 * (q / ds.length) : ℕ) : α) (index ds (q % ds.length : ℕ))

theorem add_zero_eq (d : Lazy α) : add 0 d = d := by
  cases d <;> simp [add]

theorem add_add (x y : α) (d : Lazy α) : add x (add y d) = add (y + x) d := by
  cases d <;> simp [add, add_assoc]

section Endless

variable {ds : List (Lazy α)}

theorem octaveNote_add (hds : ds ≠ []) (q k : ℕ) :
    octaveNote ds (q + ds.length * k) = add ((12 * k : ℕ) : α) (octaveNote ds q) := by
  have hpos : 0 < ds.length := List.length_pos_iff.mpr hds
  unfold octaveNote
  rw [Nat.add_mul_div_left q k hpos, Nat.add_mul_mod_self_left, add_add, ← Nat.cast_add, mul_add]

theorem octaveNote_of_lt {q : ℕ} (hq : q < ds.length) : octaveNote ds q = ds[q] := by
  unfold octaveNote
  rw [Nat.div_eq_of_lt hq, Nat.mod_eq_of_lt hq, index_eq hq]
  simpa using add_zero_eq ds[q]

theorem length_octaves (fuel : ℕ) : (octaves fuel ds).length = fuel * ds.length :=
  Rounds.length_rounds (fun _ => List.length_map _) fuel

theorem getElem?_octaves {fuel q : ℕ} (hq : q < fuel * ds.length) :
    (octaves fuel ds)[q]? = some (octaveNote ds q) := by
  have hpos : 0 < ds.length := Nat.pos_of_ne_zero fun h => by simp [h] at hq
  have hmod : q % ds.length < ds.length := Nat.mod_lt q hpos
  unfold octaves octaveNote
  rw [Rounds.getElem?_rounds (fun _ => List.length_map _) hq, index_eq hmod]
  simp [hmod]

/-- With enough rounds the notes that are taken are known. -/
theorem takeKnown_octaves {fuel j : ℕ} {i : ℤ} (hfuel : j + i ≤ (fuel * ds.length : ℕ))
    (hj : j ≤ fuel * ds.length) :
    takeKnown i ((octaves fuel ds).drop j) =
      some ((List.range i.toNat).map fun q => octaveNote ds (j + q)) := by
  have hlen : ((octaves fuel ds).drop j).length = fuel * ds.length - j := by
    rw [List.length_drop, length_octaves]
  unfold takeKnown
  rw [if_pos (by rw [hlen]; omega), Option.some_inj]
  refine List.ext_getElem? fun q => ?_
  rw [List.getElem?_take, List.getElem?_drop, List.getElem?_map]
  by_cases hq : q < i.toNat
  · rw [if_pos hq, getElem?_octaves (by omega), List.getElem?_range hq]
    rfl
  · rw [if_neg hq, List.getElem?_eq_none (by simpa using hq)]
    rfl

theorem applyModifier_range {fuel : ℕ} {i : ℤ} (hfuel : i ≤ (fuel * ds.length : ℕ)) :
    applyModifier fuel (.Range i) (some ds) = some ((List.range i.toNat).map (octaveNote ds)) := by
  have htake : takeKnown i ((octaves fuel ds).drop 0) = _ :=
    takeKnown_octaves (by omega) (Nat.zero_le _)
  rw [List.drop_zero] at htake
  refine htake.trans ?_
  simp only [Nat.zero_add]

/-- A window of the endless chord, as long as the chord, from position `j` on. -/
def window (ds : List (Lazy α)) (j : ℕ) : List (Lazy α) :=
  (List.range ds.length).map fun q => octaveNote ds (j + q)

@[simp] theorem length_window (j : ℕ) : (window ds j).length = ds.length := by simp [window]

theorem window_zero : window ds 0 = ds := by
  refine List.ext_getElem (length_window 0) fun q h1 h2 => ?_
  simp [window, octaveNote_of_lt h2]

/-- An inversion moves the window on by one note. -/
theorem invert_window (hds : ds ≠ []) (j : ℕ) : invert (window ds j) = window ds (j + 1) := by
  obtain ⟨n, hn⟩ := Nat.exists_eq_succ_of_ne_zero (List.length_pos_iff.mpr hds).ne'
  have hup : octaveNote ds (j + 1 + n) = add 12 (octaveNote ds j) := by
    have hj : j + 1 + n = j + ds.length * 1 := by omega
    rw [hj, octaveNote_add hds, mul_one, Nat.cast_ofNat]
  have hwin : window ds j = octaveNote ds j :: (List.range n).map fun q => octaveNote ds (j + 1 + q) := by
    unfold window
    rw [hn, List.range_succ_eq_map, List.map_cons, List.map_map]
    simp only [Function.comp_def, Nat.add_zero, Nat.succ_eq_add_one, add_assoc, add_comm 1]
  rw [hwin, invert, ← hup]
  unfold window
  rw [hn, List.range_succ, List.map_append, List.map_singleton]

/-- The endless chord of a window is the endless chord itself, from the window on. -/
theorem octaveNote_window (hds : ds ≠ []) (j q : ℕ) :
    octaveNote (window ds j) q = octaveNote ds (j + q) := by
  have hpos : 0 < ds.length := List.length_pos_iff.mpr hds
  have hmod : q % ds.length < ds.length := Nat.mod_lt q hpos
  have hq : j + q = j + q % ds.length + ds.length * (q / ds.length) := by
    rw [add_assoc, Nat.mod_add_div]
  rw [hq, octaveNote_add hds, octaveNote, length_window, index_eq (by simpa using hmod)]
  simp [window]

end Endless

theorem applyModifiers_append (fuel : ℕ) (ch : List (Lazy α)) (ms : List Modifier) (m : Modifier) :
    applyModifiers fuel ch (ms ++ [m]) = applyModifier fuel m (applyModifiers fuel ch ms) := by
  simp [applyModifiers]

theorem applyModifiers_invert (fuel : ℕ) {ds : List (Lazy α)} (hds : ds ≠ []) (j : ℕ) :
    applyModifiers fuel ds (List.replicate j .Invert) = some (window ds j) := by
  induction j with
  | zero => rw [window_zero]; rfl
  | succ j ih =>
    rw [List.replicate_succ', applyModifiers_append, ih, ← invert_window hds]
    rfl

/-- Inversions and a range give the notes of the old formula, and inversions alone the window that they have
moved the chord to. -/
theorem invert_range_eq (ds : List (Lazy α)) (hds : ds ≠ []) (j : ℕ) (i : ℤ) :
    ∃ N, ∀ fuel ≥ N,
      applyModifiers fuel ds (List.replicate j .Invert ++ [.Range i]) = parseChordNotes fuel i j ds ∧
      parseChordNotes fuel i j ds = some ((List.range i.toNat).map fun q => octaveNote ds (j + q)) ∧
      applyModifiers fuel ds (List.replicate j .Invert) = parseChordNotes fuel ds.length j ds ∧
      parseChordNotes fuel ds.length j ds = some (window ds j) := by
  have hpos : 0 < ds.length := List.length_pos_iff.mpr hds
  refine ⟨j + i.toNat + ds.length, fun fuel hfuel => ?_⟩
  have hmul : fuel ≤ fuel * ds.length := Nat.le_mul_of_pos_right fuel hpos
  have hold : parseChordNotes fuel i j ds =
      some ((List.range i.toNat).map fun q => octaveNote ds (j + q)) :=
    takeKnown_octaves (by omega) (by omega)
  have hlen : parseChordNotes fuel ds.length j ds = some (window ds j) :=
    takeKnown_octaves (by omega) (by omega)
  have hinv := applyModifiers_invert fuel hds j
  refine ⟨?_, hold, hinv.trans hlen.symm, hlen⟩
  rw [applyModifiers_append, hinv, hold, applyModifier_range (by rw [length_window]; omega)]
  simp [octaveNote_window hds]

theorem invert_range_eq_major :
    ∃ N, ∀ fuel ≥ N,
      applyModifiers fuel [some (0 : ℤ), some 4, some 7] (List.replicate 4 .Invert ++ [.Range 5]) =
        parseChordNotes fuel 5 4 [some 0, some 4, some 7] ∧
      parseChordNotes fuel 5 4 [some (0 : ℤ), some 4, some 7] =
        some ((List.range 5).map fun q => octaveNote [some 0, some 4, some 7] (4 + q)) ∧
      applyModifiers fuel [some (0 : ℤ), some 4, some 7] (List.replicate 4 .Invert) =
        parseChordNotes fuel 3 4 [some 0, some 4, some 7] ∧
      parseChordNotes fuel 3 4 [some (0 : ℤ), some 4, some 7] =
        some (window [some 0, some 4, some 7] 4) :=
  invert_range_eq [some 0, some 4, some 7] (by simp) 4 5

example : window [some (0 : ℤ), some 4, some 7] 4 = [some 16, some 19, some 24] := by decide

/-! ## Which runs come to an end -/

/-- The number of the last `Range`. -/
def lastRange (ms : List Modifier) : Option ℤ :=
  ms.foldl (fun r m => match m with | .Range i => some i | _ => r) none

/-- Each `Range` takes a note, or the last one takes none. -/
def Productive (ms : List Modifier) : Prop :=
  (∀ i, Modifier.Range i ∈ ms → 0 < i) ∨ ∃ i ≤ 0, lastRange ms = some i

section Outcome

variable {ms : List Modifier} {m : Modifier} {i : ℤ}

theorem lastRange_append_range : lastRange (ms ++ [.Range i]) = some i := by
  simp [lastRange]

theorem lastRange_append_of_revoices (hm : Revoices m) : lastRange (ms ++ [m]) = lastRange ms := by
  cases m with
  | Range i => exact hm.elim
  | _ => simp [lastRange]

theorem mem_of_lastRange (h : lastRange ms = some i) : Modifier.Range i ∈ ms := by
  induction ms using List.reverseRecOn with
  | nil => simp [lastRange] at h
  | append_singleton ms m ih =>
    rw [List.mem_append, List.mem_singleton]
    by_cases hm : ∃ k, m = .Range k
    · obtain ⟨k, rfl⟩ := hm
      rw [lastRange_append_range, Option.some_inj] at h
      exact Or.inr (by rw [h])
    · have hlast : lastRange (ms ++ [m]) = lastRange ms := by
        cases m with
        | Range k => exact absurd ⟨k, rfl⟩ hm
        | _ => simp [lastRange]
      exact Or.inl (ih (hlast.symm.trans h))

/-- How a run of modifiers ends: with notes if each `Range` took one, without any if the last took none, and
otherwise not at all. -/
inductive Outcome (ch : List α) (ms : List Modifier) : Prop
  | notes (hms : ∀ i, Modifier.Range i ∈ ms → 0 < i) (ds : List α) (hds : ds ≠ []) (N : ℕ)
      (hrun : ∀ fuel ≥ N, applyModifiers fuel (ch.map some) ms = some (ds.map some))
  | nothing (i : ℤ) (hi : i ≤ 0) (hlast : lastRange ms = some i)
      (hrun : ∀ fuel, applyModifiers fuel (ch.map some) ms = some [])
  | never (hms : ¬ Productive ms) (hrun : ∀ fuel, applyModifiers fuel (ch.map some) ms = none)

variable {ch : List α}

theorem octaveNote_map_some {ds : List α} (hds : ds ≠ []) (q : ℕ) :
    octaveNote (ds.map some) q ≠ none := by
  have hmod : q % ds.length < ds.length := Nat.mod_lt q (List.length_pos_iff.mpr hds)
  unfold octaveNote
  rw [index_eq (by simpa using hmod)]
  simp [add]

theorem not_productive_append (hi : 0 < i) {k : ℤ} (hk : k ≤ 0) (hmem : Modifier.Range k ∈ ms) :
    ¬ Productive (ms ++ [.Range i]) := by
  rintro (hall | ⟨l, hl, hlast⟩)
  · exact absurd (hall k (List.mem_append_left _ hmem)) (by omega)
  · rw [lastRange_append_range, Option.some_inj] at hlast
    omega

theorem Outcome.range (h : Outcome ch ms) (i : ℤ) : Outcome ch (ms ++ [.Range i]) := by
  by_cases hi : i ≤ 0
  · refine .nothing i hi lastRange_append_range fun fuel => ?_
    rw [applyModifiers_append]
    simp only [applyModifier, takeKnown]
    rw [if_pos (by omega), Int.toNat_of_nonpos hi, List.take_zero]
  · cases h with
    | notes hms ds hds N hrun =>
      obtain ⟨zs, hzs⟩ : ∃ zs : List α,
          (List.range i.toNat).map (octaveNote (ds.map some)) = zs.map some := by
        refine Rearranged.exists_map_some fun hmem => ?_
        obtain ⟨q, -, hq⟩ := List.mem_map.mp hmem
        exact octaveNote_map_some hds _ hq
      refine .notes ?_ zs ?_ (N + i.toNat) fun fuel hfuel => ?_
      · intro k hk
        rcases List.mem_append.mp hk with hk | hk
        · exact hms k hk
        · cases List.mem_singleton.mp hk
          omega
      · rintro rfl
        simp at hzs
        omega
      · have hmul : fuel ≤ fuel * (ds.map some).length :=
          Nat.le_mul_of_pos_right fuel (by simpa using List.length_pos_iff.mpr hds)
        rw [applyModifiers_append, hrun fuel (by omega), applyModifier_range (by omega), hzs]
    | nothing k hk hlast hrun =>
      refine .never (not_productive_append (by omega) hk (mem_of_lastRange hlast)) fun fuel => ?_
      rw [applyModifiers_append, hrun]
      simp [applyModifier, takeKnown, octaves, Rounds.rounds_eq_nil]
      omega
    | never hms hrun =>
      have hmem : ∃ k ≤ 0, Modifier.Range k ∈ ms := by
        by_contra hno
        refine hms (Or.inl fun k hk => ?_)
        by_contra hk0
        exact hno ⟨k, by omega, hk⟩
      obtain ⟨k, hk, hmem⟩ := hmem
      refine .never (not_productive_append (by omega) hk hmem) fun fuel => ?_
      rw [applyModifiers_append, hrun]
      simp [applyModifier, takeKnown, octaves, Rounds.rounds_eq_nil]
      omega

/-- Only `Range` needs rounds of the endless chord. -/
theorem applyModifier_fuel (hm : Revoices m) (fuel fuel' : ℕ) (ds : Option (List (Lazy α))) :
    applyModifier fuel m ds = applyModifier fuel' m ds := by
  cases m with
  | Range i => exact hm.elim
  | _ => rfl

theorem range_mem_append (hm : Revoices m) :
    Modifier.Range i ∈ ms ++ [m] ↔ Modifier.Range i ∈ ms := by
  rw [List.mem_append, List.mem_singleton]
  refine ⟨fun h => h.resolve_right ?_, Or.inl⟩
  rintro rfl
  exact hm

theorem productive_append (hm : Revoices m) : Productive (ms ++ [m]) ↔ Productive ms := by
  simp only [Productive, range_mem_append hm, lastRange_append_of_revoices hm]

theorem Outcome.revoice (h : Outcome ch ms) (hm : Revoices m) (h0 : m ≠ .Drop 0) :
    Outcome ch (ms ++ [m]) := by
  cases h with
  | notes hms ds hds N hrun =>
    obtain ⟨ds', hstep, hre⟩ := applyModifier_revoiced 0 hm h0 ds
    refine .notes (fun i hi => hms i ((range_mem_append hm).mp hi)) ds' ?_ N fun fuel hfuel => ?_
    · exact List.length_pos_iff.mp (hre.length_eq ▸ List.length_pos_iff.mpr hds)
    · rw [applyModifiers_append, hrun fuel hfuel, applyModifier_fuel hm fuel 0, hstep]
  | nothing k hk hlast hrun =>
    refine .nothing k hk ((lastRange_append_of_revoices hm).trans hlast) fun fuel => ?_
    obtain ⟨ds', hstep, hre⟩ := applyModifier_revoiced fuel hm h0 ([] : List α)
    have hnil : ds' = [] := List.eq_nil_of_length_eq_zero hre.length_eq
    subst hnil
    rw [applyModifiers_append, hrun]
    exact hstep
  | never hms hrun =>
    refine .never (fun h => hms ((productive_append hm).mp h)) fun fuel => ?_
    rw [applyModifiers_append, hrun]
    cases m with
    | Range i => exact hm.elim
    | _ => rfl

/-- The outcome of a run is one of the three, by induction on the run. -/
theorem outcome (hch : ch ≠ []) (hms : ∀ i, Modifier.Drop i ∈ ms → 1 ≤ i) : Outcome ch ms := by
  induction ms using List.reverseRecOn with
  | nil => exact .notes (by simp) ch hch 0 fun _ _ => rfl
  | append_singleton ms m ih =>
    have h := ih fun i hi => hms i (List.mem_append_left _ hi)
    cases m with
    | Range i => exact h.range i
    | Drop i =>
      have hi := hms i (by simp)
      refine h.revoice (show (0 : ℤ) ≤ i by omega) fun h0 => ?_
      cases h0
      omega
    | Invert => exact h.revoice trivial (by simp)
    | Open => exact h.revoice trivial (by simp)

end Outcome

theorem chordTable_ne_nil : ∀ x ∈ chordTable, x.2 ≠ [] := by decide +kernel

theorem chordNotes_eq (n : α) (name : String) :
    ∃ ch : List α, ch ≠ [] ∧ chordNotes n name = ch.map some := by
  refine ⟨((chordTable.lookup name).getD [0]).map fun x : ℤ => (x : α) + n, ?_, ?_⟩
  · rw [ne_eq, List.map_eq_nil_iff]
    cases hlookup : chordTable.lookup name with
    | none => simp
    | some ch =>
      obtain ⟨l₁, l₂, htable, -⟩ := List.lookup_eq_some_iff.mp hlookup
      exact chordTable_ne_nil (name, ch) (by simp [htable])
  · simp [chordNotes, add]

/-- The modifiers of a chord come to an end, with a list of notes, if and only if each `Range` takes a note or
the last one takes none. -/
theorem applyModifiers_terminates_iff (n : α) (name : String) (ms : List Modifier)
    (hms : ∀ i, Modifier.Drop i ∈ ms → 1 ≤ i) :
    ((∃ (ds : List α) (N : ℕ), ∀ fuel ≥ N,
      applyModifiers fuel (chordNotes n name) ms = some (ds.map some)) ↔ Productive ms) ∧
    (¬ Productive ms → ∀ fuel, applyModifiers fuel (chordNotes n name) ms = none) := by
  obtain ⟨ch, hch, hnotes⟩ := chordNotes_eq n name
  rw [hnotes]
  cases outcome hch hms with
  | notes hall ds hds N hrun =>
    have hp : Productive ms := Or.inl hall
    exact ⟨iff_of_true ⟨ds, N, hrun⟩ hp, fun h => absurd hp h⟩
  | nothing i hi hlast hrun =>
    have hp : Productive ms := Or.inr ⟨i, hi, hlast⟩
    exact ⟨iff_of_true ⟨[], 0, fun fuel _ => hrun fuel⟩ hp, fun h => absurd hp h⟩
  | never hp hrun =>
    refine ⟨iff_of_false ?_ hp, fun _ => hrun⟩
    rintro ⟨ds, N, h⟩
    exact absurd ((hrun N).symm.trans (h N le_rfl)) (by simp)

theorem applyModifiers_terminates_iff_major :
    ((∃ (ds : List ℤ) (N : ℕ), ∀ fuel ≥ N,
      applyModifiers fuel (chordNotes 0 "major") [.Range 0, .Drop 1] = some (ds.map some)) ↔
        Productive [.Range 0, .Drop 1]) ∧
    (¬ Productive [.Range 0, .Drop 1] →
      ∀ fuel, applyModifiers fuel (chordNotes (0 : ℤ) "major") [.Range 0, .Drop 1] = none) :=
  applyModifiers_terminates_iff 0 "major" [.Range 0, .Drop 1] (by simp)

/-- After a range of no notes a range of one note never comes to an end. -/
theorem range_zero_range_one :
    ¬ ∀ (name : String) (ms : List Modifier), (∀ i, Modifier.Drop i ∈ ms → 1 ≤ i) →
      ∃ (fuel : ℕ) (ds : List ℤ), applyModifiers fuel (chordNotes 0 name) ms = some (ds.map some) := by
  intro h
  obtain ⟨fuel, ds, hrun⟩ := h "major" [.Range 0, .Range 1] (by simp)
  simp [applyModifiers, applyModifier, takeKnown, octaves, Rounds.rounds_eq_nil] at hrun

end Notes

end Tidal.Chords
