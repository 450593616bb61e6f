import Tidal.Time

/-!
# Proofs: time and arcs

Intersections of arcs as half-open intervals, and how a query is cut at cycle boundaries.
-/

namespace Tidal

/-! ## Cycles -/

theorem sam_le (t : Time) : sam t ≤ t := Int.floor_le t

theorem lt_nextSam (t : Time) : t < nextSam t := by
  have := Int.lt_floor_add_one t
  unfold nextSam sam; linarith

theorem sam_intCast (c : ℤ) : sam (c : Time) = c := by simp [sam]

@[simp] theorem sam_sam (t : Time) : sam (sam t) = sam t := by simp [sam]

theorem sam_nextSam (t : Time) : sam (nextSam t) = nextSam t := by simp [nextSam, sam]

/-- A time of cycle `c` has the start of cycle `c` as its sam. -/
theorem sam_eq {c : ℤ} {t : Time} (h1 : (c : Time) ≤ t) (h2 : t < c + 1) : sam t = c := by
  have : ⌊t⌋ = c := Int.floor_eq_iff.mpr ⟨h1, h2⟩
  rw [sam, this]

theorem sam_mono {s t : Time} (h : s ≤ t) : sam s ≤ sam t := by
  unfold sam; exact_mod_cast Int.floor_mono h

theorem nextSam_le_of_sam_lt {s t : Time} (h : sam s < sam t) : nextSam s ≤ sam t := by
  unfold nextSam sam at *
  have h' : ⌊s⌋ < ⌊t⌋ := by exact_mod_cast h
  have : (1 : ℤ) + ⌊s⌋ ≤ ⌊t⌋ := by omega
  exact_mod_cast this

theorem cyclePos_nonneg (t : Time) : 0 ≤ cyclePos t := sub_nonneg.mpr (sam_le t)

theorem cyclePos_lt_one (t : Time) : cyclePos t < 1 := by
  have := lt_nextSam t
  unfold nextSam at this
  unfold cyclePos; linarith

theorem sam_add_cyclePos (t : Time) : sam t + cyclePos t = t := add_sub_cancel _ _

/-- A query that starts at a moment holds it. -/
theorem isIn_now (t : Time) : isIn ⟨t, t + 1⟩ t := ⟨le_rfl, lt_add_one t⟩

theorem isIn_timeToCycleArc (t : Time) : isIn (timeToCycleArc t) t := by
  have := lt_nextSam t
  exact ⟨sam_le t, by unfold nextSam at this; simp only [timeToCycleArc]; linarith⟩

theorem isIn_timeToCycleArc_iff {c : ℤ} {t : Time} : isIn (timeToCycleArc (c : Time)) t ↔ ⌊t⌋ = c := by
  rw [Int.floor_eq_iff]
  simp [isIn, timeToCycleArc, sam_intCast]

/-! ## Intersections -/

theorem isIn_sect {a b : Arc} {t : Time} : isIn (sect a b) t ↔ isIn a t ∧ isIn b t := by
  simp only [isIn, sect, max_le_iff, lt_min_iff]
  tauto

theorem isIn_pos {a : Arc} {t : Time} (h : isIn a t) : a.start < a.stop := h.1.trans_lt h.2

theorem sect_comm (a b : Arc) : sect a b = sect b a := by
  simp only [sect, max_comm, min_comm]

theorem sect_assoc (a b c : Arc) : sect (sect a b) c = sect a (sect b c) := by
  simp only [sect, max_assoc, min_assoc]

theorem subArc_comm (a b : Arc) : subArc a b = subArc b a := by
  simp only [subArc, sect_comm a b]
  split_ifs <;> rfl

theorem subArc_some {a b c : Arc} (h : subArc a b = some c) : c = sect a b ∧ c.start ≤ c.stop := by
  simp only [subArc] at h
  split_ifs at h with h1 h2 h3
  obtain rfl := Option.some.inj h
  exact ⟨rfl, h3⟩

/-- Two arcs of positive width never intersect in a single point. -/
theorem subArc_pos {a b c : Arc} (ha : a.start < a.stop) (hb : b.start < b.stop)
    (h : subArc a b = some c) : c.start < c.stop := by
  simp only [subArc] at h
  split_ifs at h with h1 h2 h3
  obtain rfl := Option.some.inj h
  refine lt_of_le_of_ne h3 fun he => ?_
  rcases min_choice a.stop b.stop with hm | hm
  · exact h1 ⟨he, he.trans hm, ha⟩
  · exact h2 ⟨he, he.trans hm, hb⟩

/-- Arcs that share a moment intersect. -/
theorem subArc_of_isIn {a b : Arc} {t : Time} (ha : isIn a t) (hb : isIn b t) :
    subArc a b = some (sect a b) := by
  have hlt := isIn_pos (isIn_sect.mpr ⟨ha, hb⟩)
  simp only [subArc]
  rw [if_neg fun h => hlt.ne h.1, if_neg fun h => hlt.ne h.1, if_pos hlt.le]

theorem isIn_of_subArc {a b c : Arc} {t : Time} (h : subArc a b = some c) :
    isIn c t ↔ isIn a t ∧ isIn b t := by
  rw [(subArc_some h).1, isIn_sect]

/-! Intersections with a single moment. -/

theorem subArc_point_some {b c : Arc} {t : Time} (h : subArc ⟨t, t⟩ b = some c) : c = ⟨t, t⟩ := by
  obtain ⟨rfl, hle⟩ := subArc_some h
  have h1 : t ≤ max t b.start := le_max_left _ _
  have h2 : min t b.stop ≤ t := min_le_left _ _
  simp only [sect] at hle ⊢
  rw [le_antisymm (hle.trans h2) h1, le_antisymm h2 (h1.trans hle)]

@[simp] theorem subArc_point (t : Time) : subArc ⟨t, t⟩ ⟨t, t⟩ = some ⟨t, t⟩ := by
  simp [subArc, sect]

/-- A moment meets an arc of positive width if the arc holds it; not at the end of the arc. -/
theorem subArc_point_pos {b : Arc} {t : Time} (hb : b.start < b.stop) :
    subArc ⟨t, t⟩ b = if isIn b t then some ⟨t, t⟩ else none := by
  split_ifs with hin
  · obtain ⟨h1, h2⟩ := hin
    simp only [subArc, sect, max_eq_left h1, min_eq_left h2.le]
    rw [if_neg fun h => lt_irrefl _ h.2.2, if_neg fun h => h2.ne h.2.1, if_pos le_rfl]
  · rcases lt_or_ge t b.start with h | h
    · have hmax : max t b.start = b.start := max_eq_right h.le
      have hmin : min t b.stop = t := min_eq_left (h.trans hb).le
      simp only [subArc, sect, hmax, hmin]
      rw [if_neg fun hc => h.ne' hc.1, if_neg fun hc => h.ne' hc.1, if_neg (not_le.mpr h)]
    · -- the arc has ended; if it ends at the moment itself, the second guard of `subArc` applies
      have hstop : b.stop ≤ t := not_lt.mp fun hlt => hin ⟨h, hlt⟩
      simp only [subArc, sect, max_eq_left h, min_eq_right hstop]
      rw [if_neg fun hc => lt_irrefl _ hc.2.2]
      split_ifs with h2 h3
      · rfl
      · exact absurd ⟨le_antisymm h3 hstop, le_antisymm h3 hstop, hb⟩ h2
      · rfl

theorem subArc_point_of_isIn {b : Arc} {t : Time} (h : isIn b t) : subArc ⟨t, t⟩ b = some ⟨t, t⟩ := by
  rw [subArc_point_pos (isIn_pos h), if_pos h]

/-! ## Cutting a query at cycle boundaries -/

section Cut

variable {a b : Arc} {t : Time}

theorem lt_of_nextSam_lt (h : nextSam a.start < a.stop) : a.start < a.stop := (lt_nextSam _).trans h

/-- What holds of every arc within one cycle, and of an arc that goes on if it holds from the next cycle on,
holds of every arc of some width. -/
theorem cycle_induction {motive : ∀ a : Arc, a.start < a.stop → Prop}
    (one : ∀ a ha, a.stop ≤ nextSam a.start → motive a ha)
    (next : ∀ (a : Arc) (h : nextSam a.start < a.stop), motive (ArcF.mk (nextSam a.start) a.stop) h →
      motive a (lt_of_nextSam_lt h)) {a : Arc} (ha : a.start < a.stop) : motive a ha := by
  induction a using arcCycles.induct with
  | case1 a hle => exact absurd ha (not_lt.mpr hle)
  | case2 a _ hsam =>
    refine one a ha ?_
    rw [nextSam, hsam]
    exact (lt_nextSam a.stop).le
  | case3 a _ _ ih =>
    rcases lt_or_ge (nextSam a.start) a.stop with hlt | hle
    · exact next a hlt (ih hlt)
    · exact one a ha hle

theorem sam_ne_of_nextSam_lt (h : nextSam a.start < a.stop) : sam a.start ≠ sam a.stop := by
  intro hsam
  have hmono := sam_mono h.le
  rw [sam_nextSam, ← hsam] at hmono
  unfold nextSam at hmono
  linarith

theorem arcCycles_of_ge (h : a.stop ≤ a.start) : arcCycles a = [] := by rw [arcCycles, if_pos h]

theorem arcCycles_one (ha : a.start < a.stop) (hn : a.stop ≤ nextSam a.start) : arcCycles a = [a] := by
  rw [arcCycles, if_neg (not_le.mpr ha)]
  split_ifs with hsam
  · rfl
  · -- the arc ends with the cycle
    have hstop : a.stop = nextSam a.start :=
      le_antisymm hn ((nextSam_le_of_sam_lt ((sam_mono ha.le).lt_of_ne hsam)).trans (sam_le _))
    rw [← hstop, arcCycles_of_ge le_rfl]

theorem arcCycles_next (h : nextSam a.start < a.stop) :
    arcCycles a = ⟨a.start, nextSam a.start⟩ :: arcCycles ⟨nextSam a.start, a.stop⟩ := by
  rw [arcCycles, if_neg (not_le.mpr (lt_of_nextSam_lt h)), if_neg (sam_ne_of_nextSam_lt h)]

/-- An arc inside one cycle is its own only piece. -/
theorem arcCyclesZW_of_le (h : a.start < a.stop) (hn : a.stop ≤ nextSam a.start) : arcCyclesZW a = [a] := by
  rw [arcCyclesZW, if_neg h.ne, arcCycles_one h hn]

/-! Shares of cycles. -/

/-- Within one cycle an arc is its own share of the cycle. -/
theorem sect_one (hn : a.stop ≤ nextSam a.start) : sect a (timeToCycleArc (⌊a.start⌋ : ℤ)) = a := by
  have hstart : max a.start (sam (⌊a.start⌋ : ℤ)) = a.start := by
    rw [sam_intCast]
    exact max_eq_left (Int.floor_le _)
  have hstop : min a.stop (sam (⌊a.start⌋ : ℤ) + 1) = a.stop := by
    rw [sam_intCast, add_comm]
    exact min_eq_left hn
  rw [sect, timeToCycleArc, hstart, hstop]

theorem sect_first (h : nextSam a.start < a.stop) :
    sect a (timeToCycleArc (⌊a.start⌋ : ℤ)) = ⟨a.start, nextSam a.start⟩ := by
  have hstart : max a.start (sam (⌊a.start⌋ : ℤ)) = a.start := by
    rw [sam_intCast]
    exact max_eq_left (Int.floor_le _)
  have hstop : min a.stop (sam (⌊a.start⌋ : ℤ) + 1) = nextSam a.start := by
    rw [sam_intCast, add_comm]
    exact min_eq_right h.le
  rw [sect, timeToCycleArc, hstart, hstop]

/-- The share of a later cycle does not depend on where the arc started. -/
theorem sect_later {c : ℤ} (h : nextSam a.start ≤ c) :
    sect ⟨nextSam a.start, a.stop⟩ (timeToCycleArc (c : Time)) = sect a (timeToCycleArc (c : Time)) := by
  have h' : a.start ≤ c := (lt_nextSam _).le.trans h
  simp only [sect, timeToCycleArc, sam_intCast, max_eq_right h, max_eq_right h']

theorem timeToCycleArc_floor (t : Time) : timeToCycleArc (⌊t⌋ : ℤ) = timeToCycleArc t := by
  rw [timeToCycleArc, timeToCycleArc, sam_intCast, sam]

/-- Before the next cycle starts, the cycle is that of the start. -/
theorem floor_eq_start (h : a.start ≤ t) (hn : t < nextSam a.start) : ⌊t⌋ = ⌊a.start⌋ := by
  rw [Int.floor_eq_iff]
  unfold nextSam sam at hn
  exact ⟨(Int.floor_le _).trans h, by linarith⟩

/-! Pieces. -/

/-- `b` is one of the arcs that `a` is cut into: inside `a`, inside one cycle, and of positive width if
`a` is. -/
structure Piece (a b : Arc) : Prop where
  start_le : a.start ≤ b.start
  le : b.start ≤ b.stop
  stop_le : b.stop ≤ a.stop
  stop_le_nextSam : b.stop ≤ nextSam b.start
  pos : a.start < a.stop → b.start < b.stop

theorem piece_of_mem_arcCycles (h : b ∈ arcCycles a) : Piece a b := by
  rcases lt_or_ge a.start a.stop with ha | ha
  · induction ha using cycle_induction with
    | one a ha hn =>
      rw [arcCycles_one ha hn] at h
      obtain rfl := List.mem_singleton.mp h
      exact ⟨le_rfl, ha.le, le_rfl, hn, fun _ => ha⟩
    | next a hlt ih =>
      have hn := lt_nextSam a.start
      rw [arcCycles_next hlt] at h
      rcases List.mem_cons.mp h with rfl | h
      · exact ⟨le_rfl, hn.le, hlt.le, le_rfl, fun _ => hn⟩
      · have hp := ih h
        exact ⟨hn.le.trans hp.start_le, hp.le, hp.stop_le, hp.stop_le_nextSam, fun _ => hp.pos hlt⟩
  · rw [arcCycles_of_ge ha] at h
    cases h

theorem piece_of_mem (h : b ∈ arcCyclesZW a) : Piece a b := by
  unfold arcCyclesZW at h
  split_ifs at h with he
  · obtain rfl := List.mem_singleton.mp h
    refine ⟨le_rfl, he.le, le_rfl, ?_, fun hlt => hlt⟩
    rw [← he]; exact (lt_nextSam _).le
  · exact piece_of_mem_arcCycles h

/-- The moment `t` of a query falls into one piece, the query's share of the cycle of `t`, and into no
other. -/
theorem arcCycles_split (h : isIn a t) :
    ∃ l₁ l₂, arcCycles a = l₁ ++ sect a (timeToCycleArc t) :: l₂ ∧ ∀ b ∈ l₁ ++ l₂, ¬ isIn b t := by
  have ha := isIn_pos h
  induction ha using cycle_induction with
  | one a ha hn =>
    have ht := floor_eq_start h.1 (h.2.trans_le hn)
    refine ⟨[], [], ?_, by simp⟩
    rw [arcCycles_one ha hn, ← timeToCycleArc_floor t, ht, sect_one hn]
    rfl
  | next a hlt ih =>
    rw [arcCycles_next hlt]
    rcases lt_or_ge t (nextSam a.start) with hc | hc
    · -- `t` is in the first cycle of the query
      have ht := floor_eq_start h.1 hc
      refine ⟨[], arcCycles ⟨nextSam a.start, a.stop⟩, ?_, ?_⟩
      · rw [← timeToCycleArc_floor t, ht, sect_first hlt]
        rfl
      · intro b hb hbt
        exact absurd hc (not_lt.mpr ((piece_of_mem_arcCycles (by simpa using hb)).start_le.trans hbt.1))
    · obtain ⟨l₁, l₂, heq, hno⟩ := ih ⟨hc, h.2⟩
      have hle : nextSam a.start ≤ (⌊t⌋ : ℤ) := by
        have hmono := sam_mono hc
        rwa [sam_nextSam] at hmono
      refine ⟨⟨a.start, nextSam a.start⟩ :: l₁, l₂, ?_, ?_⟩
      · rw [heq, ← timeToCycleArc_floor t, sect_later hle]
        rfl
      · intro b hb
        rcases List.mem_cons.mp hb with rfl | hb
        · exact fun hbt => absurd hbt.2 (not_lt.mpr hc)
        · exact hno b hb

theorem arcCyclesZW_split (h : isIn a t) :
    ∃ l₁ l₂, arcCyclesZW a = l₁ ++ sect a (timeToCycleArc t) :: l₂ ∧ ∀ b ∈ l₁ ++ l₂, ¬ isIn b t := by
  rw [arcCyclesZW, if_neg (isIn_pos h).ne]
  exact arcCycles_split h

end Cut

theorem mem_cyclesInArc {a : Arc} {c : ℤ} (h : c ∈ cyclesInArc a) :
    a.start < c + 1 ∧ (c : Time) ≤ a.stop ∧ (a.start < a.stop → (c : Time) < a.stop) := by
  unfold cyclesInArc at h
  split_ifs at h with h1 h2
  · cases h
  · obtain rfl := List.mem_singleton.mp h
    exact ⟨Int.lt_floor_add_one _, h2 ▸ Int.floor_le _, fun hlt => absurd h2 hlt.ne⟩
  · obtain ⟨i, hi, rfl⟩ := List.mem_map.mp h
    have hi' := List.mem_range.mp hi
    have hlt : ⌊a.start⌋ + (i : ℤ) < ⌈a.stop⌉ := by omega
    have hlt' : ((⌊a.start⌋ + (i : ℤ) : ℤ) : Time) < a.stop := Int.lt_ceil.mp hlt
    refine ⟨?_, hlt'.le, fun _ => hlt'⟩
    have := Int.lt_floor_add_one a.start
    push_cast
    have hi0 : (0 : Time) ≤ (i : Time) := by positivity
    linarith

theorem cyclesInArc_nodup (a : Arc) : (cyclesInArc a).Nodup := by
  unfold cyclesInArc
  split_ifs
  · exact List.nodup_nil
  · exact List.nodup_singleton _
  · refine List.Nodup.map (fun i j h => ?_) List.nodup_range
    simpa using h

theorem floor_mem_cyclesInArc {a : Arc} {t : Time} (h : isIn a t) : ⌊t⌋ ∈ cyclesInArc a := by
  have hlt := isIn_pos h
  rw [cyclesInArc, if_neg (not_lt.mpr hlt.le), if_neg hlt.ne]
  have h1 : ⌊a.start⌋ ≤ ⌊t⌋ := Int.floor_mono h.1
  have h2 : ⌊t⌋ < ⌈a.stop⌉ := Int.lt_ceil.mpr ((Int.floor_le t).trans_lt h.2)
  exact List.mem_map.mpr ⟨(⌊t⌋ - ⌊a.start⌋).toNat, List.mem_range.mpr (by omega), by omega⟩

end Tidal
