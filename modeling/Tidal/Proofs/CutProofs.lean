import Tidal.IntTime
import Tidal.Lib.Tiling
import Tidal.Pattern
import Tidal.Proofs.TimeProofs

/-!
# Proofs: the two ways of cutting a query at cycle boundaries

`arcCyclesZW`, of `splitQueries`, steps from one cycle to the next; `cycleArcsInArc`, of `pure`, counts the
cycles. They give the same pieces, laid end to end from the start of the query to its stop.
-/

namespace Tidal

open Tiling

/-- `n` arcs of some width, laid end to end from `s` to `e`. -/
structure CutInto (n : ℤ) (s e : Time) (ws : List Arc) : Prop extends
    Tiles ArcF.start ArcF.stop s e ws where
  count : (ws.length : ℤ) = n

variable {a b : Arc}

/-! ## Counting the cycles -/

theorem cyclesInArc_of_lt (ha : a.start < a.stop) : cyclesInArc a =
    (List.range (⌈a.stop⌉ - ⌊a.start⌋).toNat).map fun i : ℕ => ⌊a.start⌋ + (i : ℤ) := by
  rw [cyclesInArc, if_neg (not_lt.mpr ha.le), if_neg ha.ne]

theorem ceil_of_one (ha : a.start < a.stop) (hn : a.stop ≤ nextSam a.start) : ⌈a.stop⌉ = ⌊a.start⌋ + 1 := by
  rw [Int.ceil_eq_iff]
  unfold nextSam sam at hn
  have := Int.floor_le a.start
  push_cast
  exact ⟨by linarith, by linarith⟩

theorem floor_lt_ceil (ha : a.start < a.stop) : ⌊a.start⌋ < ⌈a.stop⌉ :=
  Int.floor_lt.mpr (ha.trans_le (Int.le_ceil a.stop))

theorem cyclesInArc_one (ha : a.start < a.stop) (hn : a.stop ≤ nextSam a.start) :
    cyclesInArc a = [⌊a.start⌋] := by
  have hone : (⌈a.stop⌉ - ⌊a.start⌋).toNat = 1 := by
    rw [ceil_of_one ha hn]
    omega
  rw [cyclesInArc_of_lt ha, hone]
  simp

theorem cyclesInArc_next (h : nextSam a.start < a.stop) :
    cyclesInArc a = ⌊a.start⌋ :: cyclesInArc ⟨nextSam a.start, a.stop⟩ := by
  have hlt : ⌊nextSam a.start⌋ < ⌈a.stop⌉ := floor_lt_ceil (a := ⟨nextSam a.start, a.stop⟩) h
  rw [floor_nextSam] at hlt
  have hsucc : (⌈a.stop⌉ - ⌊a.start⌋).toNat = (⌈a.stop⌉ - (⌊a.start⌋ + 1)).toNat + 1 := by omega
  rw [cyclesInArc_of_lt (lt_of_nextSam_lt h), cyclesInArc_of_lt (a := ⟨nextSam a.start, a.stop⟩) h, hsucc,
    List.range_succ_eq_map, List.map_cons, List.map_map, floor_nextSam]
  congr 1
  · exact add_zero _
  · refine List.map_congr_left fun i _ => ?_
    simp only [Function.comp_apply, Nat.succ_eq_add_one]
    push_cast
    ring

theorem floor_le_of_mem {c : ℤ} (hc : c ∈ cyclesInArc a) : ⌊a.start⌋ ≤ c := by
  have h : ⌊a.start⌋ < c + 1 := Int.floor_lt.mpr (by exact_mod_cast (mem_cyclesInArc hc).1)
  omega

/-! ## The pieces -/

/-- Stepping through the cycles and counting them, the pieces are the same. -/
theorem arcCycles_eq_sect (ha : a.start < a.stop) : arcCycles a = (cycleArcsInArc a).map (sect a) := by
  induction ha using cycle_induction with
  | one a ha hn =>
    rw [arcCycles_one ha hn, cycleArcsInArc, cyclesInArc_one ha hn, List.map_singleton, List.map_singleton,
      sect_one hn]
  | next a h ih =>
    rw [arcCycles_next h, ih, cycleArcsInArc, cycleArcsInArc, cyclesInArc_next h, List.map_cons,
      List.map_cons, sect_first h, List.map_map, List.map_map]
    congr 1
    refine List.map_congr_left fun c hc => sect_later ?_
    have hle := floor_le_of_mem hc
    rw [floor_nextSam] at hle
    rw [nextSam, sam, add_comm]
    exact_mod_cast hle

theorem arcCyclesZW_eq_map (ha : a.start ≤ a.stop) : arcCyclesZW a = (cycleArcsInArc a).map (sect a) := by
  rcases ha.lt_or_eq with hlt | heq
  · rw [arcCyclesZW, if_neg hlt.ne, arcCycles_eq_sect hlt]
  · have hn : a.stop ≤ nextSam a.start := heq ▸ (lt_nextSam _).le
    have hcycles : cyclesInArc a = [⌊a.start⌋] := by rw [cyclesInArc, if_neg heq.not_gt, if_pos heq]
    rw [arcCyclesZW, if_pos heq, cycleArcsInArc, hcycles, List.map_singleton, List.map_singleton, sect_one hn]

theorem tiles_arcCycles (ha : a.start < a.stop) :
    Tiles ArcF.start ArcF.stop a.start a.stop (arcCycles a) := by
  induction ha using cycle_induction with
  | one a ha hn =>
    rw [arcCycles_one ha hn]
    exact tiles_singleton.mpr ⟨rfl, ha, rfl⟩
  | next a h ih =>
    rw [arcCycles_next h]
    exact Tiles.cons (x := ArcF.mk a.start (nextSam a.start)) ih (lt_nextSam _)

theorem length_arcCycles (ha : a.start < a.stop) :
    ((arcCycles a).length : ℤ) = ⌈a.stop⌉ - ⌊a.start⌋ := by
  rw [arcCycles_eq_sect ha, List.length_map, cycleArcsInArc, List.length_map, cyclesInArc_of_lt ha,
    List.length_map, List.length_range]
  have := floor_lt_ceil ha
  omega

theorem cutInto_arcCyclesZW (ha : a.start < a.stop) :
    CutInto (⌈a.stop⌉ - ⌊a.start⌋) a.start a.stop (arcCyclesZW a) := by
  rw [arcCyclesZW, if_neg ha.ne]
  exact ⟨tiles_arcCycles ha, length_arcCycles ha⟩

/-! ## Numbers of the type `Int` -/

theorem intTime_sam {t : Time} (h : FitsInt ⌊t⌋) : IntTime.sam t = sam t := by
  rw [IntTime.sam, IntTime.floor, h.bmod_eq, sam]

theorem intTime_nextSam {t : Time} (h : FitsInt ⌊t⌋) : IntTime.nextSam t = nextSam t := by
  rw [IntTime.nextSam, intTime_sam h, nextSam]

theorem intTime_cyclesInArc (ha : a.start ≤ a.stop) (hs : FitsInt ⌊a.start⌋) (he : FitsInt ⌊a.stop⌋) :
    IntTime.cyclesInArc a = cyclesInArc a := by
  have hfloor : IntTime.floor a.start = ⌊a.start⌋ := hs.bmod_eq
  rcases ha.lt_or_eq with hlt | heq
  · -- a ceiling that is too large is brought back by the subtraction
    have hceil : Int.bmod (IntTime.ceiling a.stop - 1) (2 ^ 64) = ⌈a.stop⌉ - 1 := by
      rw [IntTime.ceiling, Int.bmod_sub_bmod]
      refine (hs.between he ?_ ?_).bmod_eq
      · have := floor_lt_ceil hlt
        omega
      · have := Int.ceil_le_floor_add_one a.stop
        omega
    rw [IntTime.cyclesInArc, if_neg (not_lt.mpr ha), if_neg hlt.ne, hfloor, hceil, IntTime.enumFromTo,
      sub_add_cancel, cyclesInArc_of_lt hlt]
  · rw [IntTime.cyclesInArc, if_neg heq.not_gt, if_pos heq, hfloor, cyclesInArc, if_neg heq.not_gt, if_pos heq]

theorem intTime_cycleArcsInArc (ha : a.start ≤ a.stop) (hs : FitsInt ⌊a.start⌋) (he : FitsInt ⌊a.stop⌋) :
    IntTime.cycleArcsInArc a = cycleArcsInArc a := by
  rw [IntTime.cycleArcsInArc, cycleArcsInArc, intTime_cyclesInArc ha hs he]
  refine List.map_congr_left fun c hc => ?_
  have hfits : FitsInt ⌊(c : Time)⌋ := by
    rw [Int.floor_intCast]
    exact hs.between he (floor_le_of_mem hc) (Int.le_floor.mpr (mem_cyclesInArc hc).2.1)
  rw [IntTime.timeToCycleArc, intTime_sam hfits, timeToCycleArc]

/-- One call for each cycle is enough, and one more for an arc that ends with a cycle. -/
theorem intTime_arcCycles (ha : a.start < a.stop) (hs : FitsInt ⌊a.start⌋) (he : FitsInt ⌊a.stop⌋) {k : ℕ}
    (hk : (⌈a.stop⌉ - ⌊a.start⌋).toNat < k) : IntTime.arcCycles k a = some (arcCycles a) := by
  induction ha using cycle_induction generalizing k with
  | one a ha hn =>
    obtain ⟨k, rfl⟩ : ∃ j, k = j + 2 := by
      rw [ceil_of_one ha hn] at hk
      exact ⟨k - 2, by omega⟩
    rw [IntTime.arcCycles, if_neg (not_le.mpr ha), intTime_sam hs, intTime_sam he]
    by_cases hsam : sam a.start = sam a.stop
    · rw [if_pos hsam, arcCycles_one ha hn]
    · have hstop : a.stop = nextSam a.start :=
        le_antisymm hn ((nextSam_le_of_sam_lt ((sam_mono ha.le).lt_of_ne hsam)).trans (sam_le _))
      rw [if_neg hsam, IntTime.arcCycles, intTime_nextSam hs, if_pos hstop.le, arcCycles_one ha hn, ← hstop]
      rfl
  | next a h ih =>
    obtain ⟨k, rfl⟩ : ∃ j, k = j + 1 := ⟨k - 1, by omega⟩
    have hnext : ⌊nextSam a.start⌋ < ⌈a.stop⌉ := floor_lt_ceil (a := ⟨nextSam a.start, a.stop⟩) h
    have hle := Int.floor_mono h.le
    rw [floor_nextSam] at hnext hle
    have hfits : FitsInt ⌊nextSam a.start⌋ := by
      rw [floor_nextSam]
      exact hs.between he (by omega) hle
    have hrest := ih hfits he (k := k) (by simp only [floor_nextSam]; omega)
    rw [IntTime.arcCycles, if_neg (not_le.mpr (lt_of_nextSam_lt h)), intTime_sam hs, intTime_sam he,
      if_neg (sam_ne_of_nextSam_lt h), intTime_nextSam hs, hrest, arcCycles_next h]
    rfl

/-- **The two ways of cutting a query agree**, and the recursion ends. An arc of some width is cut into one
piece for each cycle that it meets, end to end. -/
theorem arcCyclesZW_eq_sect (ha : a.start ≤ a.stop) (hs : FitsInt ⌊a.start⌋) (he : FitsInt ⌊a.stop⌋) :
    (∀ k, (⌈a.stop⌉ - ⌊a.start⌋).toNat < k →
      IntTime.arcCyclesZW k a = some ((IntTime.cycleArcsInArc a).map (sect a))) ∧
      IntTime.cycleArcsInArc a = cycleArcsInArc a ∧ arcCyclesZW a = (cycleArcsInArc a).map (sect a) ∧
      (a.start < a.stop → CutInto (⌈a.stop⌉ - ⌊a.start⌋) a.start a.stop (arcCyclesZW a) ∧
        ∀ b ∈ arcCyclesZW a, ∃ c : ℤ, (c : Time) ≤ b.start ∧ b.stop ≤ c + 1) ∧
      ∀ {Γ α : Type} (v : α) (m : Γ),
        ((Pattern.pure v : Pattern Γ α).query ⟨a, m⟩).map EventF.part = arcCyclesZW a := by
  have hmap := arcCyclesZW_eq_map ha
  refine ⟨fun k hk => ?_, intTime_cycleArcsInArc ha hs he, hmap,
    fun hlt => ⟨cutInto_arcCyclesZW hlt, fun b hb => ?_⟩, fun v m => ?_⟩
  · rw [intTime_cycleArcsInArc ha hs he, ← hmap, IntTime.arcCyclesZW, arcCyclesZW]
    split_ifs with heq
    · rfl
    · exact intTime_arcCycles (ha.lt_of_ne heq) hs he hk
  · refine ⟨⌊b.start⌋, Int.floor_le _, ?_⟩
    have h := (piece_of_mem hb).stop_le_nextSam
    rwa [nextSam, add_comm] at h
  · rw [hmap]
    exact List.map_map

/-- A query that starts below zero. -/
theorem arcCyclesZW_eq_sect_below :
    IntTime.arcCyclesZW 4 ⟨-1 / 2, 3 / 2⟩ =
        some ((IntTime.cycleArcsInArc ⟨-1 / 2, 3 / 2⟩).map (sect ⟨-1 / 2, 3 / 2⟩)) ∧
      (arcCyclesZW ⟨-1 / 2, 3 / 2⟩).length = 3 := by
  have hstart : ⌊(-1 / 2 : ℚ)⌋ = -1 := by norm_num
  have hstop : ⌊(3 / 2 : ℚ)⌋ = 1 := by norm_num
  have hceil : ⌈(3 / 2 : ℚ)⌉ = 2 := by norm_num
  obtain ⟨h1, -, -, h4, -⟩ := arcCyclesZW_eq_sect (a := ⟨-1 / 2, 3 / 2⟩) (by norm_num)
    (by rw [hstart]; exact ⟨by norm_num, by norm_num⟩) (by rw [hstop]; exact ⟨by norm_num, by norm_num⟩)
  refine ⟨h1 4 (by rw [hstart, hceil]; decide), ?_⟩
  have hcount := (h4 (by norm_num)).1.count
  rw [hstart, hceil] at hcount
  omega

end Tidal
