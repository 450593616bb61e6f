import Tidal.Proofs.WithinProofs

/-!
# Taking and dropping steps

`_s_add` keeps steps and `_s_sub` drops them, from the start for a positive count and from the end for a
negative one. Keeping is zooming into a window of each cycle, so the kept and the dropped steps, played in
turn, are two zoomed windows compressed to where they came from.
-/

namespace Tidal

open Pattern

variable {Γ α : Type} {p : Pattern Γ α} {m : Γ} {a : Arc} {t u r : Time}

/-! ## How many steps are left -/

theorem zoomArc_tactus (c : Arc) (p : Pattern Γ α) :
    (zoomArc c p).tactus = p.tactus.map (· * (c.stop - c.start)) := rfl

theorem s_add_zero (ht : p.tactus = some t) : _s_add 0 p = nothing := by
  rw [_s_add, ht]
  exact if_pos rfl

theorem s_add_all (ht : p.tactus = some t) (hr : r ≠ 0) (h : t ≤ |r|) : _s_add r p = p := by
  rw [_s_add, ht]
  simp only
  rw [if_neg hr, if_pos h]

theorem s_add_first (ht : p.tactus = some t) (h0 : 0 < r) (h : r < t) :
    _s_add r p = zoomArc ⟨0, r / t⟩ p := by
  rw [_s_add, ht]
  simp only
  rw [if_neg h0.ne', if_neg (by rw [abs_of_pos h0]; exact not_le.mpr h), if_neg (not_lt.mpr h0.le), zoom]

theorem s_add_last (ht : p.tactus = some t) (h0 : 0 < r) (h : r < t) :
    _s_add (-r) p = zoomArc ⟨1 - r / t, 1⟩ p := by
  rw [_s_add, ht]
  simp only
  rw [if_neg (neg_ne_zero.mpr h0.ne'), abs_neg, abs_of_pos h0, if_neg (not_le.mpr h),
    if_pos (neg_lt_zero.mpr h0), zoom]

/-- As many steps as are asked for are kept, and at most all of them. -/
theorem tactus_s_add (ht : p.tactus = some t) (hpos : 0 < t) (r : ℚ) :
    (_s_add r p).tactus = some (min |r| t) := by
  rcases eq_or_ne r 0 with rfl | hr
  · rw [s_add_zero ht, abs_zero, min_eq_left hpos.le]
    rfl
  rcases le_or_gt t |r| with hall | hlt
  · rw [s_add_all ht hr hall, ht, min_eq_right hall]
  rw [min_eq_left hlt.le]
  rcases lt_or_gt_of_ne hr with hneg | hr0
  · rw [abs_of_neg hneg] at hlt ⊢
    have hlast := s_add_last ht (neg_pos.mpr hneg) hlt
    rw [neg_neg] at hlast
    rw [hlast, zoomArc_tactus, ht, Option.map_some]
    congr 1
    field_simp
    ring
  · rw [abs_of_pos hr0] at hlt ⊢
    rw [s_add_first ht hr0 hlt, zoomArc_tactus, ht, Option.map_some]
    congr 1
    field_simp
    ring

theorem s_sub_ge (ht : p.tactus = some t) (h : t ≤ r) : _s_sub r p = nothing := by
  rw [_s_sub, ht]
  exact if_pos h

theorem s_sub_neg (ht : p.tactus = some t) (hpos : 0 < t) (h : r < 0) :
    _s_sub r p = _s_add (-(t + r)) p := by
  rw [_s_sub, ht]
  simp only
  rw [if_neg (not_le.mpr (h.trans hpos)), if_pos h, zero_sub]

theorem s_sub_pos (ht : p.tactus = some t) (h0 : 0 ≤ r) (h : r < t) : _s_sub r p = _s_add (t - r) p := by
  rw [_s_sub, ht]
  simp only
  rw [if_neg (not_le.mpr h), if_neg (not_lt.mpr h0)]

/-- The counts are right, and dropping all steps leaves nothing, exactly when no more steps are dropped
from the end than there are: beyond that the negative count of `_s_add` turns positive. -/
theorem s_add_s_sub_tactus_iff (p : Pattern Γ α) (t : ℚ) (ht : p.tactus = some t) (hpos : 0 < t)
    (r : ℚ) :
    ((_s_add r p).tactus = some (min |r| t) ∧ (_s_sub r p).tactus = some (max 0 (t - |r|)) ∧
      (t ≤ |r| → _s_sub r p = nothing)) ↔ -t ≤ r := by
  rcases le_or_gt 0 r with h0 | hneg
  · refine iff_of_true ⟨tactus_s_add ht hpos r, ?_, fun h => ?_⟩ (by linarith)
    · rw [abs_of_nonneg h0]
      rcases le_or_gt t r with h | h
      · rw [s_sub_ge ht h, max_eq_left (by linarith)]
        rfl
      · rw [s_sub_pos ht h0 h, tactus_s_add ht hpos, abs_of_pos (sub_pos.mpr h),
          min_eq_left (by linarith), max_eq_right (sub_pos.mpr h).le]
    · rw [abs_of_nonneg h0] at h
      exact s_sub_ge ht h
  · rw [s_sub_neg ht hpos hneg, tactus_s_add ht hpos, tactus_s_add ht hpos, abs_neg,
      abs_of_neg hneg, sub_neg_eq_add]
    constructor
    · rintro ⟨-, h, -⟩
      by_contra hlt
      have hsum : t + r < 0 := by linarith [not_le.mp hlt]
      rw [abs_of_neg hsum, max_eq_left hsum.le] at h
      exact absurd (Option.some_inj.mp h) (lt_min (neg_pos.mpr hsum) hpos).ne'
    · intro h
      have hsum : 0 ≤ t + r := by linarith
      refine ⟨rfl, ?_, fun hle => ?_⟩
      · rw [abs_of_nonneg hsum, max_eq_right hsum, min_eq_left (by linarith)]
      · rw [show t + r = 0 by linarith, neg_zero, s_add_zero ht]

theorem s_add_s_sub_tactus_iff_pure :
    ((_s_add (-1 / 2) (Pattern.pure 0 : Pattern Unit ℕ)).tactus = some (min |-1 / 2| 1) ∧
      (_s_sub (-1 / 2) (Pattern.pure 0 : Pattern Unit ℕ)).tactus = some (max 0 (1 - |-1 / 2|)) ∧
      ((1 : ℚ) ≤ |-1 / 2| → _s_sub (-1 / 2) (Pattern.pure 0 : Pattern Unit ℕ) = nothing)) ↔
    (-1 : ℚ) ≤ -1 / 2 :=
  s_add_s_sub_tactus_iff (Pattern.pure 0) 1 rfl one_pos (-1 / 2)

/-- Dropping five steps of four from the end keeps the first one. -/
theorem s_sub_five_of_four :
    (setTactus 4 (Pattern.pure 0 : Pattern Unit ℕ)).tactus = some 4 ∧
    (_s_sub (-5) (setTactus 4 (Pattern.pure 0 : Pattern Unit ℕ))).tactus = some 1 ∧
    max 0 ((4 : ℚ) - |(-5)|) = 0 := by
  have h : (_s_sub (-5) (setTactus 4 (Pattern.pure 0 : Pattern Unit ℕ))).tactus = some (min |(-(4 + -5))| 4) := by
    rw [s_sub_neg (t := 4) rfl (by norm_num) (by norm_num), tactus_s_add (t := 4) rfl (by norm_num)]
  refine ⟨rfl, ?_, ?_⟩
  · rw [h]; norm_num
  · norm_num [abs]

/-! ## A window, spread over the cycle and put back -/

/-- Spreading a window of each cycle over the cycle and compressing the cycle into the window leaves the
values that are played in the window, when they are played. -/
theorem values_compress_zoom (hp : CutFree p) {s e : Time} (h0 : 0 ≤ s) (hse : s < e) (he : e ≤ 1)
    (hat : isIn a t) :
    (act (compressArc ⟨s, e⟩ (zoomArc ⟨s, e⟩ p)) m a t).map Prod.snd =
      if InWindow s e t then (behaviour p m t).map Prod.snd else 0 := by
  have h := act_compress_zoom (m := m) hp h0 hse he hat
  rw [zoom] at h
  rw [h]
  split_ifs
  · rw [Multiset.map_map]
    rfl
  · rfl

/-! ## The steps that are kept and the steps that are dropped -/

theorem s_cat_tactus (x y : Pattern Γ α) :
    (s_cat [x, y]).tactus = some (x.tactus.getD 1 + y.tactus.getD 1) := by
  simp [s_cat, timeCat, setTactus]

/-- Two patterns with a positive tactus each, in turn. -/
theorem act_s_cat_two {x y : Pattern Γ α} {r s : ℚ} (hx : x.tactus = some r) (hy : y.tactus = some s)
    (hr : 0 < r) (hs : 0 < s) :
    act (s_cat [x, y]) m a t = act (compressArc ⟨0, r / (r + s)⟩ x) m a t +
      act (compressArc ⟨r / (r + s), 1⟩ y) m a t := by
  have hone : (r + s) / (r + s) = 1 := div_self (by linarith)
  have hstack : act (s_cat [x, y]) m a t =
      act (stack [compressArc ⟨0 / (r + s), (0 + r) / (r + s)⟩ x,
        compressArc ⟨(0 + r) / (r + s), (0 + r + s) / (r + s)⟩ y]) m a t := by
    simp [s_cat, timeCat, hx, hy, hr, hs, Pattern.arrange]
    rfl
  rw [hstack, act_stack]
  simp [hone]

/-- Dropping the first `r` steps, by keeping the rest from the end. -/
theorem s_sub_first (ht : p.tactus = some t) (hr : 0 < r) (h : r < t) :
    _s_sub (-r) p = zoomArc ⟨r / t, 1⟩ p := by
  have hpos : 0 < t := hr.trans h
  rw [s_sub_neg ht hpos (neg_lt_zero.mpr hr), ← sub_eq_add_neg,
    s_add_last ht (sub_pos.mpr h) (by linarith)]
  congr 2
  field_simp
  ring

/-- Keeping the first `r` steps and dropping them, in turn, play what the pattern plays. -/
theorem s_cat_add_sub (p : Pattern Γ α) (hp : Seamless p) (t : ℚ) (ht : p.tactus = some t) (r : ℚ)
    (hr : 0 < r) (hrt : r < t) :
    (s_cat [_s_add r p, _s_sub (-r) p]).tactus = some t ∧
    ∀ (m : Γ) (a : Arc) (u : Time), isIn a u →
      (act (s_cat [_s_add r p, _s_sub (-r) p]) m a u).map Prod.snd =
        (behaviour p m u).map Prod.snd := by
  have hpos : 0 < t := hr.trans hrt
  have hkeep : (_s_add r p).tactus = some r := by
    rw [tactus_s_add ht hpos, abs_of_pos hr, min_eq_left hrt.le]
  have hdrop : (_s_sub (-r) p).tactus = some (t - r) := by
    rw [s_sub_neg ht hpos (neg_lt_zero.mpr hr), tactus_s_add ht hpos, abs_neg, ← sub_eq_add_neg,
      abs_of_pos (sub_pos.mpr hrt), min_eq_left (by linarith)]
  have hsum : r + (t - r) = t := by ring
  refine ⟨by rw [s_cat_tactus, hkeep, hdrop, Option.getD_some, Option.getD_some, hsum], ?_⟩
  intro m a u hau
  have hρ0 : 0 < r / t := div_pos hr hpos
  have hρ1 : r / t < 1 := (div_lt_one hpos).mpr hrt
  rw [act_s_cat_two hkeep hdrop hr (sub_pos.mpr hrt), hsum, s_add_first ht hr hrt,
    s_sub_first ht hr hrt, Multiset.map_add]
  -- the two windows share the cycle of the moment between them
  rw [values_compress_zoom hp.cutFree le_rfl hρ0 hρ1.le hau,
    values_compress_zoom hp.cutFree hρ0.le hρ1 le_rfl hau]
  rcases lt_or_ge (cyclePos u) (r / t) with h | h
  · rw [if_pos ⟨cyclePos_nonneg u, h⟩, if_neg fun hc => absurd hc.1 (not_le.mpr h), add_zero]
  · rw [if_neg fun hc => absurd hc.2 (not_lt.mpr h), if_pos ⟨h, cyclePos_lt_one u⟩, zero_add]

theorem s_cat_add_sub_offbeat :
    (s_cat [_s_add 1 (setTactus 4 offbeat), _s_sub (-1) (setTactus 4 offbeat)]).tactus = some 4 ∧
    ∀ (m : Unit) (a : Arc) (u : Time), isIn a u →
      (act (s_cat [_s_add 1 (setTactus 4 offbeat), _s_sub (-1) (setTactus 4 offbeat)]) m a u).map
          Prod.snd =
        (behaviour (setTactus 4 offbeat) m u).map Prod.snd :=
  s_cat_add_sub (setTactus 4 offbeat)
    ⟨regular_offbeat.seamless.digital, regular_offbeat.seamless.inWhole, regular_offbeat.seamless.cutFree⟩
    4 rfl 1 one_pos (by norm_num)

end Tidal
