import Tidal.Regular
import Tidal.Proofs.WarpProofs

/-!
# Proofs: spreading a window of each cycle over the cycle

`zoomArc` moves the query by the window of the cycle it is in, and moves the whole and the part of an
answer back by the cycles they start in. For a whole that began in an earlier cycle that is too far to
the right, by some multiple of the cycles in between.
-/

namespace Tidal

open EventF Pattern

variable {Γ α : Type} {p : Pattern Γ α} {m : Γ} {a b q : Arc} {t : Time}

/-! ## What `zoomArc` plays -/

/-- How `zoomArc` moves the arc of an answer: relative to the cycle in which that arc starts. -/
def zoomResult (a : Arc) : Arc → Arc := mapCycle fun x => (x - a.start) / (a.stop - a.start)

/-- The query that `zoomArc` asks about a piece of its own query. -/
def zoomQuery (a : Arc) : Arc → Arc := mapCycle fun x => x * (a.stop - a.start) + a.start

/-- The answers to one piece, with their arcs moved as the window of the cycle is. -/
theorem activeIn_zoomPiece (hl : Local p) (hs : Steady p) (h0 : 0 ≤ a.start) (hlt : a.start < a.stop)
    (h1 : a.stop ≤ 1) (hb : b.start < b.stop) (hn : b.stop ≤ nextSam b.start) :
    activeIn ((p.query ⟨zoomQuery a b, m⟩).map (mapArc (zoomResult a))) t =
      if isIn b t then (behaviour p m (sam b.start + a.start + (t - sam b.start) * (a.stop - a.start))).map
        (onWhole (zoomResult a)) else 0 := by
  have hd := sub_pos.mpr hlt
  set c := sam b.start with hc
  set d := a.stop - a.start with hdef
  have hcb : 0 ≤ b.start - c := sub_nonneg.mpr (sam_le _)
  have hbc : b.stop - c ≤ 1 := by unfold nextSam at hn; linarith
  have hq : zoomQuery a b = ⟨c + ((b.start - c) * d + a.start), c + ((b.stop - c) * d + a.start)⟩ := rfl
  have hpos : (zoomQuery a b).start < (zoomQuery a b).stop := by
    rw [hq]
    have := mul_lt_mul_of_pos_right (sub_lt_sub_right hb c) hd
    simp only; linarith
  have h2 : 0 ≤ (b.start - c) * d := mul_nonneg hcb hd.le
  have h3 : (b.stop - c) * d ≤ 1 * d := mul_le_mul_of_nonneg_right hbc hd.le
  have hmoved := activeIn_mapCycle (m := m) (t := t) hl (s := a.start) hd (c := ⌊b.start⌋) hpos
    (by rw [hq]; show c ≤ _; linarith) (by rw [hq]; show _ ≤ c + 1; linarith)
  rw [zoomResult, hmoved, act_eq_ite hl hs hpos]
  · have hiff : isIn (zoomQuery a b) (c + a.start + (t - c) * d) ↔ isIn b t := by
      have hle : ∀ x y : Time, c + ((x - c) * d + a.start) ≤ c + a.start + (y - c) * d ↔ x ≤ y :=
        fun x y => by
          have h := mul_le_mul_iff_of_pos_right (b := x - c) (c := y - c) hd
          rw [sub_le_sub_iff_right] at h
          rw [← h, add_assoc, add_le_add_iff_left, add_comm a.start, add_le_add_iff_right]
      have hlt' : ∀ x y : Time, c + a.start + (y - c) * d < c + ((x - c) * d + a.start) ↔ y < x :=
        fun x y => by rw [← not_le, hle, not_le]
      rw [hq, isIn, isIn, hle, hlt']
    change (if isIn (zoomQuery a b) (c + a.start + (t - c) * d) then _ else _ : Multiset _).map _ = _
    rw [if_congr hiff rfl rfl]
    split_ifs <;> rfl

theorem act_zoomArc (hl : Local p) (hs : Steady p) (h0 : 0 ≤ a.start) (hlt : a.start < a.stop)
    (h1 : a.stop ≤ 1) (hqt : isIn q t) :
    act (zoomArc a p) m q t = (behaviour p m (zoomTime a t)).map (onWhole (zoomResult a)) := by
  have hpiece := isIn_piece hqt
  have hn : (sect q (timeToCycleArc t)).stop ≤ nextSam (sect q (timeToCycleArc t)).start := by
    rw [nextSam, sam_piece_start hqt, add_comm]
    exact min_le_right _ _
  have h : act (zoomArc a p) m q t = activeIn ((p.query ⟨zoomQuery a (sect q (timeToCycleArc t)), m⟩).map
      (mapArc (zoomResult a))) t :=
    act_cycles (g := fun st => (p.query ⟨zoomQuery a st.arc, m⟩).map (mapArc (zoomResult a))) hqt
      fun b hb hn hbt => by rw [activeIn_zoomPiece hl hs h0 hlt h1 hb hn, if_neg hbt]
  rw [h, activeIn_zoomPiece hl hs h0 hlt h1 (isIn_pos hpiece) hn, if_pos hpiece, sam_piece_start hqt]
  rfl

/-! ## When wholes are moved as intended -/

/-- If two sums over a bag agree and one never counts more than the other, they agree term by term. -/
theorem eq_of_sum_eq {ι : Type} {s : Multiset ι} {f g : ι → ℚ} (hle : ∀ x ∈ s, g x ≤ f x)
    (h : (s.map f).sum = (s.map g).sum) : ∀ x ∈ s, f x = g x := by
  have hsum : (s.map fun x => f x - g x).sum = 0 := by
    rw [Multiset.sum_map_sub, h, sub_self]
  have hnn : ∀ y ∈ s.map fun x => f x - g x, 0 ≤ y := by
    intro y hy
    obtain ⟨x, hx, rfl⟩ := Multiset.mem_map.mp hy
    exact sub_nonneg.mpr (hle x hx)
  intro x hx
  exact sub_eq_zero.mp
    (Multiset.all_zero_of_le_zero_le_of_sum_eq_zero hnn hsum _ (Multiset.mem_map_of_mem _ hx))

/-- If two maps of a bag give the same bag and one is never behind the other, they agree. -/
theorem eq_of_map_eq {β ι : Type} {s : Multiset ι} {F G : ι → β} {f : β → ℚ}
    (hle : ∀ x ∈ s, f (G x) ≤ f (F x)) (h : s.map F = s.map G) : ∀ x ∈ s, f (F x) = f (G x) := by
  refine eq_of_sum_eq hle ?_
  have := congrArg (fun b => (b.map f).sum) h
  simpa only [Multiset.map_map, Function.comp] using this

/-- A whole is moved too far by a multiple of the cycles between its start and `c`. -/
theorem zoomResult_start (hlt : a.start < a.stop) (w : Arc) (c : Time) :
    (zoomResult a w).start = unzoomTime a c w.start + (c - sam w.start) * (1 / (a.stop - a.start) - 1) := by
  have hd := sub_pos.mpr hlt
  simp only [zoomResult, mapCycle, unzoomTime]
  field_simp; ring

theorem zoomResult_eq (hlt : a.start < a.stop) {w : Arc} {c : Time}
    (h : (c - sam w.start) * (1 / (a.stop - a.start) - 1) = 0) :
    zoomResult a w = w.map (unzoomTime a c) := by
  have hd := sub_pos.mpr hlt
  have hstart := zoomResult_start hlt w c
  rw [h, add_zero] at hstart
  have hstop : (zoomResult a w).stop = unzoomTime a c w.stop := by
    have hdiff : (zoomResult a w).stop - (zoomResult a w).start =
        unzoomTime a c w.stop - unzoomTime a c w.start := by
      simp only [zoomResult, mapCycle, unzoomTime]; field_simp; ring
    linarith
  rw [ArcF.map, ← hstart, ← hstop]

/-- A whole that is active at the zoomed moment starts in the cycle of the moment or before. -/
theorem sam_le_of_isIn_zoomTime (hlt : a.start < a.stop) (h1 : a.stop ≤ 1) {w : Arc}
    (hw : isIn w (zoomTime a t)) : sam w.start ≤ sam t := by
  have hzoom : zoomTime a t < sam t + 1 := by
    have : (t - sam t) * (a.stop - a.start) < 1 * (a.stop - a.start) :=
      mul_lt_mul_of_pos_right (cyclePos_lt_one t) (sub_pos.mpr hlt)
    unfold zoomTime; linarith
  by_contra hcon
  have := nextSam_le_of_sam_lt (not_le.mp hcon)
  unfold nextSam at this
  linarith [hw.1, sam_le w.start]

/-- The onset of a pair, if it has a whole. -/
def onsetOf (x : Option Arc × α) : Time := x.1.elim 0 ArcF.start

theorem map_zoomResult_eq_iff (h0 : 0 ≤ a.start) (hlt : a.start < a.stop) (h1 : a.stop ≤ 1)
    {s : Multiset (Option Arc × α)} (hs : ∀ x ∈ s, ∃ w, x.1 = some w ∧ isIn w (zoomTime a t)) :
    s.map (onWhole (zoomResult a)) = s.map (onWhole (ArcF.map (unzoomTime a (sam t)))) ↔
      a.stop - a.start = 1 ∨ ∀ x ∈ s, ∀ w, x.1 = some w → sam t ≤ w.start := by
  have hd := sub_pos.mpr hlt
  have hd1 : a.stop - a.start ≤ 1 := by linarith
  have hrate : 0 ≤ 1 / (a.stop - a.start) - 1 := by
    rw [sub_nonneg, le_div_iff₀ hd]; linarith
  have hsam : ∀ w, isIn w (zoomTime a t) → sam w.start ≤ sam t := fun w hw =>
    sam_le_of_isIn_zoomTime hlt h1 hw
  have hshift : ∀ w, isIn w (zoomTime a t) →
      0 ≤ (sam t - sam w.start) * (1 / (a.stop - a.start) - 1) := fun w hw =>
    mul_nonneg (sub_nonneg.mpr (hsam w hw)) hrate
  constructor
  · intro h
    rw [or_iff_not_imp_left]
    intro hne x hx w hw
    have hstart := eq_of_map_eq (f := onsetOf) (fun y hy => ?_) h x hx
    · simp only [onsetOf, onWhole, hw, Option.map_some, Option.elim_some, ArcF.map] at hstart
      rw [zoomResult_start hlt w (sam t), add_eq_left, mul_eq_zero] at hstart
      rcases hstart with hk | hk
      · rw [sub_eq_zero.mp hk]; exact sam_le _
      · rw [sub_eq_zero, div_eq_one_iff_eq hd.ne'] at hk
        exact absurd hk.symm hne
    · obtain ⟨v, hv, hvt⟩ := hs y hy
      simp only [onsetOf, onWhole, hv, Option.map_some, Option.elim_some, ArcF.map]
      rw [zoomResult_start hlt v (sam t)]
      linarith [hshift v hvt]
  · intro h
    refine Multiset.map_congr rfl fun x hx => ?_
    obtain ⟨w, hw, hwt⟩ := hs x hx
    simp only [onWhole, hw, Option.map_some]
    rw [zoomResult_eq hlt]
    rcases h with h | h
    · rw [h]; simp
    · have heq : sam w.start = sam t := by
        refine le_antisymm (hsam w hwt) ?_
        have := sam_mono (h x hx w hw)
        rwa [sam_sam] at this
      rw [heq, sub_self, zero_mul]

/-! ## Zooming -/

/-- **When `zoomArc` is one affine map.** At a moment, what is active is what the pattern plays in the
window, moved by the map of the cycle, with onsets only where the pattern has them, exactly when the
window is the whole cycle or no whole that is active there began in an earlier cycle. -/
theorem zoomArc_affine_iff (p : Pattern Γ α) (hp : Coherent p) (a : Arc) (h0 : 0 ≤ a.start)
    (hlt : a.start < a.stop) (h1 : a.stop ≤ 1) (m : Γ) (t : Time) :
    ((∀ q, isIn q t → act (zoomArc a p) m q t =
        (behaviour p m (zoomTime a t)).map (onWhole (ArcF.map (unzoomTime a (sam t))))) ∧
      ∀ q, isIn q t → ∀ x ∈ act (zoomArc a p) m q t, startsAt t x →
        ∃ y ∈ behaviour p m (zoomTime a t), y.2 = x.2 ∧ startsAt (zoomTime a t) y) ↔
    (a.stop - a.start = 1 ∨
      ∀ x ∈ behaviour p m (zoomTime a t), ∀ w, x.1 = some w → sam t ≤ w.start) := by
  have hact : ∀ q, isIn q t → act (zoomArc a p) m q t =
      (behaviour p m (zoomTime a t)).map (onWhole (zoomResult a)) := fun q hqt =>
    act_zoomArc hp.isLocal hp.cut h0 hlt h1 hqt
  have hiff := map_zoomResult_eq_iff (t := t) h0 hlt h1
    (fun x (hx : x ∈ behaviour p m (zoomTime a t)) => hp.wholeIn_behaviour hx)
  constructor
  · rintro ⟨h, _⟩
    exact hiff.mp ((hact _ (isIn_now t)).symm.trans (h _ (isIn_now t)))
  · intro h
    have hmap := hiff.mpr h
    refine ⟨fun q hqt => (hact q hqt).trans hmap, fun q hqt x hx hstart => ?_⟩
    rw [hact q hqt, hmap] at hx
    obtain ⟨y, hy, rfl⟩ := Multiset.mem_map.mp hx
    obtain ⟨w, hw, _⟩ := hp.wholeIn_behaviour hy
    refine ⟨y, hy, rfl, ?_⟩
    simp only [startsAt, onWhole, hw, Option.map_some, ArcF.map, Option.some.injEq] at hstart ⊢
    -- the map of the cycle takes the zoomed moment to `t`, and nothing else
    have hd := sub_pos.mpr hlt
    unfold unzoomTime at hstart
    have : (w.start - sam t - a.start) = (t - sam t) * (a.stop - a.start) := by
      rw [← div_eq_iff hd.ne']; linarith
    unfold zoomTime; linarith

theorem zoomArc_affine_halves :
    (∀ q, isIn q (5 / 4) → act (zoomArc ⟨1 / 4, 3 / 4⟩ (fastFromList [0, 1] : Pattern Unit ℕ)) () q (5 / 4) =
        (behaviour (fastFromList [0, 1]) () (zoomTime ⟨1 / 4, 3 / 4⟩ (5 / 4))).map
          (onWhole (ArcF.map (unzoomTime ⟨1 / 4, 3 / 4⟩ (sam (5 / 4)))))) ∧
      ∀ q, isIn q (5 / 4) → ∀ x ∈ act (zoomArc ⟨1 / 4, 3 / 4⟩ (fastFromList [0, 1] : Pattern Unit ℕ)) () q (5 / 4),
        startsAt (5 / 4) x → ∃ y ∈ behaviour (fastFromList [0, 1]) () (zoomTime ⟨1 / 4, 3 / 4⟩ (5 / 4)),
          y.2 = x.2 ∧ startsAt (zoomTime ⟨1 / 4, 3 / 4⟩ (5 / 4)) y := by
  refine (zoomArc_affine_iff _ (regular_fastFromList _).toCoherent ⟨1 / 4, 3 / 4⟩ (by norm_num) (by norm_num)
    (by norm_num) () (5 / 4)).mpr (Or.inr fun x hx w hw => ?_)
  have hone : behaviour (fastFromList [0, 1] : Pattern Unit ℕ) () (zoomTime ⟨1 / 4, 3 / 4⟩ (5 / 4)) =
      {(some ⟨1, 3 / 2⟩, 0)} := by with_unfolding_all decide
  rw [hone, Multiset.mem_singleton] at hx
  subst hx
  obtain rfl := Option.some.inj hw
  with_unfolding_all decide

/-- The second half of an event from `1/2` to `3/2`, zoomed: it is returned with a new onset at the start
of the cycle. -/
theorem zoomArc_false_onset :
    Coherent offbeat ∧
    (zoomArc ⟨0, 1 / 2⟩ offbeat).query ⟨⟨1, 2⟩, ()⟩ = [⟨⟨[]⟩, some ⟨1, 3⟩, ⟨1, 2⟩, 0⟩] ∧
    act (zoomArc ⟨0, 1 / 2⟩ offbeat) () ⟨1, 2⟩ 1 ≠
      (behaviour offbeat () (zoomTime ⟨0, 1 / 2⟩ 1)).map
        (onWhole (ArcF.map (unzoomTime ⟨0, 1 / 2⟩ (sam 1)))) ∧
    (∃ x ∈ act (zoomArc ⟨0, 1 / 2⟩ offbeat) () ⟨1, 2⟩ 1, startsAt 1 x) ∧
    ¬ ∃ y ∈ behaviour offbeat () (zoomTime ⟨0, 1 / 2⟩ 1), startsAt (zoomTime ⟨0, 1 / 2⟩ 1) y := by
  have hone : behaviour offbeat () (zoomTime ⟨0, 1 / 2⟩ 1) = {(some ⟨1 / 2, 3 / 2⟩, 0)} := by
    with_unfolding_all decide
  refine ⟨regular_offbeat.toCoherent, by with_unfolding_all decide, by with_unfolding_all decide,
    ⟨(some ⟨1, 3⟩, 0), by with_unfolding_all decide, by decide⟩, ?_⟩
  rintro ⟨y, hy, hstart⟩
  rw [hone, Multiset.mem_singleton] at hy
  subst hy
  exact absurd hstart (by with_unfolding_all decide)

end Tidal
