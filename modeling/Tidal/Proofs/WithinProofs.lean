import Tidal.UI
import Tidal.Proofs.StepwiseProofs
import Tidal.Proofs.CyclesProofs

/-!
# A window of each cycle, taken out and put back

`within` with the identity plays both halves of the pattern, those events that start in the window and those
that do not. `within'` plays what is heard in the window instead of the first half, and moves it into the
window whole by whole: an event that crosses the border of the window is played twice, or loses its end.
-/

namespace Tidal

open Pattern EventF

variable {Γ α : Type} {p : Pattern Γ α} {m : Γ} {a : Arc} {t s e : Time}

/-! ## Both halves -/

/-- What a filter keeps and what it drops are all events. -/
theorem activeIn_filter_add_not (q : Event α → Bool) (es : List (Event α)) (t : Time) :
    activeIn (es.filter q) t + activeIn (es.filter fun x => !q x) t = activeIn es t := by
  induction es with
  | nil => rfl
  | cons x es ih =>
    rw [activeIn_cons x es, ← ih]
    by_cases hq : q x
    · rw [List.filter_cons_of_pos hq, List.filter_cons_of_neg (by simp [hq]), activeIn_cons, add_assoc]
    · rw [List.filter_cons_of_neg hq, List.filter_cons_of_pos (by simp [hq]), activeIn_cons, add_left_comm]

/-- `within` with the identity changes nothing. -/
theorem act_within_id (se : Time × Time) : act (within se id p) m a t = act p m a t := by
  rw [within, act_stack]
  simp only [List.map_cons, List.map_nil, List.sum_cons, List.sum_nil, add_zero, id]
  have h := activeIn_filter_add_not
    (fun x => decide (cyclePos x.wholeStart ≥ se.1 ∧ cyclePos x.wholeStart < se.2)) (p.query ⟨a, m⟩) t
  simp only [← decide_not] at h
  exact h

/-! ## The window, spread over the cycle and compressed again -/

/-- The time lies in the window of its cycle. -/
def InWindow (s e t : Time) : Prop := cyclePos t ≥ s ∧ cyclePos t < e

instance (s e t : Time) : Decidable (InWindow s e t) := inferInstanceAs (Decidable (_ ∧ _))

/-- How `within'` moves the whole of an event that it takes from the window. -/
def rewindow (s e : Time) (w : Arc) : Arc :=
  (gapArc (1 / (e - s)) (zoomResult ⟨s, e⟩ w)).map (· + s)

/-- What is put into the window starts in it. -/
theorem inWindow_rewindow (h0 : 0 ≤ s) (hse : s < e) (he : e ≤ 1) (w : Arc) :
    InWindow s e (rewindow s e w).start := by
  have hd : 0 < e - s := sub_pos.mpr hse
  set u := (zoomResult ⟨s, e⟩ w).start with hu
  have hstart : (rewindow s e w).start = sam u + ((u - sam u) * (e - s) + s) := by
    simp only [rewindow, ArcF.map, gapArc, ← hu]
    field_simp
    ring
  have h1 : 0 ≤ u - sam u := cyclePos_nonneg u
  have h2 : u - sam u < 1 := cyclePos_lt_one u
  have h3 : 0 ≤ (u - sam u) * (e - s) := mul_nonneg h1 hd.le
  have h4 : (u - sam u) * (e - s) < e - s := by nlinarith
  have hsam : sam (rewindow s e w).start = sam u := by
    rw [hstart]
    exact sam_eq (c := ⌊u⌋) (by unfold sam at *; linarith) (by unfold sam at *; linarith)
  unfold InWindow cyclePos
  rw [hsam, hstart]
  constructor <;> linarith

/-- A whole that starts in the window comes back to its place. -/
theorem rewindow_of_inWindow (hse : s < e) {w : Arc} (hw : InWindow s e w.start) : rewindow s e w = w := by
  have hd : 0 < e - s := sub_pos.mpr hse
  obtain ⟨h1, h2⟩ := hw
  have hzoom : zoomResult ⟨s, e⟩ w =
      ⟨sam w.start + (w.start - sam w.start - s) / (e - s), sam w.start + (w.stop - sam w.start - s) / (e - s)⟩ := rfl
  have hsam : sam (sam w.start + (w.start - sam w.start - s) / (e - s)) = sam w.start := by
    unfold cyclePos at h1 h2
    refine sam_eq (c := ⌊w.start⌋) ?_ ?_
    · have : 0 ≤ (w.start - sam w.start - s) / (e - s) := div_nonneg (by linarith) hd.le
      unfold sam at *
      linarith
    · have : (w.start - sam w.start - s) / (e - s) < 1 := by rw [div_lt_one hd]; linarith
      unfold sam at *
      linarith
  rw [rewindow, hzoom]
  simp only [gapArc, hsam, ArcF.map]
  obtain ⟨x, y⟩ := w
  congr 1 <;> field_simp <;> ring

theorem act_compress_zoom (hp : CutFree p) (h0 : 0 ≤ s) (hse : s < e) (he : e ≤ 1) (hat : isIn a t) :
    act (compressArc ⟨s, e⟩ (zoom (s, e) p)) m a t =
      if InWindow s e t then (behaviour p m t).map (onWhole (rewindow s e)) else 0 := by
  have hzoom : CutFree (zoomArc ⟨s, e⟩ p) := hp.zoomArc h0 hse he
  rw [zoom, act_compressArc_steady hzoom.isLocal hzoom.steady h0 hse he hat]
  by_cases hin : InWindow s e t
  · have hd := sub_pos.mpr hse
    have hsam : sam (sam t + (cyclePos t - s) / (e - s)) = sam t := by
      refine sam_eq (c := ⌊t⌋) ?_ ?_
      · exact le_add_of_nonneg_right (div_nonneg (sub_nonneg.mpr hin.1) hd.le)
      · have : (cyclePos t - s) / (e - s) < 1 := by rw [div_lt_one hd]; linarith [hin.2]
        exact (add_lt_add_iff_left _).mpr this
    have htime : zoomTime ⟨s, e⟩ (sam t + (cyclePos t - s) / (e - s)) = t := by
      simp only [zoomTime, hsam]
      unfold cyclePos
      field_simp
      ring
    rw [if_pos (by exact hin), if_pos hin, behaviour, act_zoomArc hp.isLocal hp.steady h0 hse he (isIn_now _),
      htime, Multiset.map_map]
    refine Multiset.map_congr rfl fun x _ => ?_
    obtain ⟨_ | w, v⟩ := x <;> rfl
  · rw [if_neg (by exact hin), if_neg hin]

theorem Cyclewise.seamless (hp : Cyclewise p) : Seamless p := ⟨hp.digital, hp.inWhole, hp.cutFree⟩

/-- At moments of the window the events of the window are put back, and those that start outside of it are
kept as well; at other moments only the latter are. -/
theorem act_within'_id (hp : Seamless p) (h0 : 0 ≤ s) (hse : s < e) (he : e ≤ 1) (hat : isIn a t) :
    act (within' (s, e) id p) m a t =
      (if InWindow s e t then (behaviour p m t).map (onWhole (rewindow s e)) else 0) +
        (behaviour p m t).filter fun x => onsetTest (fun u => ¬ InWindow s e u) x := by
  have hcompress : act (filterWhen (fun u => InWindow s e u) (compressArc ⟨s, e⟩ (zoom (s, e) p))) m a t =
      act (compressArc ⟨s, e⟩ (zoom (s, e) p)) m a t := by
    refine activeIn_filter_of_forall fun x hx hin => ?_
    have hmem : (x.whole, x.value) ∈ act (compressArc ⟨s, e⟩ (zoom (s, e) p)) m a t :=
      mem_activeIn.mpr ⟨x, hx, hin, rfl⟩
    rw [act_compress_zoom hp.cutFree h0 hse he hat] at hmem
    by_cases ht : InWindow s e t
    · rw [if_pos ht] at hmem
      obtain ⟨y, hy, heq⟩ := Multiset.mem_map.mp hmem
      obtain ⟨w, hw, _⟩ := hp.whole_isIn hy
      have hwhole : x.whole = some (rewindow s e w) := by
        rw [← (Prod.mk.inj heq).1, hw]
        rfl
      simpa [wholeStart, wholeOrPart, hwhole] using inWindow_rewindow h0 hse he w
    · rw [if_neg ht] at hmem
      exact absurd hmem (Multiset.notMem_zero _)
  have hrest := act_filterWhen (fun u => ¬ InWindow s e u) (t := t) (hp.digital a m (isIn_pos hat).le)
  rw [hp.steady.act_eq m hat] at hrest
  have hstack : act (within' (s, e) id p) m a t =
      act (filterWhen (fun u => InWindow s e u) (compressArc ⟨s, e⟩ (zoom (s, e) p))) m a t +
        act (filterWhen (fun u => ¬ InWindow s e u) p) m a t := by
    rw [within', act_stack]
    simp only [List.map_cons, List.map_nil, List.sum_cons, List.sum_nil, add_zero, id]
    rfl
  rw [hstack, hcompress, hrest, act_compress_zoom hp.cutFree h0 hse he hat]

/-- `within'` with the identity changes nothing at a moment exactly if each event that is active there
starts in the window just when the moment lies in it. -/
theorem within'_id_iff (p : Pattern Γ α) (hp : Cyclewise p) {s e : Time} (h0 : 0 ≤ s) (hse : s < e)
    (he : e ≤ 1) (m : Γ) (t : Time) :
    ((∀ a, isIn a t → act (within' (s, e) id p) m a t = behaviour p m t) ↔
      ∀ x ∈ behaviour p m t, ∀ w, x.1 = some w → (InWindow s e w.start ↔ InWindow s e t)) ∧
    ∀ a, isIn a t → act (within (s, e) id p) m a t = behaviour p m t := by
  have hs := hp.seamless
  refine ⟨?_, fun a hat => by rw [act_within_id, hp.cutFree.steady.act_eq m hat]⟩
  have hact := fun a (hat : isIn a t) => act_within'_id (m := m) hs h0 hse he hat
  have htest : ∀ {x : Option Arc × α} {w : Arc}, x.1 = some w →
      (onsetTest (fun u => ¬ InWindow s e u) x = true ↔ ¬ InWindow s e w.start) := by
    intro x w hw
    simp [onsetTest, hw]
  by_cases ht : InWindow s e t
  · simp only [ht, if_true, iff_true] at hact ⊢
    constructor
    · intro h x hx w hw
      have heq := h _ (isIn_now t)
      rw [hact _ (isIn_now t)] at heq
      -- the window alone plays as many events as there are
      have hcard := congrArg Multiset.card heq
      rw [Multiset.card_add, Multiset.card_map, Nat.add_eq_left, Multiset.card_eq_zero] at hcard
      by_contra hout
      have hmem : x ∈ (behaviour p m t).filter fun x => onsetTest (fun u => ¬ InWindow s e u) x :=
        Multiset.mem_filter.mpr ⟨hx, (htest hw).mpr hout⟩
      rw [hcard] at hmem
      exact Multiset.notMem_zero _ hmem
    · intro h a hat
      have hmap : (behaviour p m t).map (onWhole (rewindow s e)) = behaviour p m t := by
        conv_rhs => rw [← Multiset.map_id (behaviour p m t)]
        refine Multiset.map_congr rfl fun x hx => ?_
        obtain ⟨w, hw, _⟩ := hs.whole_isIn hx
        obtain ⟨w', v⟩ := x
        obtain rfl : w' = some w := hw
        simp [onWhole, rewindow_of_inWindow hse (h _ hx w rfl)]
      have hnone : ((behaviour p m t).filter fun x => onsetTest (fun u => ¬ InWindow s e u) x) = 0 := by
        refine Multiset.filter_eq_nil.mpr fun x hx htrue => ?_
        obtain ⟨w, hw, _⟩ := hs.whole_isIn hx
        exact (htest hw).mp htrue (h x hx w hw)
      rw [hact a hat, hmap, hnone, add_zero]
  · simp only [ht, if_false, zero_add, iff_false] at hact ⊢
    constructor
    · intro h x hx w hw
      have heq := h _ (isIn_now t)
      rw [hact _ (isIn_now t)] at heq
      exact (htest hw).mp (Multiset.filter_eq_self.mp heq x hx)
    · intro h a hat
      rw [hact a hat]
      refine Multiset.filter_eq_self.mpr fun x hx => ?_
      obtain ⟨w, hw, _⟩ := hs.whole_isIn hx
      exact (htest hw).mpr (h x hx w hw)

theorem within'_id_iff_pure :
    ((∀ a, isIn a (3 / 4) → act (within' (1 / 2, 1) id (Pattern.pure 0 : Pattern Unit ℕ)) () a (3 / 4) =
        behaviour (Pattern.pure 0) () (3 / 4)) ↔
      ∀ x ∈ behaviour (Pattern.pure 0 : Pattern Unit ℕ) () (3 / 4), ∀ w, x.1 = some w →
        (InWindow (1 / 2) 1 w.start ↔ InWindow (1 / 2) 1 (3 / 4))) ∧
    ∀ a, isIn a (3 / 4) → act (within (1 / 2, 1) id (Pattern.pure 0 : Pattern Unit ℕ)) () a (3 / 4) =
      behaviour (Pattern.pure 0) () (3 / 4) :=
  within'_id_iff (Pattern.pure 0) (cyclewise_pure 0) (by norm_num) (by norm_num) le_rfl () (3 / 4)

/-- A note of a whole cycle, with the second half as the window: in the second half there are two notes,
one of which has a whole that ends before. -/
theorem within'_pure_doubled :
    Cyclewise (Pattern.pure 0 : Pattern Unit ℕ) ∧
    act (within' (1 / 2, 1) id (Pattern.pure 0 : Pattern Unit ℕ)) () ⟨0, 1⟩ (3 / 4) =
      {(some ⟨-1 / 2, 1 / 2⟩, 0), (some ⟨0, 1⟩, 0)} ∧
    behaviour (Pattern.pure 0 : Pattern Unit ℕ) () (3 / 4) = {(some ⟨0, 1⟩, 0)} := by
  have hp : behaviour (Pattern.pure 0 : Pattern Unit ℕ) () (3 / 4) = {(some ⟨0, 1⟩, 0)} := by
    with_unfolding_all decide
  refine ⟨cyclewise_pure 0, ?_, hp⟩
  rw [act_within'_id (regular_pure 0).seamless (by norm_num) (by norm_num) le_rfl
    (show isIn ⟨0, 1⟩ (3 / 4) by with_unfolding_all decide), hp]
  with_unfolding_all decide

end Tidal
