import Tidal.UI
import Tidal.Regular
import Tidal.Proofs.CompressProofs
import Tidal.Proofs.RegularProofs

/-!
# Proofs: patterns compressed into structure events

`substruct` and `substruct'` answer a query event by event of a structure pattern, each event by a query
over the whole of it. What comes back fills the structure event, whatever part of it was asked about.
-/

namespace Tidal

open EventF Pattern

variable {Γ α β : Type} {p : Pattern Γ α} {m : Γ} {w x : Arc}

/-! ## A cycle compressed into an arc -/

/-- The arc has a width and lies in one cycle. -/
def Playable (w : Arc) : Prop := w.start < w.stop ∧ w.stop ≤ nextSam w.start

instance (w : Arc) : Decidable (Playable w) := inferInstanceAs (Decidable (_ ∧ _))

/-- Where an arc lands when the cycle of `w` is compressed into `w`. -/
def intoArc (w : Arc) (x : Arc) : Arc := (gapArc (1 / (w.stop - w.start)) x).map (· + cyclePos w.start)

/-- Parts lie inside the query, and begin before its end. -/
def Contained (p : Pattern Γ α) : Prop :=
  ∀ a m, a.start < a.stop → ∀ e ∈ p.query ⟨a, m⟩, Within e.part a ∧ e.part.start < a.stop

theorem Playable.width (hw : Playable w) : 0 < w.stop - w.start ∧ w.stop - w.start ≤ 1 := by
  obtain ⟨h1, h2⟩ := hw
  have := sam_le w.start
  unfold nextSam at h2
  exact ⟨by linarith, by linarith⟩

theorem compressArcTo_eq (hw : Playable w) (p : Pattern Γ α) :
    compressArcTo w p = rotR (cyclePos w.start) (_fastGap (1 / (w.stop - w.start)) p) := by
  have hstop := hw.2
  have hsam := sam_le w.start
  unfold nextSam at hstop
  rw [compressArcTo, compressArc_eq (by unfold cyclePos; linarith)
    (by unfold cyclePos; linarith [hw.1]) (by linarith)]
  congr 3
  unfold cyclePos
  ring

/-- Asked about the whole arc, the compressed pattern answers with its own cycle. -/
theorem compressArcTo_query (hw : Playable w) (p : Pattern Γ α) (m : Γ) :
    (compressArcTo w p).query ⟨w, m⟩ =
      (p.query ⟨timeToCycleArc w.start, m⟩).map (mapArc (intoArc w)) := by
  obtain ⟨hd0, hd1⟩ := hw.width
  set d := w.stop - w.start with hd
  set c := sam w.start with hc
  have hr : 1 ≤ 1 / d := by rwa [le_div_iff₀ hd0, one_mul]
  have hshift : w.map (· + -cyclePos w.start) = ⟨c, c + d⟩ := by
    simp only [ArcF.map, cyclePos, hd, hc]
    congr 1 <;> ring
  have hpiece : arcCyclesZW ⟨c, c + d⟩ = [⟨c, c + d⟩] :=
    arcCyclesZW_of_le (by simp only; linarith) (by simp only [nextSam, hc, sam_sam]; linarith)
  have hquery : gapQuery (1 / d) ⟨c, c + d⟩ = timeToCycleArc w.start := by
    rw [gapQuery_eq hr (by simp only; linarith) (by simp only [nextSam, hc, sam_sam]; linarith)
      (by simp only [hc, sam_sam, one_div_one_div]; linarith)]
    simp only [hc, sam_sam, sub_self, mul_zero, add_zero, add_sub_cancel_left,
      one_div_mul_cancel hd0.ne', min_self, timeToCycleArc]
  have hgap : gapPiece (1 / d) p m ⟨c, c + d⟩ =
      (p.query ⟨timeToCycleArc w.start, m⟩).map (mapArc (gapArc (1 / d))) := by
    rw [gapPiece, if_pos (by simp only [hc, sam_sam, one_div_one_div]; linarith), hquery]
  have hrot : (rotR (cyclePos w.start) (_fastGap (1 / d) p)).query ⟨w, m⟩ =
      ((_fastGap (1 / d) p).query ⟨w.map (· + -cyclePos w.start), m⟩).map
        (mapArc (ArcF.map (· - -cyclePos w.start))) := rfl
  rw [compressArcTo_eq hw, hrot, hshift, fastGap_query hr, hpiece, List.flatMap_cons, List.flatMap_nil,
    List.append_nil, hgap, List.map_map]
  refine List.map_congr_left fun e _ => ?_
  simp only [Function.comp, mapArc, Option.map_map, sub_neg_eq_add]
  rfl

/-- No other arc has anything compressed into it. -/
theorem compressArcTo_query_nil (hw : ¬ Playable w) (p : Pattern Γ α) (st : State Γ) :
    (compressArcTo w p).query st = [] := by
  rw [compressArcTo, compressArc]
  split_ifs with h1 h2 h3
  · rfl
  · rfl
  · rfl
  · -- an arc of no width
    have hse : cyclePos w.start = w.stop - sam w.start := by
      by_contra hne
      simp only [not_lt, not_or] at h1 h2
      refine hw ⟨?_, by unfold nextSam; linarith [h2.2]⟩
      have := lt_of_le_of_ne h1 hne
      unfold cyclePos at this
      linarith
    simp only [hse, sub_self, div_zero, _fastGap]
    rfl

theorem intoArc_cycle (hw : Playable w) : intoArc w (timeToCycleArc w.start) = w := by
  obtain ⟨s, e⟩ := w
  have hd := hw.width.1
  simp only [intoArc, gapArc, timeToCycleArc, ArcF.map, sam_sam, sub_self, zero_div, add_zero,
    add_sub_cancel_left, one_div_one_div, cyclePos]
  congr 1 <;> ring

theorem within_intoArc (hw : Playable w) (hx : Within x (timeToCycleArc w.start))
    (hlt : x.start < (timeToCycleArc w.start).stop) : Within (intoArc w x) w := by
  obtain ⟨hd, -⟩ := hw.width
  obtain ⟨h1, h2, h3⟩ := hx
  simp only [timeToCycleArc] at h1 h3 hlt
  have hsam : sam x.start = sam w.start := sam_eq h1 hlt
  have hscale : ∀ y, sam w.start + (y - sam w.start) / (1 / (w.stop - w.start)) + cyclePos w.start =
      w.start + (y - sam w.start) * (w.stop - w.start) := by
    intro y
    rw [one_div, div_inv_eq_mul, cyclePos]
    ring
  simp only [Within, intoArc, gapArc, ArcF.map, hsam, hscale]
  have h4 : 0 ≤ (x.start - sam w.start) * (w.stop - w.start) :=
    mul_nonneg (sub_nonneg.mpr h1) hd.le
  have h5 : (x.start - sam w.start) * (w.stop - w.start) ≤ (x.stop - sam w.start) * (w.stop - w.start) :=
    mul_le_mul_of_nonneg_right (sub_le_sub_right h2 _) hd.le
  have h6 : (x.stop - sam w.start) * (w.stop - w.start) ≤ 1 * (w.stop - w.start) :=
    mul_le_mul_of_nonneg_right (by linarith) hd.le
  exact ⟨by linarith, by linarith, by linarith⟩

theorem pure_compressArcTo_query (hw : Playable w) (v : α) (m : Γ) :
    (compressArcTo w (Pattern.pure v)).query ⟨w, m⟩ = [⟨⟨[]⟩, some w, w, v⟩] := by
  have hcycle : timeToCycleArc w.start = ⟨(⌊w.start⌋ : ℤ), (⌊w.start⌋ : ℤ) + 1⟩ := rfl
  rw [compressArcTo_query hw, hcycle, pure_query_cycle, ← hcycle, List.map_singleton, mapArc,
    Option.map_some, intoArc_cycle hw]

/-! ## Structure events -/

/-- The arcs of the true events that `s` returns for the query, as far as a cycle can be compressed into
them. -/
def structureArcs (s : Pattern Γ Bool) (m : Γ) (a : Arc) : List Arc :=
  (((s.query ⟨a, m⟩).filter fun e => e.value).map wholeOrPart).filter fun w => Playable w

theorem flatMap_filter_of_nil {ι κ : Type} {P : ι → Bool} {f : ι → List κ} {l : List ι}
    (h : ∀ x ∈ l, P x = false → f x = []) : l.flatMap f = (l.filter P).flatMap f := by
  induction l with
  | nil => rfl
  | cons x l ih =>
    rw [List.flatMap_cons, ih fun y hy => h y (List.mem_cons_of_mem _ hy), List.filter_cons]
    split_ifs with hx
    · rw [List.flatMap_cons]
    · rw [h x (List.mem_cons_self ..) (by simpa using hx), List.nil_append]

theorem onsetsIn_flatMap {ι : Type} (f : ι → List (Event α)) (u : Time) (l : List ι) :
    onsetsIn (l.flatMap f) u = (l.map fun x => onsetsIn (f x) u).sum := by
  induction l with
  | nil => rfl
  | cons x l ih => rw [List.flatMap_cons, onsetsIn_append, ih, List.map_cons, List.sum_cons]

theorem mem_structureArcs {s : Pattern Γ Bool} {a : Arc} (hw : w ∈ structureArcs s m a) : Playable w := by
  simpa using (List.mem_filter.mp hw).2

theorem contained_pure (v : α) : Contained (Pattern.pure v : Pattern Γ α) := by
  intro a m ha e he
  have h := (wellFormed_pure v : WellFormed True (Pattern.pure v : Pattern Γ α)) a m ha.le e he
  obtain ⟨hin, hpos⟩ := h.fits
  exact ⟨hin, (hpos trivial ha).trans_le hin.2.2⟩

section Substruct

variable [EmptyCollection Γ] {s : Pattern Γ Bool} {a : Arc}

/-- What is compressed into one arc of the structure. -/
def filling (p : Pattern Γ α) (w : Arc) : List (Event α) := queryArc (compressArcTo w p) w

theorem substruct_query (s : Pattern Γ Bool) (p : Pattern Γ α) (m : Γ) (a : Arc) :
    (substruct s p).query ⟨a, m⟩ = (structureArcs s m a).flatMap (filling p) := by
  rw [structureArcs, ← flatMap_filter_of_nil, List.flatMap_map]
  · rfl
  · intro w _ hw
    exact compressArcTo_query_nil (by simpa using hw) p _

theorem within_filling (hp : Contained p) (hw : Playable w) {e : Event α} (he : e ∈ filling p w) :
    Within e.part w := by
  rw [filling, queryArc, compressArcTo_query hw] at he
  obtain ⟨e', he', rfl⟩ := List.mem_map.mp he
  obtain ⟨h1, h2⟩ := hp (timeToCycleArc w.start) ∅ (lt_add_one _) e' he'
  exact within_intoArc hw h1 h2

theorem filling_pure (hw : Playable w) (v : α) :
    filling (Pattern.pure v : Pattern Γ α) w = [⟨⟨[]⟩, some w, w, v⟩] := pure_compressArcTo_query hw v ∅

/-- The answers lie inside of the query, whatever is compressed, exactly when the structure does. -/
theorem substruct_within_iff [Inhabited α] (s : Pattern Γ Bool) (m : Γ) (a : Arc) :
    (∀ p : Pattern Γ α, Contained p → ∀ e ∈ (substruct s p).query ⟨a, m⟩, Within e.part a) ↔
      ∀ w ∈ structureArcs s m a, Within w a := by
  constructor
  · intro h w hw
    refine h (Pattern.pure default) (contained_pure default) ⟨⟨[]⟩, some w, w, default⟩ ?_
    rw [substruct_query]
    refine List.mem_flatMap.mpr ⟨w, hw, ?_⟩
    rw [filling_pure (mem_structureArcs hw)]
    exact List.mem_singleton_self _
  · intro h p hp e he
    rw [substruct_query] at he
    obtain ⟨w, hw, he⟩ := List.mem_flatMap.mp he
    exact (within_filling hp (mem_structureArcs hw) he).trans (h w hw)

theorem onsetsIn_filling_pure (hw : Playable w) (v : α) (u : Time) :
    onsetsIn (filling (Pattern.pure v : Pattern Γ α) w) u = if w.start = u then {(some w, v)} else 0 := by
  rw [filling_pure hw]
  simp only [onsetsIn, eventHasOnset]
  split_ifs with h
  · simp [h]
  · simp [h]

/-- The onsets of constant patterns in the arcs of a structure tell how often each arc occurs. -/
theorem perm_of_onsetsIn (v : α) {ws ws' : List Arc} (hws : ∀ w ∈ ws, Playable w)
    (hws' : ∀ w ∈ ws', Playable w)
    (h : ∀ u, onsetsIn (ws.flatMap (filling (Pattern.pure v : Pattern Γ α))) u =
      onsetsIn (ws'.flatMap (filling (Pattern.pure v : Pattern Γ α))) u) : ws.Perm ws' := by
  have hcount : ∀ (l : List Arc), (∀ w ∈ l, Playable w) → ∀ w : Arc,
      Multiset.countP (fun y => y.1 = some w)
        (onsetsIn (l.flatMap (filling (Pattern.pure v : Pattern Γ α))) w.start) = l.count w := by
    intro l hl w
    induction l with
    | nil => rfl
    | cons y l ih =>
      rw [List.flatMap_cons, onsetsIn_append, Multiset.countP_add,
        ih fun z hz => hl z (List.mem_cons_of_mem _ hz),
        onsetsIn_filling_pure (hl y (List.mem_cons_self ..)), List.count_cons, add_comm]
      congr 1
      by_cases hyw : y = w
      · subst hyw
        rw [if_pos rfl, if_pos (beq_self_eq_true y)]
        exact Multiset.countP_eq_card.mpr fun z hz => by rw [Multiset.mem_singleton.mp hz]
      · rw [if_neg (c := (y == w) = true) (by simpa using hyw)]
        refine Multiset.countP_eq_zero.mpr fun z hz hzw => hyw ?_
        split_ifs at hz
        · rw [Multiset.mem_singleton.mp hz] at hzw
          exact Option.some.inj hzw
        · simp at hz
  rw [List.perm_iff_count]
  intro w
  rw [← hcount ws hws w, ← hcount ws' hws' w, h]

/-- Over a cut, the answers together have the onsets of one answer, whatever is compressed, exactly when
they get back the same structure. -/
theorem substruct_onsets_iff [Inhabited α] (s : Pattern Γ Bool) (m : Γ) (as : List Arc) (a : Arc) :
    (∀ p : Pattern Γ α, Contained p → ∀ u,
        onsetsIn (as.flatMap fun b => (substruct s p).query ⟨b, m⟩) u =
          onsetsIn ((substruct s p).query ⟨a, m⟩) u) ↔
      (as.flatMap (structureArcs s m)).Perm (structureArcs s m a) := by
  have hquery : ∀ p : Pattern Γ α, (as.flatMap fun b => (substruct s p).query ⟨b, m⟩) =
      (as.flatMap (structureArcs s m)).flatMap (filling p) := by
    intro p
    simp only [substruct_query, List.flatMap_assoc]
  constructor
  · intro h
    refine perm_of_onsetsIn (Γ := Γ) (default : α) (fun w hw => ?_) (fun w hw => mem_structureArcs hw) fun u => ?_
    · obtain ⟨b, _, hb⟩ := List.mem_flatMap.mp hw
      exact mem_structureArcs hb
    · rw [← hquery (Pattern.pure default), ← substruct_query]
      exact h (Pattern.pure default) (contained_pure default) u
  · intro h p _ u
    rw [hquery, substruct_query, onsetsIn_flatMap, onsetsIn_flatMap]
    exact (h.map _).sum_eq

end Substruct

end Tidal
