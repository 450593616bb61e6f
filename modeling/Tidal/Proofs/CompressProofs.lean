import Tidal.Proofs.WarpProofs

/-!
# Proofs: squashing cycles

`_fastGap` and `compressArc`. A piece of the query inside one cycle is stretched about the start of the
cycle and cut off at its end; the whole and the part of an answer are squashed back about the starts of
the cycles they begin in. The two starts differ when the whole began in an earlier cycle.
-/

namespace Tidal

open EventF Pattern

variable {Γ α : Type} {p : Pattern Γ α} {m : Γ} {a b : Arc} {t r : Time}

/-! ## The query of `_fastGap` -/

/-- The answers to one piece of the query. -/
def gapPiece (r : Time) (p : Pattern Γ α) (m : Γ) (b : Arc) : List (Event α) :=
  if b.start < sam b.start + 1 / r then (p.query ⟨gapQuery r b, m⟩).map (mapArc (gapArc r)) else []

theorem mungeQuery_eq_nextSam_iff (hr : 1 ≤ r) (t : Time) :
    mungeQuery r t = nextSam t ↔ ¬ t < sam t + 1 / r := by
  have hr0 : 0 < r := by linarith
  have h : t < sam t + 1 / r ↔ r * cyclePos t < 1 := by
    rw [cyclePos, ← sub_lt_iff_lt_add', lt_div_iff₀ hr0, mul_comm]
  rw [h, not_lt, mungeQuery, nextSam, add_comm (sam t), add_left_inj, min_eq_left_iff]

theorem fastGap_query (hr : 1 ≤ r) (p : Pattern Γ α) (m : Γ) (a : Arc) :
    (_fastGap r p).query ⟨a, m⟩ = (arcCyclesZW a).flatMap (gapPiece r p m) := by
  have hr0 : r ≠ 0 := by linarith
  rw [_fastGap, if_neg hr0, max_eq_left hr]
  simp only [splitQueries, withResultArc]
  refine List.flatMap_congr fun b _ => ?_
  rw [gapPiece]
  by_cases hb : b.start < sam b.start + 1 / r
  · rw [if_pos hb, if_neg fun h => (mungeQuery_eq_nextSam_iff hr _).mp h hb]
    rfl
  · rw [if_neg hb, if_pos ((mungeQuery_eq_nextSam_iff hr _).mpr hb)]
    rfl

/-- The end of a piece is stretched about the same cycle as its start, also when it is the end of the
cycle. -/
theorem mungeQuery_stop (hr : 1 ≤ r) (h1 : b.start ≤ b.stop) (h2 : b.stop ≤ nextSam b.start) :
    mungeQuery r b.stop = sam b.start + min 1 (r * (b.stop - sam b.start)) := by
  rcases lt_or_eq_of_le h2 with hlt | heq
  · have hsam : sam b.stop = sam b.start := by
      refine sam_eq ((sam_le _).trans h1) ?_
      unfold nextSam sam at hlt; linarith
    rw [mungeQuery, cyclePos, hsam]
  · have hsam : sam b.stop = b.stop := by rw [heq]; simp [nextSam, sam]
    have hpos : b.stop - sam b.start = 1 := by rw [heq, nextSam]; ring
    rw [mungeQuery, cyclePos, hsam, hpos, sub_self, mul_zero, mul_one, min_eq_left hr,
      min_eq_right zero_le_one]
    linarith

/-- What a piece that is asked about asks: the stretched piece, up to the end of the cycle. -/
theorem gapQuery_eq (hr : 1 ≤ r) (h1 : b.start ≤ b.stop) (h2 : b.stop ≤ nextSam b.start)
    (hb : b.start < sam b.start + 1 / r) :
    gapQuery r b = ⟨sam b.start + r * (b.start - sam b.start),
      sam b.start + min 1 (r * (b.stop - sam b.start))⟩ := by
  have hr0 : 0 < r := by linarith
  have hlt : r * (b.start - sam b.start) < 1 := by
    have := mul_lt_mul_of_pos_left (sub_lt_iff_lt_add'.mpr hb) hr0
    rwa [mul_one_div_cancel hr0.ne'] at this
  rw [gapQuery, mungeQuery_stop hr h1 h2, mungeQuery, cyclePos, min_eq_right hlt.le]

/-! ## Squashed events -/

theorem gapArc_start_le (hr : 1 ≤ r) {w x : Arc} (h : w.start ≤ x.start) :
    (gapArc r w).start ≤ (gapArc r x).start := by
  have hr0 : 0 < r := by linarith
  have hsam := mul_nonneg (sub_nonneg.mpr (sam_mono h)) (sub_nonneg.mpr hr)
  have heq : (gapArc r x).start - (gapArc r w).start =
      ((sam x.start - sam w.start) * (r - 1) + (x.start - w.start)) / r := by
    simp only [gapArc]; field_simp; ring
  rw [← sub_nonneg, heq]
  exact div_nonneg (by linarith) hr0.le

theorem gapArc_stop_le_iff (hr : 1 ≤ r) (w x : Arc) :
    (gapArc r x).stop ≤ (gapArc r w).stop ↔
      (sam x.start - sam w.start) * (r - 1) ≤ w.stop - x.stop := by
  have hr0 : 0 < r := by linarith
  have heq : (gapArc r w).stop - (gapArc r x).stop =
      (w.stop - x.stop - (sam x.start - sam w.start) * (r - 1)) / r := by
    simp only [gapArc]; field_simp; ring
  rw [← sub_nonneg, heq, le_div_iff₀ hr0, zero_mul, sub_nonneg]

theorem gapArc_le (hr : 1 ≤ r) {x : Arc} (h : x.start ≤ x.stop) :
    (gapArc r x).start ≤ (gapArc r x).stop := by
  have hr0 : 0 < r := by linarith
  have := div_le_div_of_nonneg_right (sub_le_sub_right h (sam x.start)) hr0.le
  simp only [gapArc]; linarith

/-- The part of a squashed event is inside its whole just when the whole lasts long enough. -/
theorem within_gapArc_iff (hr : 1 ≤ r) {w x : Arc} (h : Within x w) :
    Within (gapArc r x) (gapArc r w) ↔
      (sam x.start - sam w.start) * (r - 1) ≤ w.stop - x.stop := by
  rw [← gapArc_stop_le_iff hr]
  exact ⟨fun hw => hw.2.2, fun hs => ⟨gapArc_start_le hr h.1, gapArc_le hr h.2.1, hs⟩⟩

/-- The part of a squashed event is inside the query, but for parts at the end of the cycle. -/
theorem within_piece_iff (hr : 1 ≤ r) (hab : Piece a b) (hb : b.start < sam b.start + 1 / r) {x : Arc}
    (hx : Within x (gapQuery r b)) :
    Within (gapArc r x) a ↔ (x.start = nextSam b.start → nextSam b.start ≤ a.stop) := by
  have hr0 : 0 < r := by linarith
  rw [gapQuery_eq hr hab.le hab.stop_le_nextSam hb] at hx
  obtain ⟨h1, h2, h3⟩ := hx
  simp only at h1 h3
  have hpos : 0 ≤ r * (b.start - sam b.start) := mul_nonneg hr0.le (sub_nonneg.mpr (sam_le _))
  have hmin1 := min_le_left (1 : Time) (r * (b.stop - sam b.start))
  have hmin2 := min_le_right (1 : Time) (r * (b.stop - sam b.start))
  by_cases hend : x.start = nextSam b.start
  · -- a part of no width at the end of the cycle stays there
    have hsam := sam_nextSam b.start
    have hstop : x.stop = x.start := le_antisymm (by rw [hend, nextSam]; linarith) h2
    have hgap : gapArc r x = ⟨nextSam b.start, nextSam b.start⟩ := by
      simp [gapArc, hsam, hstop, hend]
    rw [hgap]
    refine ⟨fun h _ => h.2.2, fun h => ⟨?_, le_rfl, h hend⟩⟩
    exact hab.start_le.trans (lt_nextSam _).le
  · refine ⟨fun _ h => absurd h hend, fun _ => ?_⟩
    have hlt : x.start < nextSam b.start := by
      refine lt_of_le_of_ne ?_ hend
      rw [nextSam]; linarith
    have hsam : sam x.start = sam b.start := by
      refine sam_eq (show sam b.start ≤ x.start by linarith) ?_
      unfold nextSam sam at hlt; linarith
    refine ⟨hab.start_le.trans ?_, gapArc_le hr h2, le_trans ?_ hab.stop_le⟩
    · have : b.start - sam b.start ≤ (x.start - sam b.start) / r := by
        rw [le_div_iff₀ hr0]; linarith
      simp only [gapArc, hsam]; linarith
    · have : (x.stop - sam b.start) / r ≤ b.stop - sam b.start := by
        rw [div_le_iff₀ hr0]; linarith
      simp only [gapArc, hsam]; linarith

/-! ## Well-formed answers -/

theorem isDigital_mapArc (F : Arc → Arc) (e : Event α) : (mapArc F e).isDigital = e.isDigital := by
  simp [isDigital, isAnalog, mapArc]

/-- One answer, squashed: it is well-formed just when its whole lasts long enough and the query reaches
it. -/
theorem placed_event_iff (hr : 1 ≤ r) (hab : Piece a b) (hb : b.start < sam b.start + 1 / r)
    {e : Event α} (hd : e.isDigital) (hq : Within e.part (gapQuery r b))
    (hw : ∀ w, e.whole = some w → Within e.part w) :
    ((mapArc (gapArc r) e).isDigital ∧ Within (mapArc (gapArc r) e).part a ∧
        ∀ w, (mapArc (gapArc r) e).whole = some w → Within (mapArc (gapArc r) e).part w) ↔
      Outlasts r e ∧ (e.part.start = nextSam b.start → nextSam b.start ≤ a.stop) := by
  rw [isDigital_mapArc, ← within_piece_iff hr hab hb hq]
  constructor
  · rintro ⟨_, hin, hwh⟩
    refine ⟨fun w he => (within_gapArc_iff hr (hw w he)).mp (hwh _ ?_), hin⟩
    simp [mapArc, he]
  · rintro ⟨hout, hin⟩
    refine ⟨hd, hin, fun w he => ?_⟩
    obtain ⟨w', he', rfl⟩ := Option.map_eq_some_iff.mp he
    exact (within_gapArc_iff hr (hw w' he')).mpr (hout w' he')

theorem placed_fastGap_iff (hp : ∀ a m, a.start ≤ a.stop → Placed a (p.query ⟨a, m⟩)) (hr : 1 ≤ r)
    (a : Arc) (m : Γ) : Placed a ((_fastGap r p).query ⟨a, m⟩) ↔ Squashable r p m a := by
  have hquery : ∀ b, Piece a b → b.start < sam b.start + 1 / r →
      (gapQuery r b).start ≤ (gapQuery r b).stop := by
    intro b hab hb
    have hr0 : 0 < r := by linarith
    have hlt : r * (b.start - sam b.start) < 1 := by
      have := mul_lt_mul_of_pos_left (sub_lt_iff_lt_add'.mpr hb) hr0
      rwa [mul_one_div_cancel hr0.ne'] at this
    rw [gapQuery_eq hr hab.le hab.stop_le_nextSam hb]
    refine add_le_add_right (le_min hlt.le ?_) _
    exact mul_le_mul_of_nonneg_left (sub_le_sub_right hab.le _) hr0.le
  rw [fastGap_query hr]
  constructor
  · intro h b hmem hb e he
    have hab := piece_of_mem hmem
    obtain ⟨hd, hq, hw⟩ := hp _ m (hquery b hab hb) e he
    refine (placed_event_iff hr hab hb hd hq hw).mp (h _ ?_)
    rw [List.mem_flatMap]
    exact ⟨b, hmem, by rw [gapPiece, if_pos hb]; exact List.mem_map.mpr ⟨e, he, rfl⟩⟩
  · intro h e he
    obtain ⟨b, hmem, he⟩ := List.mem_flatMap.mp he
    rw [gapPiece] at he
    split_ifs at he with hb
    · obtain ⟨e', he', rfl⟩ := List.mem_map.mp he
      have hab := piece_of_mem hmem
      obtain ⟨hd, hq, hw⟩ := hp _ m (hquery b hab hb) e' he'
      exact (placed_event_iff hr hab hb hd hq hw).mpr (h b hmem hb e' he')
    · cases he

theorem placed_map_iff {f : Time → Time} (hf : StrictMono f) {es : List (Event α)} :
    Placed (a.map f) (es.map (mapArc (ArcF.map f))) ↔ Placed a es := by
  have hwithin : ∀ x y : Arc, Within (x.map f) (y.map f) ↔ Within x y := by
    intro x y
    simp only [Within, ArcF.map, hf.le_iff_le]
  constructor
  · intro h e he
    obtain ⟨hd, hin, hw⟩ := h _ (List.mem_map.mpr ⟨e, he, rfl⟩)
    refine ⟨by rwa [isDigital_mapArc] at hd, (hwithin _ _).mp hin, fun w hwe => ?_⟩
    exact (hwithin _ _).mp (hw (w.map f) (by simp [mapArc, hwe]))
  · intro h e he
    obtain ⟨e', he', rfl⟩ := List.mem_map.mp he
    obtain ⟨hd, hin, hw⟩ := h e' he'
    refine ⟨by rwa [isDigital_mapArc], (hwithin _ _).mpr hin, fun w hwe => ?_⟩
    obtain ⟨w', hw', rfl⟩ := Option.map_eq_some_iff.mp hwe
    exact (hwithin _ _).mpr (hw w' hw')

/-- `compressArc` on a timespan of the cycle is `_fastGap`, shifted to its start. -/
theorem compressArc_eq {s e : Time} (hs : 0 ≤ s) (hse : s < e) (he : e ≤ 1) (p : Pattern Γ α) :
    compressArc ⟨s, e⟩ p = rotR s (_fastGap (1 / (e - s)) p) := by
  have h0 : ¬ s > e := not_lt.mpr hse.le
  have h1 : ¬ (s > 1 ∨ e > 1) := by rw [not_or]; exact ⟨by linarith, by linarith⟩
  have h2 : ¬ (s < 0 ∨ e < 0) := by rw [not_or]; exact ⟨by linarith, by linarith⟩
  simp only [compressArc, if_neg h0, if_neg h1, if_neg h2]

theorem one_le_rate {s e : Time} (hs : 0 ≤ s) (hse : s < e) (he : e ≤ 1) : 1 ≤ 1 / (e - s) := by
  rw [le_div_iff₀ (by linarith)]; linarith

/-- **When compressing keeps events well-formed**: exactly when the answers that the pattern gives can be
squashed arc by arc. -/
theorem compress_placed_iff (p : Pattern Γ α)
    (hp : ∀ a m, a.start ≤ a.stop → Placed a (p.query ⟨a, m⟩)) :
    (∀ (r : Time) (a : Arc) (m : Γ), 1 ≤ r →
      (Placed a ((_fastGap r p).query ⟨a, m⟩) ↔ Squashable r p m a)) ∧
    (∀ (s e : Time) (a : Arc) (m : Γ), 0 ≤ s → s < e → e ≤ 1 →
      (Placed a ((compressArc ⟨s, e⟩ p).query ⟨a, m⟩) ↔
        Squashable (1 / (e - s)) p m (a.map (· - s)))) := by
  refine ⟨fun r a m hr => placed_fastGap_iff hp hr a m, fun s e a m hs hse he => ?_⟩
  have hshift : StrictMono fun x : Time => x - -s := fun x y hxy => sub_lt_sub_right hxy _
  have ha : (a.map (· - s)).map (fun x => x - -s) = a := map_map_arc (by simp) a
  have hquery : (compressArc ⟨s, e⟩ p).query ⟨a, m⟩ =
      ((_fastGap (1 / (e - s)) p).query ⟨a.map (· - s), m⟩).map (mapArc (ArcF.map fun x => x - -s)) := by
    rw [compressArc_eq hs hse he]
    simp only [rotR, rotL, withResultTime, withResultArc, withQueryTime, withQueryArc, sub_eq_add_neg]
  rw [hquery, ← placed_fastGap_iff hp (one_le_rate hs hse he),
    ← placed_map_iff (a := a.map (· - s)) hshift, ha]

theorem compress_placed_halves :
    Placed ⟨0, 1⟩ ((_fastGap 2 (fastFromList [0, 1] : Pattern Unit ℕ)).query ⟨⟨0, 1⟩, ()⟩) ∧
    Placed ⟨0, 1⟩ ((compressArc ⟨1 / 4, 3 / 4⟩ (fastFromList [0, 1] : Pattern Unit ℕ)).query ⟨⟨0, 1⟩, ()⟩) := by
  obtain ⟨hgap, hcompress⟩ := compress_placed_iff (fastFromList [0, 1] : Pattern Unit ℕ) fun a m ha e he =>
    ⟨(regular_fastFromList _).digital a m ha e he, (regular_fastFromList _).inQuery a m ha e he,
      (regular_fastFromList _).inWhole a m ha e he⟩
  refine ⟨(hgap 2 ⟨0, 1⟩ () (by norm_num)).mpr ?_,
    (hcompress (1 / 4) (3 / 4) ⟨0, 1⟩ () (by norm_num) (by norm_num) (by norm_num)).mpr ?_⟩
  · unfold Squashable Outlasts
    with_unfolding_all decide
  · unfold Squashable Outlasts
    with_unfolding_all decide

/-- The second half of an event from `1/2` to `3/2`: squashed to the first half of the cycle, the part
starts after its whole has ended. -/
theorem fastGap_not_placed :
    (∀ a m, a.start ≤ a.stop → Placed a (offbeat.query ⟨a, m⟩)) ∧
    (_fastGap 2 offbeat).query ⟨⟨1, 2⟩, ()⟩ =
      [⟨⟨[]⟩, some ⟨1 / 4, 3 / 4⟩, ⟨1, 5 / 4⟩, 0⟩, ⟨⟨[]⟩, some ⟨5 / 4, 7 / 4⟩, ⟨5 / 4, 3 / 2⟩, 0⟩] ∧
    ¬ Placed ⟨1, 2⟩ ((_fastGap 2 offbeat).query ⟨⟨1, 2⟩, ()⟩) ∧
    ¬ Placed ⟨1, 2⟩ ((compressArc ⟨0, 1 / 2⟩ offbeat).query ⟨⟨1, 2⟩, ()⟩) := by
  have hgap : (_fastGap 2 offbeat).query ⟨⟨1, 2⟩, ()⟩ =
      [⟨⟨[]⟩, some ⟨1 / 4, 3 / 4⟩, ⟨1, 5 / 4⟩, 0⟩, ⟨⟨[]⟩, some ⟨5 / 4, 7 / 4⟩, ⟨5 / 4, 3 / 2⟩, 0⟩] := by
    with_unfolding_all decide
  have hcompress : (compressArc ⟨0, 1 / 2⟩ offbeat).query ⟨⟨1, 2⟩, ()⟩ =
      [⟨⟨[]⟩, some ⟨1 / 4, 3 / 4⟩, ⟨1, 5 / 4⟩, 0⟩, ⟨⟨[]⟩, some ⟨5 / 4, 7 / 4⟩, ⟨5 / 4, 3 / 2⟩, 0⟩] := by
    with_unfolding_all decide
  have hbad : ¬ Placed ⟨1, 2⟩ [(⟨⟨[]⟩, some ⟨1 / 4, 3 / 4⟩, ⟨1, 5 / 4⟩, 0⟩ : Event ℕ),
      ⟨⟨[]⟩, some ⟨5 / 4, 7 / 4⟩, ⟨5 / 4, 3 / 2⟩, 0⟩] := by
    intro h
    have := ((h _ (List.mem_cons_self ..)).2.2 _ rfl).2.2
    norm_num at this
  refine ⟨fun a m ha e he => ⟨regular_offbeat.digital a m ha e he, regular_offbeat.inQuery a m ha e he,
    regular_offbeat.inWhole a m ha e he⟩, hgap, ?_, ?_⟩
  · rw [hgap]; exact hbad
  · rw [hcompress]; exact hbad

/-! ## What `_fastGap` and `compressArc` play -/

theorem lt_gap_iff (hr : 1 ≤ r) (c x : Time) : x < c + 1 / r ↔ r * (x - c) < 1 := by
  have hr0 : 0 < r := by linarith
  rw [← sub_lt_iff_lt_add', lt_div_iff₀ hr0, mul_comm]

/-- The stretched piece holds the stretched moment, unless the moment is in the gap. -/
theorem isIn_gapQuery_iff (hr : 1 ≤ r) (hb : b.start ≤ b.stop) (hn : b.stop ≤ nextSam b.start)
    (hbr : b.start < sam b.start + 1 / r) :
    isIn (gapQuery r b) (sam b.start + r * (t - sam b.start)) ↔
      isIn b t ∧ t < sam b.start + 1 / r := by
  have hr0 : 0 < r := by linarith
  rw [gapQuery_eq hr hb hn hbr, isIn, isIn, lt_gap_iff hr, add_le_add_iff_left, add_lt_add_iff_left,
    lt_min_iff, mul_le_mul_iff_of_pos_left hr0, mul_lt_mul_iff_of_pos_left hr0, sub_le_sub_iff_right,
    sub_lt_sub_iff_right]
  tauto

theorem gapArc_eq_mapCycle (r : Time) : gapArc r = mapCycle fun x => (x - 0) / r := by
  funext x
  simp only [gapArc, mapCycle, sub_zero]

theorem activeIn_gapPiece (hl : Local p) (hr : 1 ≤ r) (hb : b.start < b.stop)
    (hn : b.stop ≤ nextSam b.start) :
    activeIn (gapPiece r p m b) t =
      if isIn b t ∧ t < sam b.start + 1 / r then
        (act p m (gapQuery r b) (sam b.start + r * (t - sam b.start))).map (onWhole (gapArc r))
      else 0 := by
  have hr0 : 0 < r := by linarith
  have hiff := isIn_gapQuery_iff (t := t) hr hb.le hn
  set c := sam b.start with hc
  have hcb : 0 ≤ r * (b.start - c) := mul_nonneg hr0.le (sub_nonneg.mpr (sam_le _))
  rw [gapPiece]
  by_cases hbr : b.start < c + 1 / r
  · have hq := gapQuery_eq hr hb.le hn hbr
    rw [← hc] at hq
    have hmin1 := min_le_left (1 : Time) (r * (b.stop - c))
    have hpos : (gapQuery r b).start < (gapQuery r b).stop := by
      rw [hq]
      refine add_lt_add_right (lt_min ((lt_gap_iff hr _ _).mp hbr) ?_) _
      exact mul_lt_mul_of_pos_left (sub_lt_sub_right hb c) hr0
    have hmoved := activeIn_mapCycle (m := m) (t := t) hl (s := 0) hr0 (c := ⌊b.start⌋) hpos
      (by rw [hq]; show c ≤ _; linarith) (by rw [hq]; show _ ≤ c + 1; linarith)
    have htime : (⌊b.start⌋ : Time) + 0 + (t - (⌊b.start⌋ : Time)) * r = c + r * (t - c) := by
      rw [hc, sam]; ring
    rw [if_pos hbr, gapArc_eq_mapCycle, hmoved, htime]
    split_ifs with hin
    · rfl
    · rw [hl _ m _ hpos (mt (hiff hbr).mp hin), Multiset.map_zero]
  · rw [if_neg hbr, if_neg fun h => hbr (h.1.1.trans_lt h.2)]
    rfl

/-- Before the gap the pattern is heard `r` times as fast, through some query. -/
theorem act_fastGap (hl : Local p) (hr : 1 ≤ r) (hat : isIn a t) :
    ∃ q, (t < sam t + 1 / r → isIn q (sam t + r * (t - sam t))) ∧
      act (_fastGap r p) m a t =
        if t < sam t + 1 / r then
          (act p m q (sam t + r * (t - sam t))).map (onWhole (gapArc r)) else 0 := by
  have hpiece := isIn_piece hat
  have hsam := sam_piece_start hat
  have hn := piece_stop_le hat
  have hstart : t < sam t + 1 / r → (sect a (timeToCycleArc t)).start < sam t + 1 / r := fun h =>
    hpiece.1.trans_lt h
  refine ⟨gapQuery r (sect a (timeToCycleArc t)), fun ht => ?_, ?_⟩
  · have h := (isIn_gapQuery_iff (t := t) hr (isIn_pos hpiece).le hn
      (by rw [hsam]; exact hstart ht)).mpr ⟨hpiece, by rw [hsam]; exact ht⟩
    rwa [hsam] at h
  · rw [act, fastGap_query hr, act_cycles (g := fun st => gapPiece r p st.controls st.arc) hat
        fun b hb hn hbt => by rw [activeIn_gapPiece hl hr hb hn, if_neg fun h => hbt h.1],
      activeIn_gapPiece hl hr (isIn_pos hpiece) hn, hsam]
    exact if_congr ⟨fun h => h.2, fun h => ⟨hpiece, h⟩⟩ rfl rfl

/-- A compressed pattern plays in its timespan of the cycle only. -/
theorem act_compressArc (hl : Local p) {s e : Time} (h0 : 0 ≤ s) (hse : s < e) (he : e ≤ 1) {c : ℤ}
    {x : Time} (hx0 : 0 ≤ x) (hx1 : x < 1) (hat : isIn a (c + x)) :
    ∃ q, (s ≤ x ∧ x < e → isIn q (c + (x - s) / (e - s))) ∧
      act (compressArc ⟨s, e⟩ p) m a (c + x) =
        if s ≤ x ∧ x < e then
          (act p m q (c + (x - s) / (e - s))).map
            (onWhole fun w => (gapArc (1 / (e - s)) w).map (· + s)) else 0 := by
  have hd : 0 < e - s := sub_pos.mpr hse
  have hshift : isIn (a.map (· + -s)) (c + x + -s) := isIn_map_add hat
  obtain ⟨q, hq, hact⟩ := act_fastGap (m := m) hl (one_le_rate h0 hse he) hshift
  rw [one_div_one_div] at hq hact
  refine ⟨q, ?_, ?_⟩
  · rintro ⟨hsx, hxe⟩
    have hsam : sam (c + x + -s) = c := sam_eq (by linarith) (by linarith)
    rw [hsam] at hq
    have htime : (c : Time) + 1 / (e - s) * (c + x + -s - c) = c + (x - s) / (e - s) := by
      field_simp; ring
    rw [← htime]
    exact hq (by linarith)
  · rw [compressArc_eq h0 hse he, rotR, act_rotL, hact]
    rcases le_or_gt s x with hsx | hxs
    · have hsam : sam (c + x + -s) = c := sam_eq (by linarith) (by linarith)
      rw [hsam]
      have hiff : (c : Time) + x + -s < c + (e - s) ↔ s ≤ x ∧ x < e :=
        ⟨fun h => ⟨hsx, by linarith⟩, fun h => by linarith [h.2]⟩
      rw [if_congr hiff rfl rfl]
      split_ifs
      · have htime : (c : Time) + 1 / (e - s) * (c + x + -s - c) = c + (x - s) / (e - s) := by
          field_simp; ring
        rw [htime, Multiset.map_map]
        refine Multiset.map_congr rfl fun y _ => ?_
        obtain ⟨_ | w, v⟩ := y
        · rfl
        · simp [onWhole, ArcF.map]
      · rfl
    · -- before the timespan: the last part of the cycle before, where there is a gap
      have hsam : sam (c + x + -s) = (c : Time) - 1 := by
        have := sam_eq (c := c - 1) (t := c + x + -s) (by push_cast; linarith)
          (by push_cast; linarith)
        rw [this]; push_cast; ring
      rw [hsam, if_neg (by linarith), if_neg fun h => absurd h.1 (not_le.mpr hxs)]
      rfl

/-- A local and steady pattern, compressed into a timespan of each cycle. -/
theorem act_compressArc_steady (hl : Local p) (hs : Steady p) {s e : Time} (h0 : 0 ≤ s) (hse : s < e)
    (he : e ≤ 1) (hat : isIn a t) :
    act (compressArc ⟨s, e⟩ p) m a t =
      if s ≤ cyclePos t ∧ cyclePos t < e then
        (behaviour p m (sam t + (cyclePos t - s) / (e - s))).map
          (onWhole fun w => (gapArc (1 / (e - s)) w).map (· + s)) else 0 := by
  have ht : ((⌊t⌋ : ℤ) : Time) + cyclePos t = t := sam_add_cyclePos t
  obtain ⟨q, hq, hact⟩ := act_compressArc (m := m) (a := a) (c := ⌊t⌋) hl h0 hse he (cyclePos_nonneg t)
    (cyclePos_lt_one t) (by rwa [ht])
  rw [ht] at hact
  rw [hact]
  split_ifs with hin
  · rw [hs.act_eq m (hq hin)]
    rfl
  · rfl

end Tidal
