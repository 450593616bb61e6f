import Tidal.Proofs.RandomProofs
import Tidal.Proofs.SubstructProofs

/-!
# Proofs: stripes

`randStruct` cuts every cycle into stripes of random durations, and `_stripe` fills each stripe that a
query meets. Consecutive queries meet a stripe once each, so that a cut inside of a stripe has it filled
twice.
-/

namespace Tidal

open EventF Pattern

variable {Γ α : Type} [EmptyCollection Γ] {n : ℤ} {m : Γ} {a b w : Arc}

/-! ## The stripes of a cycle -/

/-- The arcs drawn for cycle `c`. -/
def drawn (Γ : Type) [EmptyCollection Γ] (n c : ℤ) : List Arc :=
  ((queryArc (randArcs n : Pattern Γ (List Arc)) ⟨sam (c : Time), nextSam (c : Time)⟩).head?.map
    EventF.value).getD []

/-- The stripes of cycle `c`, with their numbers. -/
def stripesOf (Γ : Type) [EmptyCollection Γ] (n c : ℤ) : List (ℤ × Arc) :=
  (enumerate (drawn Γ n c)).map fun x => (x.1, x.2.map (· + (c : Time)))

/-- A stripe of some cycle. -/
def IsStripe (Γ : Type) [EmptyCollection Γ] (n : ℤ) (w : Arc) : Prop := ∃ c i, (i, w) ∈ stripesOf Γ n c

omit [EmptyCollection Γ] in
theorem signal_randArcs (hn : 1 ≤ n) : Signal (CutInto n 0 1) (randArcs n : Pattern Γ (List Arc)) := by
  have hdraw : ∀ x : ℤ, Signal (· ∈ [1, 2, 3])
      (patternify' (strict rotL) (Pattern.pure ((x : ℚ) / n)) (choose [1, 2, 3]) : Pattern Γ ℤ) := fun x =>
    have h : Signal (· ∈ [1, 2, 3]) (rotL ((x : ℚ) / n) (choose [1, 2, 3]) : Pattern Γ ℤ) :=
      (signal_choose (List.cons_ne_nil _ _)).rotL _
    ⟨h.analog, h.heard⟩
  have hne : (List.range n.toNat).map Int.ofNat ≠ [] := by
    simp only [ne_eq, List.map_eq_nil_iff, List.range_eq_nil]
    omega
  refine ((signal_mapM hdraw hne).fmap fun rs hrs => ?_).unwrap
  obtain ⟨hlen, hall⟩ := hrs
  rw [List.length_map, List.length_range] at hlen
  refine heard_pure ?_
  have hrs : rs ≠ [] := fun h => by rw [h, List.length_nil] at hlen; omega
  have hcut := cutInto_arcsOf hrs fun r hr => by
    have := hall r hr
    simp only [List.mem_cons, List.not_mem_nil, or_false] at this
    omega
  rwa [hlen, Int.toNat_of_nonneg (by omega)] at hcut

theorem drawn_spec (hn : 1 ≤ n) (c : ℤ) : CutInto n 0 1 (drawn Γ n c) := by
  have hpos : sam (c : Time) < nextSam (c : Time) := by unfold nextSam; linarith
  obtain ⟨hne, hall⟩ := (signal_randArcs hn).heard ⟨sam (c : Time), nextSam (c : Time)⟩ (∅ : Γ) hpos
  obtain ⟨e, es, hes⟩ := List.exists_cons_of_ne_nil hne
  have hdrawn : drawn Γ n c = e.value := by
    rw [drawn, queryArc, hes]
    rfl
  rw [hdrawn]
  exact (hall e (by rw [hes]; exact List.mem_cons_self ..)).2.2

theorem length_enumerate {β : Type} (xs : List β) : (enumerate xs).length = xs.length := by
  simp [enumerate]

theorem length_stripesOf (hn : 1 ≤ n) (c : ℤ) : (stripesOf Γ n c).length = n.toNat := by
  have hcount := (drawn_spec (Γ := Γ) hn c).count
  rw [stripesOf, List.length_map, length_enumerate]
  omega

theorem mem_stripesOf (hn : 1 ≤ n) {c : ℤ} {x : ℤ × Arc} (hx : x ∈ stripesOf Γ n c) :
    (c : Time) ≤ x.2.start ∧ x.2.start < x.2.stop ∧ x.2.stop ≤ c + 1 := by
  obtain ⟨y, hy, rfl⟩ := List.mem_map.mp hx
  have hcut := drawn_spec (Γ := Γ) hn c
  have hmem := (List.of_mem_zip hy).2
  have h2 := hcut.pos y.2 hmem
  obtain ⟨h1, h3⟩ := hcut.bounds.2 y.2 hmem
  simp only [ArcF.map]
  exact ⟨by linarith, by linarith, by linarith⟩

theorem nodup_stripesOf (c : ℤ) : (stripesOf Γ n c).Nodup := by
  refine List.Nodup.of_map Prod.fst ?_
  have hfst : (stripesOf Γ n c).map Prod.fst = (List.range (drawn Γ n c).length).map Int.ofNat := by
    rw [stripesOf, List.map_map, enumerate, Function.comp_def, List.map_fst_zip]
    simp
  rw [hfst]
  exact List.nodup_range.map Int.ofNat_injective

theorem stripe_cycle (hn : 1 ≤ n) {c : ℤ} {x : ℤ × Arc} (hx : x ∈ stripesOf Γ n c) {t : Time}
    (ht : isIn x.2 t) : ⌊t⌋ = c := by
  obtain ⟨h1, _, h3⟩ := mem_stripesOf hn hx
  exact Int.floor_eq_iff.mpr ⟨h1.trans ht.1, ht.2.trans_le h3⟩

theorem playable_stripe (hn : 1 ≤ n) {c : ℤ} {x : ℤ × Arc} (hx : x ∈ stripesOf Γ n c) :
    Playable x.2 := by
  obtain ⟨h1, h2, h3⟩ := mem_stripesOf hn hx
  refine ⟨h2, ?_⟩
  rw [nextSam, sam, stripe_cycle hn hx ⟨le_rfl, h2⟩]
  linarith

/-! ## The stripes of a query -/

/-- The stripes that a query meets. -/
def stripesIn (Γ : Type) [EmptyCollection Γ] (n : ℤ) (a : Arc) : List (ℤ × Arc) :=
  (arcCyclesZW a).flatMap fun b => (stripesOf Γ n ⌊b.start⌋).filter fun x => (subArc b x.2).isSome

theorem randStruct_query (n : ℤ) (m : Γ) (a : Arc) :
    (randStruct n).query ⟨a, m⟩ = (arcCyclesZW a).flatMap fun b =>
      (stripesOf Γ n ⌊b.start⌋).filterMap fun x =>
        (subArc b x.2).map fun part => ⟨⟨[]⟩, some x.2, part, x.1⟩ := by
  refine List.flatMap_congr fun b _ => ?_
  have hsam : sam ((⌊b.start⌋ : ℤ) : Time) = sam b.start := sam_sam b.start
  rw [stripesOf, List.filterMap_map, drawn, nextSam, hsam]
  rfl

/-- The pieces of a query lie in cycles of their own. -/
theorem pieces_pairwise (a : Arc) : (arcCyclesZW a).Pairwise fun b b' => ⌊b.start⌋ < ⌊b'.start⌋ := by
  unfold arcCyclesZW
  split_ifs
  · exact List.pairwise_singleton _ _
  · rcases lt_or_ge a.start a.stop with ha | ha
    · induction ha using cycle_induction with
      | one a ha hn =>
        rw [arcCycles_one ha hn]
        exact List.pairwise_singleton _ _
      | next a h ih =>
        rw [arcCycles_next h]
        refine List.pairwise_cons.mpr ⟨fun b hb => ?_, ih h.ne⟩
        have hstart := Int.floor_mono (piece_of_mem_arcCycles hb).start_le
        rw [floor_nextSam] at hstart
        show ⌊a.start⌋ < ⌊b.start⌋
        omega
    · rw [arcCycles_of_ge ha]
      exact List.Pairwise.nil

theorem nodup_stripesIn (hn : 1 ≤ n) (a : Arc) : (stripesIn Γ n a).Nodup := by
  refine List.nodup_flatMap.mpr ⟨fun b _ => (nodup_stripesOf _).filter _, ?_⟩
  refine (pieces_pairwise a).imp fun {b b'} hlt x hx hx' => ?_
  have hb := (List.mem_filter.mp hx).1
  have hb' := (List.mem_filter.mp hx').1
  have hx0 : isIn x.2 x.2.start := ⟨le_rfl, (mem_stripesOf hn hb).2.1⟩
  exact absurd ((stripe_cycle hn hb hx0).symm.trans (stripe_cycle hn hb' hx0)) hlt.ne

theorem mem_stripesIn (hn : 1 ≤ n) {x : ℤ × Arc} :
    x ∈ stripesIn Γ n a ↔ (∃ c, x ∈ stripesOf Γ n c) ∧ (subArc a x.2).isSome := by
  have hmem : x ∈ stripesIn Γ n a ↔
      ∃ b ∈ arcCyclesZW a, x ∈ stripesOf Γ n ⌊b.start⌋ ∧ (subArc b x.2).isSome := by
    simp only [stripesIn, List.mem_flatMap, List.mem_filter]
  rw [hmem]
  rcases lt_trichotomy a.start a.stop with ha | ha | ha
  · constructor
    · rintro ⟨b, hb, hx, hsome⟩
      obtain ⟨d, hd⟩ := Option.isSome_iff_exists.mp hsome
      have hab := piece_of_mem hb
      have hpos := subArc_pos (hab.pos ha) (mem_stripesOf hn hx).2.1 hd
      obtain ⟨hdb, hdx⟩ := (isIn_of_subArc hd).mp ⟨le_rfl, hpos⟩
      have hda : isIn a d.start := ⟨hab.start_le.trans hdb.1, hdb.2.trans_le hab.stop_le⟩
      exact ⟨⟨_, hx⟩, by rw [subArc_of_isIn hda hdx]; rfl⟩
    · rintro ⟨⟨c, hx⟩, hsome⟩
      obtain ⟨d, hd⟩ := Option.isSome_iff_exists.mp hsome
      have hpos := subArc_pos ha (mem_stripesOf hn hx).2.1 hd
      obtain ⟨hda, hdx⟩ := (isIn_of_subArc hd).mp ⟨le_rfl, hpos⟩
      obtain ⟨l₁, l₂, heq, _⟩ := arcCyclesZW_split hda
      refine ⟨sect a (timeToCycleArc d.start), by simp [heq], ?_, ?_⟩
      · rwa [floor_piece_start hda, stripe_cycle hn hx hdx]
      · rw [subArc_of_isIn (isIn_piece hda) hdx]
        rfl
  · -- a query of no width is not cut
    have hone : arcCyclesZW a = [a] := if_pos ha
    simp only [hone, List.mem_singleton, exists_eq_left]
    refine ⟨fun h => ⟨⟨_, h.1⟩, h.2⟩, fun h => ⟨?_, h.2⟩⟩
    obtain ⟨⟨c, hx⟩, hsome⟩ := h
    have hpoint : a = ⟨a.start, a.start⟩ := by
      cases a with
      | mk s e => rw [show s = e from ha]
    rw [hpoint, subArc_point_pos (mem_stripesOf hn hx).2.1] at hsome
    have hin : isIn x.2 a.start := by
      by_contra hin
      rw [if_neg hin] at hsome
      cases hsome
    rwa [stripe_cycle hn hx hin]
  · have hnil : arcCyclesZW a = [] := by
      rw [arcCyclesZW, if_neg ha.ne', arcCycles_of_ge ha.le]
    constructor
    · rintro ⟨b, hb, _⟩
      rw [hnil] at hb
      cases hb
    · rintro ⟨_, hsome⟩
      obtain ⟨d, hd⟩ := Option.isSome_iff_exists.mp hsome
      obtain ⟨hds, hle⟩ := subArc_some hd
      rw [hds] at hle
      exact absurd ((le_max_left _ _).trans (hle.trans (min_le_left _ _))) (not_le.mpr ha)

/-- How often a query meets a stripe: once, or not at all. -/
theorem count_stripesIn (hn : 1 ≤ n) {x : ℤ × Arc} {c : ℤ} (hx : x ∈ stripesOf Γ n c)
    (ha : a.start < a.stop) :
    (stripesIn Γ n a).count x = if x.2.start < a.stop ∧ a.start < x.2.stop then 1 else 0 := by
  have hwidth := (mem_stripesOf hn hx).2.1
  have hmeets : (subArc a x.2).isSome ↔ x.2.start < a.stop ∧ a.start < x.2.stop := by
    constructor
    · intro hsome
      obtain ⟨d, hd⟩ := Option.isSome_iff_exists.mp hsome
      obtain ⟨hda, hdx⟩ := (isIn_of_subArc hd).mp ⟨le_rfl, subArc_pos ha hwidth hd⟩
      exact ⟨hdx.1.trans_lt hda.2, hda.1.trans_lt hdx.2⟩
    · rintro ⟨h1, h2⟩
      have hta : isIn a (max a.start x.2.start) := ⟨le_max_left _ _, max_lt ha h1⟩
      have htx : isIn x.2 (max a.start x.2.start) := ⟨le_max_right _ _, max_lt h2 hwidth⟩
      rw [subArc_of_isIn hta htx]
      rfl
  have hmem : x ∈ stripesIn Γ n a ↔ x.2.start < a.stop ∧ a.start < x.2.stop := by
    rw [mem_stripesIn hn, hmeets, and_iff_right ⟨c, hx⟩]
  rw [List.Nodup.count (nodup_stripesIn hn a), if_congr hmem rfl rfl]

/-- The points between the first and the last. -/
def innerCuts (cuts : List Time) : List Time := cuts.tail.dropLast

/-- **How often the queries of a cut meet a stripe**: as often as one query does, and once more for every
cut inside of the stripe. -/
theorem count_cut (hn : 1 ≤ n) {x : ℤ × Arc} {c : ℤ} (hx : x ∈ stripesOf Γ n c) (s t : Time)
    (cuts : List Time) (hcuts : (s :: t :: cuts).IsChain (· < ·)) :
    ((cutArcs (s :: t :: cuts)).flatMap (stripesIn Γ n)).count x =
      (stripesIn Γ n ⟨s, (t :: cuts).getLast (List.cons_ne_nil _ _)⟩).count x +
        (innerCuts (s :: t :: cuts)).countP fun y => x.2.start < y ∧ y < x.2.stop := by
  induction cuts generalizing s t with
  | nil => simp [cutArcs, innerCuts]
  | cons u cuts ih =>
    obtain ⟨hst, hrest⟩ := List.isChain_cons_cons.mp hcuts
    have hlast : t < (u :: cuts).getLast (List.cons_ne_nil _ _) :=
      List.rel_of_pairwise_cons (List.isChain_iff_pairwise.mp hrest) (List.getLast_mem _)
    have hpieces : cutArcs (s :: t :: u :: cuts) = ⟨s, t⟩ :: cutArcs (t :: u :: cuts) := rfl
    have hinner : innerCuts (s :: t :: u :: cuts) = t :: innerCuts (t :: u :: cuts) := rfl
    rw [hpieces, hinner, List.flatMap_cons, List.count_append, ih t u hrest, List.countP_cons,
      List.getLast_cons (List.cons_ne_nil u cuts), count_stripesIn hn hx (a := ⟨s, t⟩) hst,
      count_stripesIn hn hx (a := ⟨t, _⟩) hlast, count_stripesIn hn hx (a := ⟨s, _⟩) (hst.trans hlast)]
    have hwidth := (mem_stripesOf hn hx).2.1
    simp only [decide_eq_true_eq]
    rcases lt_or_ge x.2.start t with h1 | h1
    · -- the stripe starts before `t`
      have h2 : x.2.start < (u :: cuts).getLast (List.cons_ne_nil _ _) := h1.trans hlast
      simp only [h1, h2, true_and]
      split_ifs <;> omega
    · have h2 : t < x.2.stop := h1.trans_lt hwidth
      simp only [not_lt.mpr h1, h2, hst.trans h2, and_true, if_false]
      split_ifs <;> omega

/-! ## Filling the stripes -/

/-- A query of one cycle finds all its stripes, whole. -/
theorem randStruct_cycle (hn : 1 ≤ n) (c : ℤ) (m : Γ) :
    (randStruct n).query ⟨⟨c, c + 1⟩, m⟩ =
      (stripesOf Γ n c).map fun x => ⟨⟨[]⟩, some x.2, x.2, x.1⟩ := by
  have hone : arcCyclesZW ⟨c, c + 1⟩ = [⟨c, c + 1⟩] := by
    refine arcCyclesZW_of_le (lt_add_one (c : Time)) ?_
    rw [nextSam, sam_intCast, add_comm]
  have hall : ∀ x ∈ stripesOf Γ n c, subArc ⟨c, c + 1⟩ x.2 = some x.2 := by
    intro x hx
    obtain ⟨h1, h2, h3⟩ := mem_stripesOf hn hx
    exact subArc_of_within ⟨h1, h2.le, h3⟩ h2
  rw [randStruct_query, hone, List.flatMap_cons, List.flatMap_nil, List.append_nil, Int.floor_intCast,
    ← List.filterMap_eq_map]
  exact List.filterMap_congr fun x hx => by rw [hall x hx]; rfl

theorem length_randStruct (hn : 1 ≤ n) (t : Time) :
    (queryArc (randStruct n : Pattern Γ ℤ) ⟨sam t, nextSam t⟩).length = n.toNat := by
  rw [queryArc, nextSam, add_comm, sam, randStruct_cycle hn, List.length_map, length_stripesOf hn]

/-- The pattern in a stripe: that of its number. -/
def striped (n : ℤ) (p : Pattern Γ α) (i : ℤ) : Pattern Γ α :=
  inside (Pattern.pure (1 / (n : ℚ))) (rotR i) p

theorem flatMap_filterMap {ι κ δ : Type} {g : ι → Option κ} {F : κ → List δ} {F' : ι → List δ} {l : List ι}
    (h : ∀ x ∈ l, ∀ y, g x = some y → F y = F' x) :
    (l.filterMap g).flatMap F = (l.filter fun x => (g x).isSome).flatMap F' := by
  induction l with
  | nil => rfl
  | cons x l ih =>
    have hl := ih fun y hy => h y (List.mem_cons_of_mem _ hy)
    cases hx : g x with
    | none => rw [List.filterMap_cons_none hx, List.filter_cons_of_neg (by simp [hx]), hl]
    | some y =>
      rw [List.filterMap_cons_some hx, List.filter_cons_of_pos (by simp [hx]), List.flatMap_cons,
        List.flatMap_cons, hl, h x (List.mem_cons_self ..) y hx]

/-- Every stripe that the query meets is filled. -/
theorem stripe_query (hn : 1 ≤ n) (p : Pattern Γ α) (m : Γ) (a : Arc) :
    (_stripe n p).query ⟨a, m⟩ = (stripesIn Γ n a).flatMap fun x => filling (striped n p x.1) x.2 := by
  have hlen : ((queryArc (randStruct n : Pattern Γ ℤ) ⟨sam a.start, nextSam a.start⟩).length : ℚ) = n := by
    rw [length_randStruct hn]
    have h : ((n.toNat : ℤ) : ℚ) = n := by rw [Int.toNat_of_nonneg (by omega)]
    exact_mod_cast h
  show ((randStruct n).query ⟨a, m⟩).flatMap (substructEvent (randStruct n) p ⟨a, m⟩) = _
  rw [randStruct_query, List.flatMap_assoc, stripesIn, List.flatMap_assoc]
  refine List.flatMap_congr fun b _ => ?_
  have hevent : ∀ x ∈ stripesOf Γ n ⌊b.start⌋, ∀ e : Event ℤ,
      ((subArc b x.2).map fun part => (⟨⟨[]⟩, some x.2, part, x.1⟩ : Event ℤ)) = some e →
        substructEvent (randStruct n) p ⟨a, m⟩ e = filling (striped n p x.1) x.2 := by
    intro x _ e he
    obtain ⟨part, _, rfl⟩ := Option.map_eq_some_iff.mp he
    simp only [substructEvent, hlen]
    refine (List.map_congr_left fun e' _ => ?_).trans (List.map_id _)
    simp [combineContexts]
  rw [flatMap_filterMap hevent]
  simp only [Option.isSome_map]

omit [EmptyCollection Γ] in
theorem contained_innerJoin (pp : Pattern Γ (Pattern Γ α)) : Contained (innerJoin pp) :=
  fun a m ha e he => by
    obtain ⟨oe, _, he⟩ := List.mem_flatMap.mp he
    obtain ⟨ie, _, hie⟩ := List.mem_filterMap.mp he
    unfold mungeInner at hie
    obtain ⟨q, _, hie⟩ := Option.bind_eq_some_iff.mp hie
    obtain ⟨q', hq', hie⟩ := Option.bind_eq_some_iff.mp hie
    obtain rfl := Option.some.inj hie
    obtain ⟨hsect, hle⟩ := subArc_some hq'
    simp only
    have hstop : q'.stop ≤ a.stop := by rw [hsect]; exact min_le_right _ _
    refine ⟨⟨by rw [hsect]; exact le_max_right _ _, hle, hstop⟩, lt_of_le_of_ne (hle.trans hstop) ?_⟩
    intro heq
    -- an answer of no width at the end of the query is dropped
    have hend : q'.start = q'.stop := le_antisymm hle (heq ▸ hstop)
    simp only [subArc] at hq'
    split_ifs at hq' with h1 h2 h3
    exact h2 ⟨by rw [← hsect]; exact hend, by rw [← hsect]; exact heq, ha⟩

omit [EmptyCollection Γ] in
theorem striped_pure_query (hn : 1 ≤ n) (v : α) (i c : ℤ) :
    (striped n (Pattern.pure v) i : Pattern Γ α).query ⟨⟨c, c + 1⟩, m⟩ =
      [⟨⟨[]⟩, some ⟨c, c + 1⟩, ⟨c, c + 1⟩, v⟩] := by
  have hn0 : (0 : ℚ) < n := by exact_mod_cast (by omega : 0 < n)
  have hrate : (0 : ℚ) < 1 / n := one_div_pos.mpr hn0
  have hinside : _inside (1 / (n : ℚ)) (rotR i) (Pattern.pure v : Pattern Γ α) =
      _fastForward (1 / (n : ℚ)) (rotR i (_fastForward n (Pattern.pure v))) := by
    rw [_inside, _slow, if_neg hrate.ne', one_div_one_div, fast_of_pos hn0, fast_of_pos hrate]
  have hshift : ∀ x : ℚ, (x * (1 / n) + -i) * n = x - i * n := fun x => by field_simp; ring
  have hback : ∀ x : ℚ, ((x - i * n) / n - -i) / (1 / n) = x := fun x => by field_simp; ring
  have hcycle : (Pattern.pure v : Pattern Γ α).query ⟨⟨c - i * n, c + 1 - i * n⟩, m⟩ =
      [⟨⟨[]⟩, some ⟨c - i * n, c + 1 - i * n⟩, ⟨c - i * n, c + 1 - i * n⟩, v⟩] := by
    have h := pure_query_cycle (m := m) v (c - i * n)
    push_cast at h
    rwa [sub_add_eq_add_sub] at h
  have hquery : (_inside (1 / (n : ℚ)) (rotR i) (Pattern.pure v : Pattern Γ α)).query ⟨⟨c, c + 1⟩, m⟩ =
      [⟨⟨[]⟩, some ⟨c, c + 1⟩, ⟨c, c + 1⟩, v⟩] := by
    rw [hinside]
    show ((((Pattern.pure v : Pattern Γ α).query ⟨⟨(c * (1 / n) + -i) * n, ((c + 1) * (1 / n) + -i) * n⟩,
      m⟩).map _).map _).map _ = _
    rw [hshift, hshift, hcycle]
    simp only [List.map_cons, List.map_nil, mapArc, Option.map_some, ArcF.map, hback]
  have hsub : subArc ⟨c, c + 1⟩ ⟨(c : Time), c + 1⟩ = some ⟨c, c + 1⟩ :=
    subArc_of_within (Within.refl (by simp)) (by simp)
  rw [striped, inside]
  show (((Pattern.pure (1 / (n : ℚ)) : Pattern Γ ℚ).query ⟨⟨c, c + 1⟩, m⟩).map _).flatMap _ = _
  rw [pure_query_cycle]
  simp only [List.map_cons, List.map_nil, EventF.map, List.flatMap_cons, List.flatMap_nil,
    List.append_nil, hquery, List.filterMap_cons, List.filterMap_nil, mungeInner, hsub,
    Option.bind_eq_bind, Option.bind_some]
  rfl

theorem filling_striped_pure (hn : 1 ≤ n) (hw : Playable w) (v : α) (i : ℤ) :
    filling (striped n (Pattern.pure v) i : Pattern Γ α) w = filling (Pattern.pure v : Pattern Γ α) w := by
  have hcycle : timeToCycleArc w.start = ⟨(⌊w.start⌋ : ℤ), (⌊w.start⌋ : ℤ) + 1⟩ := rfl
  rw [filling, filling, queryArc, queryArc, compressArcTo_query hw, compressArcTo_query hw, hcycle,
    striped_pure_query hn, pure_query_cycle]

/-- The stripes of a list, each played by a pattern of one value, show their arcs only. -/
theorem flatMap_filling_striped_pure (hn : 1 ≤ n) {l : List (ℤ × Arc)}
    (hl : ∀ x ∈ l, ∃ c, x ∈ stripesOf Γ n c) (v : α) :
    (l.flatMap fun x => filling (striped n (Pattern.pure v : Pattern Γ α) x.1) x.2) =
      (l.map Prod.snd).flatMap (filling (Pattern.pure v : Pattern Γ α)) := by
  rw [List.flatMap_map]
  refine List.flatMap_congr fun x hx => ?_
  obtain ⟨c, hx⟩ := hl x hx
  exact filling_striped_pure hn (playable_stripe hn hx) v x.1

theorem playable_stripes (hn : 1 ≤ n) {l : List (ℤ × Arc)} (hl : ∀ x ∈ l, ∃ c, x ∈ stripesOf Γ n c) :
    ∀ w ∈ l.map Prod.snd, Playable w := by
  intro w hw
  obtain ⟨x, hx, rfl⟩ := List.mem_map.mp hw
  obtain ⟨c, hx⟩ := hl x hx
  exact playable_stripe hn hx

/-! ## Structure and the query -/

section Structure

variable [Inhabited α]

theorem stripe_within_iff (hn : 1 ≤ n) (m : Γ) (a : Arc) :
    (∀ p : Pattern Γ α, ∀ e ∈ (_stripe n p).query ⟨a, m⟩, Within e.part a) ↔
      ∀ w, IsStripe Γ n w → (subArc a w).isSome → Within w a := by
  constructor
  · rintro h w ⟨c, i, hw⟩ hsome
    refine h (Pattern.pure default) ⟨⟨[]⟩, some w, w, default⟩ ?_
    rw [stripe_query hn]
    refine List.mem_flatMap.mpr ⟨(i, w), (mem_stripesIn hn).mpr ⟨⟨c, hw⟩, hsome⟩, ?_⟩
    rw [filling_striped_pure hn (playable_stripe hn hw), filling_pure (playable_stripe hn hw)]
    exact List.mem_singleton_self _
  · intro h p e he
    rw [stripe_query hn] at he
    obtain ⟨⟨i, w⟩, hx, he⟩ := List.mem_flatMap.mp he
    obtain ⟨⟨c, hw⟩, hsome⟩ := (mem_stripesIn hn).mp hx
    exact (within_filling (contained_innerJoin _) (playable_stripe hn hw) he).trans (h w ⟨c, i, hw⟩ hsome)

theorem stripe_onsets_iff (hn : 1 ≤ n) (m : Γ) (s t : Time) (cuts : List Time)
    (hcuts : (s :: t :: cuts).IsChain (· < ·)) :
    (∀ p : Pattern Γ α, ∀ u,
        onsetsIn ((cutArcs (s :: t :: cuts)).flatMap fun b => (_stripe n p).query ⟨b, m⟩) u =
          onsetsIn ((_stripe n p).query ⟨⟨s, (t :: cuts).getLast (List.cons_ne_nil _ _)⟩, m⟩) u) ↔
      ∀ y ∈ innerCuts (s :: t :: cuts), ∀ w, IsStripe Γ n w → ¬ (w.start < y ∧ y < w.stop) := by
  set pieces := (cutArcs (s :: t :: cuts)).flatMap (stripesIn Γ n) with hpieces
  set whole := stripesIn Γ n ⟨s, (t :: cuts).getLast (List.cons_ne_nil _ _)⟩ with hwhole
  have hcount := fun x c (hx : x ∈ stripesOf Γ n c) => count_cut hn hx s t cuts hcuts
  have hstripe : ∀ x ∈ pieces ++ whole, ∃ c, x ∈ stripesOf Γ n c := by
    intro x hx
    rcases List.mem_append.mp hx with hx | hx
    · obtain ⟨b, _, hb⟩ := List.mem_flatMap.mp hx
      exact ((mem_stripesIn hn).mp hb).1
    · exact ((mem_stripesIn hn).mp hx).1
  have hquery : ∀ p : Pattern Γ α, ((cutArcs (s :: t :: cuts)).flatMap fun b =>
      (_stripe n p).query ⟨b, m⟩) = pieces.flatMap fun x => filling (striped n p x.1) x.2 := fun p => by
    rw [hpieces, List.flatMap_assoc]
    exact List.flatMap_congr fun b _ => stripe_query hn p m b
  constructor
  · rintro h y hy w ⟨c, i, hw⟩ hin
    have hpieces' := fun x hx => hstripe x (List.mem_append_left _ hx)
    have hwhole' := fun x hx => hstripe x (List.mem_append_right _ hx)
    -- constant patterns show the arcs of the stripes
    have hperm := perm_of_onsetsIn (Γ := Γ) (default : α) (playable_stripes hn hpieces')
      (playable_stripes hn hwhole') fun u => by
        rw [← flatMap_filling_striped_pure hn hpieces', ← flatMap_filling_striped_pure hn hwhole',
          ← hquery, hwhole, ← stripe_query hn (m := m)]
        exact h (Pattern.pure default) u
    -- they are as many over the pieces as over the whole, so that none is met twice
    have hlen : pieces.length = whole.length := by simpa using hperm.length_eq
    have hle : whole.Subperm pieces := List.subperm_ext_iff.mpr fun x hx => by
      obtain ⟨c, hx⟩ := hwhole' x hx
      rw [hpieces, hcount x c hx]
      exact Nat.le_add_right _ _
    have heq := (hle.perm_of_length_le hlen.le).count_eq (i, w)
    rw [hpieces, hcount _ c hw, ← hwhole] at heq
    have hpos : 0 < (innerCuts (s :: t :: cuts)).countP fun y => w.start < y ∧ y < w.stop :=
      List.countP_pos_iff.mpr ⟨y, hy, by simpa using hin⟩
    simp only at heq
    omega
  · intro h p u
    have hperm : pieces.Perm whole := List.perm_iff_count.mpr fun x => by
      by_cases hx : ∃ c, x ∈ stripesOf Γ n c
      · obtain ⟨c, hx⟩ := hx
        have hzero : (innerCuts (s :: t :: cuts)).countP (fun y => x.2.start < y ∧ y < x.2.stop) = 0 :=
          List.countP_eq_zero.mpr fun y hy => by simpa using h y hy x.2 ⟨c, x.1, hx⟩
        rw [hcount x c hx, hzero, add_zero]
      · rw [List.count_eq_zero_of_not_mem fun h => hx (hstripe x (List.mem_append_left _ h)),
          List.count_eq_zero_of_not_mem fun h => hx (hstripe x (List.mem_append_right _ h))]
    rw [hquery, stripe_query hn, onsetsIn_flatMap, onsetsIn_flatMap]
    exact (hperm.map _).sum_eq

/-- **When structure keeps to the query.** Whatever is played in it, the answers lie inside of the query
exactly when the structure events that it meets do; and the answers to the queries of a cut have the
onsets of the answer to one query exactly when, for stripes, no cut lies inside of a stripe, and for other
structure, they meet the same structure events. -/
theorem structure_in_query_iff (s : Pattern Γ Bool) (n : ℤ) (hn : 1 ≤ n) (m : Γ) :
    (∀ a, (∀ p : Pattern Γ α, Contained p → ∀ e ∈ (substruct s p).query ⟨a, m⟩, Within e.part a) ↔
      ∀ w ∈ structureArcs s m a, Within w a) ∧
    (∀ a, (∀ p : Pattern Γ α, ∀ e ∈ (_stripe n p).query ⟨a, m⟩, Within e.part a) ↔
      ∀ w, IsStripe Γ n w → (subArc a w).isSome → Within w a) ∧
    ∀ (b c : Time) (cuts : List Time), (b :: c :: cuts).IsChain (· < ·) →
      let span : Arc := ⟨b, (c :: cuts).getLast (List.cons_ne_nil _ _)⟩
      ((∀ p : Pattern Γ α, ∀ u,
          onsetsIn ((cutArcs (b :: c :: cuts)).flatMap fun a => (_stripe n p).query ⟨a, m⟩) u =
            onsetsIn ((_stripe n p).query ⟨span, m⟩) u) ↔
        ∀ y ∈ innerCuts (b :: c :: cuts), ∀ w, IsStripe Γ n w → ¬ (w.start < y ∧ y < w.stop)) ∧
      ((∀ p : Pattern Γ α, Contained p → ∀ u,
          onsetsIn ((cutArcs (b :: c :: cuts)).flatMap fun a => (substruct s p).query ⟨a, m⟩) u =
            onsetsIn ((substruct s p).query ⟨span, m⟩) u) ↔
        ((cutArcs (b :: c :: cuts)).flatMap (structureArcs s m)).Perm (structureArcs s m span)) :=
  ⟨fun a => substruct_within_iff s m a, fun a => stripe_within_iff hn m a,
    fun b c cuts hcuts => ⟨stripe_onsets_iff hn m b c cuts hcuts, substruct_onsets_iff s m _ _⟩⟩

end Structure

/-- A structure of whole cycles, and two stripes to a cycle: cut between the cycles, nothing changes. -/
theorem structure_in_query_one :
    (∀ p : Pattern Controls ℕ, Contained p → ∀ e ∈ (substruct (Pattern.pure true) p).query ⟨⟨0, 1⟩, ∅⟩,
      Within e.part ⟨0, 1⟩) ∧
    (∀ p : Pattern Controls ℕ, ∀ e ∈ (_stripe 2 p).query ⟨⟨0, 1⟩, ∅⟩, Within e.part ⟨0, 1⟩) ∧
    (∀ p : Pattern Controls ℕ, ∀ u,
      onsetsIn ((cutArcs [0, 1, 2]).flatMap fun a => (_stripe 2 p).query ⟨a, ∅⟩) u =
        onsetsIn ((_stripe 2 p).query ⟨⟨0, 2⟩, ∅⟩) u) ∧
    ∀ p : Pattern Controls ℕ, Contained p → ∀ u,
      onsetsIn ((cutArcs [0, 1, 2]).flatMap fun a => (substruct (Pattern.pure true) p).query ⟨a, ∅⟩) u =
        onsetsIn ((substruct (Pattern.pure true) p).query ⟨⟨0, 2⟩, ∅⟩) u := by
  have hn : (1 : ℤ) ≤ 2 := by norm_num
  obtain ⟨hwithin, hstripe, hcuts⟩ :=
    structure_in_query_iff (Γ := Controls) (α := ℕ) (Pattern.pure true) 2 hn ∅
  have hcut := hcuts 0 1 [2] (by norm_num)
  -- a stripe lies in one cycle
  have hinside : ∀ w, IsStripe Controls 2 w → ∃ c : ℤ, (c : Time) ≤ w.start ∧ w.start < w.stop ∧ w.stop ≤ c + 1 := by
    rintro w ⟨c, i, hw⟩
    exact ⟨c, mem_stripesOf hn hw⟩
  refine ⟨(hwithin ⟨0, 1⟩).mpr ?_, (hstripe ⟨0, 1⟩).mpr fun w hw hmeets => ?_, hcut.1.mpr fun y hy w hw => ?_,
    hcut.2.mpr ?_⟩
  · have harcs : structureArcs (Pattern.pure true) (∅ : Controls) ⟨0, 1⟩ = [⟨0, 1⟩] := by with_unfolding_all decide
    rw [harcs]
    simp [Within]
  · obtain ⟨c, h1, h2, h3⟩ := hinside w hw
    obtain ⟨d, hd⟩ := Option.isSome_iff_exists.mp hmeets
    have hpos := subArc_pos (by norm_num) h2 hd
    rw [(subArc_some hd).1, sect, max_lt_iff, lt_min_iff, lt_min_iff] at hpos
    have hc : c = 0 := by
      have hlt' : (c : Time) < 1 := h1.trans_lt hpos.2.1
      have hlt : c < 1 := by exact_mod_cast hlt'
      have hgt : (0 : Time) < c + 1 := hpos.1.2.trans_le h3
      have hgt' : 0 < c + 1 := by exact_mod_cast hgt
      omega
    subst hc
    simp only [Int.cast_zero, zero_add] at h1 h3
    exact ⟨h1, h2.le, h3⟩
  · obtain rfl := List.mem_singleton.mp hy
    obtain ⟨c, h1, _, h3⟩ := hinside w hw
    rintro ⟨h4, h5⟩
    have hlt : c < 1 := by exact_mod_cast h1.trans_lt h4
    have hgt : (1 : Time) < c + 1 := h5.trans_le h3
    have hgt' : 1 < c + 1 := by exact_mod_cast hgt
    omega
  · with_unfolding_all decide

/-- A note for every cycle, asked about in two halves: each half answers with the whole note. -/
theorem substruct_sliced :
    let p : Pattern Controls ℕ := substruct (Pattern.pure true) (Pattern.pure 0)
    (∃ e ∈ p.query ⟨⟨0, 1 / 2⟩, ∅⟩, ¬ Within e.part ⟨0, 1 / 2⟩) ∧
    onsetsIn ((cutArcs [0, 1 / 2, 1]).flatMap fun a => p.query ⟨a, ∅⟩) 0 =
      {(some ⟨0, 1⟩, 0), (some ⟨0, 1⟩, 0)} ∧
    onsetsIn (p.query ⟨⟨0, 1⟩, ∅⟩) 0 = {(some ⟨0, 1⟩, 0)} := by
  refine ⟨⟨⟨⟨[]⟩, some ⟨0, 1⟩, ⟨0, 1⟩, 0⟩, by with_unfolding_all decide, fun h => ?_⟩, by with_unfolding_all decide,
    by with_unfolding_all decide⟩
  exact absurd h.2.2 (by norm_num)

end Tidal
