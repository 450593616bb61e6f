import Tidal.Proofs.SamplingProofs

/-!
# Mirrored cycles

`rev` mirrors each cycle around its centre. A piece of a query lies in one cycle, and so does its mirror
image: the second mirroring of a piece is around the same centre and brings everything back, and
combinators that treat the cycles one by one mirror cycle by cycle.
-/

namespace Tidal

open Pattern EventF

variable {Γ α : Type} {m : Γ} {a b : Arc} {t : Time}

/-! ## One piece -/

theorem rev_query (p : Pattern Γ α) (m : Γ) (a : Arc) :
    (rev p).query ⟨a, m⟩ = (arcCyclesZW a).flatMap fun b => revCycle p ⟨b, m⟩ := rfl

theorem rev_query_piece (p : Pattern Γ α) (m : Γ) (hb : b.start < b.stop)
    (hn : b.stop ≤ nextSam b.start) : (rev p).query ⟨b, m⟩ = revCycle p ⟨b, m⟩ := by
  rw [rev_query, arcCyclesZW_of_le hb hn, List.flatMap_singleton]

theorem mirrorArc_lt (mid : Time) (hb : b.start < b.stop) :
    (mirrorArc mid b).start < (mirrorArc mid b).stop := by
  simp only [mirrorArc]; linarith

/-- The mirror image of a piece starts in the same cycle. -/
theorem floor_mirror_start (hb : b.start < b.stop) (hn : b.stop ≤ nextSam b.start) :
    ⌊(mirrorArc (midCycle b) b).start⌋ = ⌊b.start⌋ := by
  have hle := sam_le b.start
  simp only [nextSam, sam] at hn hle
  refine Int.floor_eq_iff.mpr ⟨?_, ?_⟩ <;> simp only [mirrorArc, midCycle, sam] <;> linarith

theorem midCycle_mirror (hb : b.start < b.stop) (hn : b.stop ≤ nextSam b.start) :
    midCycle (mirrorArc (midCycle b) b) = midCycle b := by
  rw [midCycle, sam, floor_mirror_start hb hn, midCycle, sam]

/-- The mirror image of a piece ends with its cycle at the latest. -/
theorem mirror_stop_le (hb : b.start < b.stop) (hn : b.stop ≤ nextSam b.start) :
    (mirrorArc (midCycle b) b).stop ≤ nextSam (mirrorArc (midCycle b) b).start := by
  rw [nextSam, sam, floor_mirror_start hb hn]
  have hle := sam_le b.start
  simp only [mirrorArc, midCycle, sam] at hle ⊢
  linarith

/-! ## Mirroring twice -/

theorem mapArc_mirror_mirror (mid : Time) (e : Event α) :
    mapArc (mirrorArc mid) (mapArc (mirrorArc mid) e) = e := by
  obtain ⟨c, w, p, v⟩ := e
  cases w <;> simp [mapArc, mirrorArc_mirrorArc]

theorem revCycle_rev (p : Pattern Γ α) (m : Γ) (hb : b.start < b.stop)
    (hn : b.stop ≤ nextSam b.start) : revCycle (rev p) ⟨b, m⟩ = p.query ⟨b, m⟩ := by
  rw [revCycle_eq]
  simp only
  rw [rev_query_piece p m (mirrorArc_lt _ hb) (mirror_stop_le hb hn), revCycle_eq]
  simp only [midCycle_mirror hb hn, mirrorArc_mirrorArc, List.map_map]
  rw [show mapArc (mirrorArc (midCycle b)) ∘ mapArc (mirrorArc (midCycle b)) = (id : Event α → _) from
    funext fun e => mapArc_mirror_mirror _ e, List.map_id]

/-- Reversing twice gives the answers of the pattern to the pieces of the query, in order. -/
theorem rev_rev (p : Pattern Γ α) (m : Γ) (a : Arc) (ha : a.start < a.stop) :
    (rev (rev p)).query ⟨a, m⟩ = (splitQueries p).query ⟨a, m⟩ := by
  rw [rev_query]
  refine List.flatMap_congr fun b hb => ?_
  have hp := piece_of_mem hb
  exact revCycle_rev p m (hp.pos ha) hp.stop_le_nextSam

/-- A long event, mirrored back and forth in the two halves of it. -/
theorem rev_rev_offbeat :
    (rev (rev offbeat)).query ⟨⟨1 / 2, 3 / 2⟩, ()⟩ = (splitQueries offbeat).query ⟨⟨1 / 2, 3 / 2⟩, ()⟩ :=
  rev_rev offbeat () ⟨1 / 2, 3 / 2⟩ (by norm_num)

/-! ## Cycles in turn -/

theorem mapArc_mapArc (F G : Arc → Arc) (e : Event α) : mapArc F (mapArc G e) = mapArc (F ∘ G) e := by
  obtain ⟨c, w, p, v⟩ := e
  cases w <;> rfl

/-- Mirroring and a shift by whole cycles. -/
theorem mirrorArc_shift (mid o : Time) (x : Arc) :
    (mirrorArc (mid - o) x).map (· + o) = mirrorArc mid (x.map (· + o)) := by
  simp only [mirrorArc, ArcF.map]; congr 1 <;> ring

theorem midCycle_shift (b : Arc) (k : ℤ) : midCycle (b.map (· - (k : Time))) = midCycle b - k := by
  simp only [midCycle, ArcF.map, sam, Int.floor_sub_intCast]
  push_cast
  ring

theorem catCycle_eq (ps : List (Pattern Γ α)) (st : State Γ) (b : Arc) :
    catCycle ps st b = ((ps.getD (catIndex ps ⌊b.start⌋) silence).query
      ⟨b.map (· - catOffset ps ⌊b.start⌋), st.controls⟩).map
        (mapArc (ArcF.map (· + catOffset ps ⌊b.start⌋))) := rfl

theorem catIndex_lt {ps : List (Pattern Γ α)} (h : ps ≠ []) (c : ℤ) : catIndex ps c < ps.length := by
  have hpos : (0 : ℤ) < ps.length := by exact_mod_cast List.length_pos_iff.mpr h
  have h0 := Int.emod_nonneg c hpos.ne'
  have h1 := Int.emod_lt_of_pos c hpos
  unfold catIndex
  omega

theorem getD_map_rev {ps : List (Pattern Γ α)} {i : ℕ} (hi : i < ps.length) :
    (ps.map rev).getD i silence = rev (ps.getD i silence) := by
  rw [List.getD_eq_getElem _ _ (by simpa using hi), List.getElem_map, List.getD_eq_getElem _ _ hi]

/-- In a piece, mirroring what `cat` plays is playing the mirrored pattern. -/
theorem catCycle_rev {ps : List (Pattern Γ α)} (h : ps ≠ []) (m : Γ) (x y : Arc)
    (hb : b.start < b.stop) (hn : b.stop ≤ nextSam b.start) :
    (catCycle ps ⟨x, m⟩ (mirrorArc (midCycle b) b)).map (mapArc (mirrorArc (midCycle b))) =
      catCycle (ps.map rev) ⟨y, m⟩ b := by
  have hindex : catIndex (ps.map rev) ⌊b.start⌋ = catIndex ps ⌊b.start⌋ := by
    simp only [catIndex, List.length_map]
  have hoffset : catOffset (ps.map rev) ⌊b.start⌋ = catOffset ps ⌊b.start⌋ := by
    simp only [catOffset, List.length_map]
  rw [catCycle_eq, catCycle_eq, floor_mirror_start hb hn, hindex, hoffset,
    getD_map_rev (catIndex_lt h _)]
  generalize ps.getD (catIndex ps ⌊b.start⌋) silence = p
  -- the offset is a whole number of cycles, so the shifted piece is still one piece
  obtain ⟨k, hk⟩ : ∃ k : ℤ, catOffset ps ⌊b.start⌋ = k := ⟨_, rfl⟩
  rw [hk]
  have hb' : (b.map (· - (k : Time))).start < (b.map (· - (k : Time))).stop := by
    simp only [ArcF.map]; linarith
  have hn' : (b.map (· - (k : Time))).stop ≤ nextSam (b.map (· - (k : Time))).start := by
    simp only [ArcF.map, nextSam, sam, Int.floor_sub_intCast] at hn ⊢
    push_cast
    linarith
  rw [rev_query_piece p m hb' hn', revCycle_eq]
  simp only [midCycle_shift, List.map_map]
  have hquery : mirrorArc (midCycle b - k) (b.map (· - (k : Time))) =
      (mirrorArc (midCycle b) b).map (· - (k : Time)) := by
    simp only [mirrorArc, ArcF.map]; congr 1 <;> ring
  rw [hquery]
  refine List.map_congr_left fun e _ => ?_
  simp only [Function.comp, mapArc_mapArc]
  congr 1
  exact funext fun z => (mirrorArc_shift _ _ _).symm

theorem rev_cat (ps : List (Pattern Γ α)) (m : Γ) (a : Arc) (ha : a.start < a.stop) :
    (rev (cat ps)).query ⟨a, m⟩ = (cat (ps.map rev)).query ⟨a, m⟩ := by
  match ps with
  | [] => exact List.flatMap_eq_nil_iff.mpr fun _ _ => rfl
  | [p] => rfl
  | p₁ :: p₂ :: ps =>
    rw [rev_query]
    refine List.flatMap_congr fun b hb => ?_
    have hp := piece_of_mem hb
    have hpos := hp.pos ha
    show _ = catCycle ((p₁ :: p₂ :: ps).map rev) ⟨a, m⟩ b
    rw [revCycle_eq, ← catCycle_rev (List.cons_ne_nil _ _) m (mirrorArc (midCycle b) b) a hpos
      hp.stop_le_nextSam]
    -- the mirrored piece is a single piece of the query of `cat`
    congr 1
    show (arcCyclesZW _).flatMap _ = _
    rw [arcCyclesZW_of_le (mirrorArc_lt _ hpos) (mirror_stop_le hpos hp.stop_le_nextSam),
      List.flatMap_singleton]

/-! ## Patterns at the same time -/

theorem flatMap_append_perm {ι κ : Type} (l : List ι) (f g : ι → List κ) :
    (l.flatMap fun i => f i ++ g i).Perm (l.flatMap f ++ l.flatMap g) := by
  induction l with
  | nil => rfl
  | cons i l ih =>
    simp only [List.flatMap_cons, List.append_assoc]
    refine List.Perm.append_left _ ((ih.append_left _).trans ?_)
    rw [← List.append_assoc, ← List.append_assoc]
    exact (List.perm_append_comm).append_right _

/-- Two loops, one inside the other, in either order. -/
theorem flatMap_swap_perm {ι κ δ : Type} (l : List ι) (l' : List κ) (f : ι → κ → List δ) :
    (l.flatMap fun i => l'.flatMap (f i)).Perm (l'.flatMap fun k => l.flatMap fun i => f i k) := by
  induction l with
  | nil => simp
  | cons i l ih =>
    simp only [List.flatMap_cons]
    exact (ih.append_left _).trans (flatMap_append_perm l' (f i) _).symm

theorem rev_stack (ps : List (Pattern Γ α)) (m : Γ) (a : Arc) :
    ((rev (stack ps)).query ⟨a, m⟩).Perm ((stack (ps.map rev)).query ⟨a, m⟩) := by
  have hleft : (rev (stack ps)).query ⟨a, m⟩ =
      (arcCyclesZW a).flatMap fun b => ps.flatMap fun p => revCycle p ⟨b, m⟩ := by
    rw [rev_query]
    refine List.flatMap_congr fun b _ => ?_
    rw [revCycle_eq, stack_query, List.map_flatMap]
    exact List.flatMap_congr fun p _ => (revCycle_eq p ⟨b, m⟩).symm
  rw [hleft, stack_query, List.flatMap_map]
  exact flatMap_swap_perm _ _ _

/-- Mirroring what is combined is combining what is mirrored. -/
theorem rev_cat_stack (ps : List (Pattern Γ α)) (m : Γ) (a : Arc) (ha : a.start < a.stop) :
    (rev (cat ps)).query ⟨a, m⟩ = (cat (ps.map rev)).query ⟨a, m⟩ ∧
    ((rev (stack ps)).query ⟨a, m⟩).Perm ((stack (ps.map rev)).query ⟨a, m⟩) :=
  ⟨rev_cat ps m a ha, rev_stack ps m a⟩

theorem rev_cat_stack_offbeat :
    (rev (cat [offbeat, Pattern.pure 1])).query ⟨⟨-3 / 2, 5 / 2⟩, ()⟩ =
      (cat ([offbeat, Pattern.pure 1].map rev)).query ⟨⟨-3 / 2, 5 / 2⟩, ()⟩ ∧
    ((rev (stack [offbeat, Pattern.pure 1])).query ⟨⟨-3 / 2, 5 / 2⟩, ()⟩).Perm
      ((stack ([offbeat, Pattern.pure 1].map rev)).query ⟨⟨-3 / 2, 5 / 2⟩, ()⟩) :=
  rev_cat_stack [offbeat, Pattern.pure 1] () ⟨-3 / 2, 5 / 2⟩ (by norm_num)

/-! ## Mirrored moments -/

/-- What a pattern plays just before a moment. -/
def justBefore (p : Pattern Γ α) (m : Γ) : Behaviour α := fun u => actLeft p m ⟨u - 1, u⟩ u

/-- The moment of the same cycle that is heard at `t` in reverse. -/
def mirrored (t : Time) : Time := 2 * (sam t + 1 / 2) - t

theorem mirrorArc_injective (mid : Time) : Function.Injective (mirrorArc mid) :=
  Function.LeftInverse.injective (mirrorArc_mirrorArc mid)

theorem onWhole_mirror_injective (mid : Time) :
    Function.Injective (onWhole (mirrorArc mid) : Option Arc × α → Option Arc × α) :=
  (Option.map_injective (mirrorArc_injective mid)).prodMap Function.injective_id

/-- A query of no width asks about the mirrored moment itself. -/
theorem sampled_rev (p : Pattern Γ α) (m : Γ) (t : Time) :
    sampled (rev p) m t = (sampled p m (mirrored t)).map (onWhole (mirrorArc (sam t + 1 / 2))) := by
  have hpoint : mirrorArc (sam t + 1 / 2) ⟨t, t⟩ = ⟨mirrored t, mirrored t⟩ := by
    simp only [mirrorArc, mirrored]; congr 1 <;> ring
  rw [sampled_eq_seen, rev_query, arcCyclesZW_point, List.flatMap_singleton, revCycle_eq, seen_mapArc]
  simp only [midCycle, hpoint]
  rfl

/-- A query of positive width plays what is played just before the mirrored moment. -/
theorem act_rev_justBefore {p : Pattern Γ α} (hl : Local p) (hs : Steady p) (hat : isIn a t) :
    act (rev p) m a t =
      (justBefore p m (mirrored t)).map (onWhole (mirrorArc (sam t + 1 / 2))) := by
  rw [act_rev hl hat, hs.actLeft_eq (isIn_mirrorArc_piece hat _)
    (b := ⟨mirrored t - 1, mirrored t⟩) ⟨sub_one_lt _, le_rfl⟩]
  rfl

/-- Sampling a reversed pattern agrees with asking about a span exactly where the pattern does not change
at the mirrored moment. -/
theorem rev_sampled_iff (p : Pattern Γ α) (hp : Seamless p) (hc : PointConsistent p) (m : Γ) (t : Time) :
    (∀ a, isIn a t → sampled (rev p) m t = act (rev p) m a t) ↔
      behaviour p m (mirrored t) = justBefore p m (mirrored t) := by
  have hact := fun a (hat : isIn a t) => act_rev_justBefore (m := m) hp.cutFree.isLocal
    hp.cutFree.steady hat
  rw [sampled_rev, hc.eq_behaviour]
  constructor
  · intro h
    have := h _ (isIn_now t)
    rw [hact _ (isIn_now t)] at this
    exact Multiset.map_injective (onWhole_mirror_injective _) this
  · intro h a hat
    rw [hact a hat, h]

theorem rev_sampled_iff_pure :
    (∀ a, isIn a 0 → sampled (rev (Pattern.pure 0 : Pattern Unit ℕ)) () 0 =
        act (rev (Pattern.pure 0 : Pattern Unit ℕ)) () a 0) ↔
      behaviour (Pattern.pure 0 : Pattern Unit ℕ) () (mirrored 0) =
        justBefore (Pattern.pure 0 : Pattern Unit ℕ) () (mirrored 0) :=
  rev_sampled_iff (Pattern.pure 0) (regular_pure 0).seamless (pointConsistent_pure 0) () 0

/-- At the start of a cycle the event of the next cycle is sampled, mirrored to before the moment. -/
theorem rev_pure_sampled :
    Seamless (Pattern.pure 0 : Pattern Unit ℕ) ∧ PointConsistent (Pattern.pure 0 : Pattern Unit ℕ) ∧
    sampled (rev (Pattern.pure 0 : Pattern Unit ℕ)) () 0 = {(some ⟨-1, 0⟩, 0)} ∧
    act (rev (Pattern.pure 0 : Pattern Unit ℕ)) () ⟨0, 1⟩ 0 = {(some ⟨0, 1⟩, 0)} :=
  ⟨(regular_pure 0).seamless, pointConsistent_pure 0, by with_unfolding_all decide, by with_unfolding_all decide⟩

end Tidal
