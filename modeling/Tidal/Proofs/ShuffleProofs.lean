import Tidal.Proofs.ChewProofs
import Tidal.Proofs.OrderProofs
import Tidal.Proofs.RandomProofs
import Tidal.Proofs.StepsProofs

/-!
# Proofs: shuffling

`randrun` numbers the slots of each cycle in a random order, and `_shuffle` plays in each slot the slice
that it is numbered with. The order depends on the cycle only, so that it is the same for all queries.
-/

namespace Tidal

open EventF Pattern

variable {Γ α : Type} {m : Γ} {a : Arc} {t : Time} {n c : ℤ}

/-! ## The slots of a cycle -/

/-- Slot `k` of the `n` equal slots of cycle `c`. -/
def slot (n c : ℤ) (k : ℕ) : Arc := ⟨c + k / n, c + (k + 1 : ℕ) / n⟩

theorem slot_pos (hn : 1 ≤ n) (c : ℤ) (k : ℕ) : (slot n c k).start < (slot n c k).stop := by
  have hpos : (0 : Time) < n := by exact_mod_cast hn
  have hlt : (k : Time) / n < (k + 1 : ℕ) / n := div_lt_div_of_pos_right (by push_cast; linarith) hpos
  simp only [slot]
  linarith

theorem isIn_slot (hn : 1 ≤ n) {k : ℕ} : isIn (slot n c k) t ↔ ⌊t * n⌋ = c * n + k := by
  have hpos : (0 : Time) < n := by exact_mod_cast hn
  have hedge : ∀ x : Time, (c + x / n) * n = c * n + x := fun x => by field_simp
  rw [Int.floor_eq_iff, slot, isIn, ← mul_le_mul_iff_of_pos_right hpos, ← mul_lt_mul_iff_of_pos_right hpos,
    hedge, hedge]
  push_cast
  rw [add_assoc]

/-- The slots of a cycle lie in it. -/
theorem within_slot (hn : 1 ≤ n) {k : ℕ} (hk : k < n.toNat) : Within (slot n c k) ⟨c, c + 1⟩ := by
  have hpos : (0 : Time) < n := by exact_mod_cast hn
  have hle : ((k + 1 : ℕ) : Time) ≤ n := by
    have h : ((k + 1 : ℕ) : ℤ) ≤ n := by omega
    exact_mod_cast h
  refine ⟨?_, (slot_pos hn c k).le, ?_⟩
  · have h0 : (0 : Time) ≤ k / n := by positivity
    simp only [slot]
    linarith
  · have h1 : ((k + 1 : ℕ) : Time) / n ≤ 1 := (div_le_one hpos).mpr hle
    simp only [slot]
    linarith

theorem floor_of_slot (hn : 1 ≤ n) {k : ℕ} (hk : k < n.toNat) (ht : ⌊t * n⌋ = c * n + k) : ⌊t⌋ = c := by
  obtain ⟨h1, h2⟩ := (within_slot hn hk).isIn ((isIn_slot hn).mpr ht)
  exact Int.floor_eq_iff.mpr ⟨h1, h2⟩

/-- Every moment is in a slot of its cycle. -/
theorem exists_slot_of_floor (hn : 1 ≤ n) (t : Time) : ∃ c : ℤ, ∃ k < n.toNat, ⌊t * n⌋ = c * n + k := by
  have h0 := Int.emod_nonneg ⌊t * n⌋ (show n ≠ 0 by omega)
  have h1 := Int.emod_lt_of_pos ⌊t * n⌋ (show 0 < n by omega)
  refine ⟨⌊t * n⌋ / n, (⌊t * n⌋ % n).toNat, by omega, ?_⟩
  rw [Int.toNat_of_nonneg h0]
  exact (Int.ediv_mul_add_emod _ _).symm

/-! ## Random orders -/

theorem zipWith_tail_range {δ ε : Type} (f : ℕ → δ) (g : δ → δ → ε) (N : ℕ) :
    ((List.range (N + 1)).map f).zipWith g ((List.range (N + 1)).map f).tail =
      (List.range N).map fun k => g (f k) (f (k + 1)) := by
  refine List.ext_getElem ?_ fun k h1 h2 => ?_
  · simp
  · simp

/-- The arcs that `randrun` lays out are the slots of the cycle. -/
theorem arcs_eq_slots (hn : 1 ≤ n) (c : ℤ) :
    ((enumFromThenTo 0 (1 / n) 1).map (· + (c : Time))).zipWith ArcF.mk
      ((enumFromThenTo 0 (1 / n) 1).map (· + (c : Time))).tail = (List.range n.toNat).map (slot n c) := by
  have hpos : (n : ℚ) ≠ 0 := by exact_mod_cast (show n ≠ 0 by omega)
  have hcount : ⌊((1 : ℚ) - 0) / (1 / n - 0) + 1 / 2⌋ = n := by
    rw [sub_zero, sub_zero, one_div_one_div, Int.floor_eq_iff]
    constructor <;> linarith
  have hlen : (n + 1).toNat = n.toNat + 1 := by omega
  rw [enumFromThenTo, hcount, hlen, List.map_map, zipWith_tail_range]
  refine List.map_congr_left fun k _ => ?_
  simp only [Function.comp_apply, slot]
  congr 1 <;> ring

section Orders

variable {κ : Type} [LinearOrder κ] {rs : List κ}

/-- The whole numbers below `n` in the order of the keys. -/
def shuffled (n : ℤ) (rs : List κ) : List ℤ :=
  (sortOn Prod.fst (rs.zip ((List.range n.toNat).map Int.ofNat))).map Prod.snd

/-- Whatever the keys are, every number occurs once. -/
theorem shuffled_perm (h : rs.length = n.toNat) :
    (shuffled n rs).Perm ((List.range n.toNat).map Int.ofNat) := by
  refine ((sortOn_perm _ _).map _).trans ?_
  rw [List.map_snd_zip (by simp [h])]

theorem length_shuffled (h : rs.length = n.toNat) : (shuffled n rs).length = n.toNat := by
  rw [(shuffled_perm h).length_eq, List.length_map, List.length_range]

theorem shuffled_lt (h : rs.length = n.toNat) {k : ℕ} (hk : k < n.toNat) :
    0 ≤ (shuffled n rs).getD k 0 ∧ (shuffled n rs).getD k 0 < n := by
  have hlt : k < (shuffled n rs).length := by rwa [length_shuffled h]
  rw [List.getD_eq_getElem _ _ hlt]
  obtain ⟨i, hi, heq⟩ := List.mem_map.mp ((shuffled_perm h).mem_iff.mp (List.getElem_mem hlt))
  have hin := List.mem_range.mp hi
  rw [← heq]
  exact ⟨Int.natCast_nonneg i, by rw [Int.ofNat_eq_natCast]; omega⟩

theorem randrunCycle_eq (hn : 1 ≤ n) (h : rs.length = n.toNat) (b : Arc) :
    randrunCycle n rs b =
      (List.range n.toNat).filterMap fun k => toEv b (slot n ⌊b.start⌋ k, (shuffled n rs).getD k 0) := by
  have hzip : ((List.range n.toNat).map (slot n ⌊b.start⌋)).zip (shuffled n rs) =
      (List.range n.toNat).map fun k => (slot n ⌊b.start⌋ k, (shuffled n rs).getD k 0) := by
    refine List.ext_getElem (by simp [length_shuffled h]) fun k h1 h2 => ?_
    have hk : k < (shuffled n rs).length := by
      rw [List.length_zip] at h1
      omega
    simp [List.getElem_zip, List.getElem?_eq_getElem hk]
  have hcycle : randrunCycle n rs b =
      (((List.range n.toNat).map (slot n ⌊b.start⌋)).zip (shuffled n rs)).filterMap (toEv b) := by
    rw [← arcs_eq_slots hn]
    rfl
  rw [hcycle, hzip, List.filterMap_map]
  rfl

theorem toEv_some {b : Arc} {x : Arc × ℤ} {e : Event ℤ} :
    toEv b x = some e ↔ ∃ d, subArc b x.1 = some d ∧ e = ⟨⟨[]⟩, some x.1, d, x.2⟩ := by
  simp only [toEv, Option.bind_eq_bind, Option.bind_eq_some_iff, Option.pure_def, Option.some.injEq]
  exact exists_congr fun d => and_congr_right fun _ => eq_comm

/-- Of the slots of the cycle, only the one around the moment is heard. -/
theorem activeIn_randrunCycle (hn : 1 ≤ n) (h : rs.length = n.toNat) {b : Arc} (hb : isIn b t) {k : ℕ}
    (hk : k < n.toNat) (hcycle : ⌊b.start⌋ = c) (ht : ⌊t * n⌋ = c * n + k) :
    activeIn (randrunCycle n rs b) t = {(some (slot n c k), (shuffled n rs).getD k 0)} := by
  have hin : ∀ i, isIn (slot n c i) t ↔ i = k := by
    intro i
    rw [isIn_slot hn, ht]
    omega
  have hone : (List.range n.toNat).filter (fun i => i = k) = [k] := by
    rw [List.filter_eq, List.count_eq_one_of_mem List.nodup_range (List.mem_range.mpr hk)]
    rfl
  have hpick : activeIn (randrunCycle n rs b) t =
      (HalfOpen.pick (· = k) (fun i => (some (slot n c i), (shuffled n rs).getD i 0))
        (List.range n.toNat)).filterMap some := by
    rw [randrunCycle_eq hn h, hcycle]
    refine HalfOpen.pick_filterMap (fun i _ hnone hi => ?_) fun i _ e he => ?_
    · have hsome := subArc_of_isIn hb ((hin i).mpr hi)
      rw [toEv, hsome] at hnone
      cases hnone
    · obtain ⟨d, hd, rfl⟩ := toEv_some.mp he
      refine ⟨?_, fun _ => rfl⟩
      rw [isIn_of_subArc hd, hin]
      exact and_iff_right hb
  rw [hpick, HalfOpen.pick, hone, Multiset.filterMap_some]
  rfl

end Orders

section Source

variable {κ : Type} [LinearOrder κ] {rands : Time → List κ}

theorem randrunWith_query (hn : 1 ≤ n) (m : Γ) (a : Arc) :
    (randrunWith rands n).query ⟨a, m⟩ =
      (arcCyclesZW a).flatMap fun b => randrunCycle n (rands (sam b.start)) b := by
  rw [randrunWith, if_neg (by omega)]
  rfl

/-- What `randrun` numbers are: the numbers of slots, heard in the query. -/
theorem mem_randrunWith (hn : 1 ≤ n) (h : ∀ s, (rands s).length = n.toNat) (ha : a.start < a.stop)
    {e : Event ℤ} (he : e ∈ (randrunWith rands n).query ⟨a, m⟩) :
    e.part.start < e.part.stop ∧ 0 ≤ e.value ∧ e.value < n := by
  rw [randrunWith_query hn] at he
  obtain ⟨b, hb, he⟩ := List.mem_flatMap.mp he
  rw [randrunCycle_eq hn (h _)] at he
  obtain ⟨k, hk, hev⟩ := List.mem_filterMap.mp he
  obtain ⟨d, hd, rfl⟩ := toEv_some.mp hev
  exact ⟨subArc_pos ((piece_of_mem hb).pos ha) (slot_pos hn _ k) hd,
    shuffled_lt (h _) (List.mem_range.mp hk)⟩

theorem act_randrunWith (hn : 1 ≤ n) (h : ∀ s, (rands s).length = n.toNat) (hat : isIn a t) {k : ℕ}
    (hk : k < n.toNat) (ht : ⌊t * n⌋ = c * n + k) :
    act (randrunWith rands n) m a t = {(some (slot n c k), (shuffled n (rands c)).getD k 0)} := by
  have hfloor := floor_of_slot hn hk ht
  have hsam : sam t = c := by rw [sam, hfloor]
  rw [act, randrunWith_query hn, activeIn_arcCyclesZW hat, sam_piece_start hat, hsam,
    activeIn_randrunCycle hn (h _) (isIn_piece hat) hk ((floor_piece_start hat).trans hfloor) ht]
  intro b _ hbt
  refine activeIn_eq_zero fun e he hin => hbt ?_
  rw [randrunCycle_eq hn (h _)] at he
  obtain ⟨k, _, hev⟩ := List.mem_filterMap.mp he
  obtain ⟨d, hd, rfl⟩ := toEv_some.mp hev
  exact ((isIn_of_subArc hd).mp hin).1

/-- A whole cycle of `randrun`. -/
theorem randrunWith_cycle (hn : 1 ≤ n) (h : ∀ s, (rands s).length = n.toNat) (m : Γ) (c : ℤ) :
    (randrunWith rands n).query ⟨⟨c, c + 1⟩, m⟩ = (List.range n.toNat).map fun k =>
      ⟨⟨[]⟩, some (slot n c k), slot n c k, (shuffled n (rands c)).getD k 0⟩ := by
  have hone : arcCyclesZW ⟨(c : Time), c + 1⟩ = [⟨c, c + 1⟩] :=
    arcCyclesZW_cycle le_rfl (lt_add_one _) (lt_add_one _).le le_rfl
  rw [randrunWith_query hn, hone, List.flatMap_singleton, sam_intCast, randrunCycle_eq hn (h _),
    Int.floor_intCast, ← List.filterMap_eq_map]
  refine List.filterMap_congr fun k hk => ?_
  have hin : subArc ⟨(c : Time), c + 1⟩ (slot n c k) = some (slot n c k) :=
    subArc_of_within (within_slot hn (List.mem_range.mp hk)) (slot_pos hn c k)
  exact toEv_some.mpr ⟨_, hin, rfl⟩

end Source

/-! ## Slices -/

section Slices

variable {p : Pattern Γ α} {i : ℤ}

theorem Local.cat {ps : List (Pattern Γ α)} (h : ∀ p ∈ ps, Local p) : Local (cat ps) := by
  intro a m t ha hat
  match ps with
  | [] => rfl
  | [p] => exact h p (List.mem_singleton_self p) a m t ha hat
  | p₁ :: p₂ :: ps =>
    exact activeIn_cycles_eq_zero ha hat fun b hb _ hbt => activeIn_catCycle_eq_zero h hb hbt

/-- Slice `i` of the cycle from 0 to 1. -/
def sliceAt (n i : ℤ) : Arc := ⟨i / n, (i + 1 : ℤ) / n⟩

theorem sliceAt_bounds (hn : 1 ≤ n) (h0 : 0 ≤ i) (hi : i < n) :
    0 ≤ (sliceAt n i).start ∧ (sliceAt n i).start < (sliceAt n i).stop ∧ (sliceAt n i).stop ≤ 1 := by
  have hpos : (0 : Time) < n := by exact_mod_cast hn
  have hi0 : (0 : Time) ≤ i := by exact_mod_cast h0
  have hle : ((i + 1 : ℤ) : Time) ≤ n := by exact_mod_cast hi
  refine ⟨div_nonneg hi0 hpos.le, ?_, (div_le_one hpos).mpr hle⟩
  exact div_lt_div_of_pos_right (by push_cast; linarith) hpos

/-- Slice `i` of each cycle, as often as there are slots. -/
def repeated (n : ℤ) (p : Pattern Γ α) (i : ℤ) : Pattern Γ α :=
  _fast n (_repeatCycles n (zoomArc (sliceAt n i) p))

theorem cutFree_slice (hn : 1 ≤ n) (hp : CutFree p) (h0 : 0 ≤ i) (hi : i < n) :
    CutFree (zoomArc (sliceAt n i) p) :=
  hp.zoomArc (sliceAt_bounds hn h0 hi).1 (sliceAt_bounds hn h0 hi).2.1 (sliceAt_bounds hn h0 hi).2.2

/-- How the wholes of slice `i` are moved when it is played in slot `k` of cycle `c`. -/
def slotArc (n c : ℤ) (k : ℕ) (i : ℤ) (w : Arc) : Arc :=
  (zoomResult (sliceAt n i) w).map fun x => (x + (c * n + k - c)) / n

/-- In a slot, a slice plays what the pattern plays at the same place of the slice, in the same cycle. -/
theorem act_repeated (hn : 1 ≤ n) (hp : CutFree p) (h0 : 0 ≤ i) (hi : i < n) (hat : isIn a t) {k : ℕ}
    (hk : k < n.toNat) (ht : ⌊t * n⌋ = c * n + k) :
    act (repeated n p i) m a t =
      (behaviour p m (c + (i + (t * n - (c * n + k))) / n)).map (onWhole (slotArc n c k i)) := by
  have hpos : (0 : Time) < n := by exact_mod_cast hn
  obtain ⟨hs, hlt, hle⟩ := sliceAt_bounds hn h0 hi
  have hz := cutFree_slice hn hp h0 hi
  have hlen : ((List.replicate n.toNat (zoomArc (sliceAt n i) p)).length : ℤ) = n := by
    rw [List.length_replicate, Int.toNat_of_nonneg (by omega)]
  have hkl : k < (List.replicate n.toNat (zoomArc (sliceAt n i) p)).length := by
    rwa [List.length_replicate]
  have hcycle := act_cat_cycle (m := m) (fun q hq => List.eq_of_mem_replicate hq ▸ hz.isLocal)
    (fun q hq => List.eq_of_mem_replicate hq ▸ hz.steady) hkl (k := c) (by rw [hlen]; exact ht)
    (isIn_map_mul hpos hat)
  obtain ⟨hf1, hf2⟩ := Int.floor_eq_iff.mp ht
  have hsam : sam (t * n - ((c * n + k : ℤ) : Time) + c) = c := sam_eq (by linarith) (by linarith)
  have hzoom : behaviour (zoomArc (sliceAt n i) p) m (t * n - ((c * n + k : ℤ) : Time) + c) = _ :=
    act_zoomArc hp.isLocal hp.steady hs hlt hle (isIn_now _)
  have htime : zoomTime (sliceAt n i) (t * n - ((c * n + k : ℤ) : Time) + c) =
      c + (i + (t * n - (c * n + k))) / n := by
    rw [zoomTime, hsam, sliceAt]
    push_cast
    ring
  rw [repeated, fast_of_pos hpos, act_fastForward hpos, _repeatCycles, hcycle, List.getElem_replicate, ht,
    hzoom, htime, Multiset.map_map, Multiset.map_map]
  refine Multiset.map_congr rfl fun x _ => ?_
  obtain ⟨w, v⟩ := x
  cases w with
  | none => rfl
  | some w =>
    simp only [Function.comp_apply, onWhole, Option.map_some, slotArc, ArcF.map]
    push_cast
    rfl

theorem cutFree_repeated (hn : 1 ≤ n) (hp : CutFree p) (h0 : 0 ≤ i) (hi : i < n) :
    CutFree (repeated n p i) := by
  refine cutFree_iff.mpr ⟨fun a b m t ha hb => ?_, ?_⟩
  · obtain ⟨c, k, hk, ht⟩ := exists_slot_of_floor hn t
    rw [act_repeated hn hp h0 hi ha hk ht, act_repeated hn hp h0 hi hb hk ht]
  · refine (Local.cat fun q hq => ?_).fast _
    rw [List.eq_of_mem_replicate hq]
    exact (cutFree_slice hn hp h0 hi).isLocal

/-- What `_rearrangeWith` plays for a number. -/
def rearranged (n : ℤ) (p : Pattern Γ α) (i : ℤ) : Pattern Γ α :=
  let pats := ((List.range n.toNat).map Int.ofNat).map fun i : ℤ => zoom (i / n, (i + 1 : ℤ) / n) p
  _fast n (_repeatCycles n (if 0 ≤ i then pats.getD i.toNat silence else silence))

theorem rearranged_eq (p : Pattern Γ α) (h0 : 0 ≤ i) (hi : i < n) : rearranged n p i = repeated n p i := by
  have hlt : i.toNat < n.toNat := by omega
  rw [rearranged, if_pos h0, List.getD_eq_getElem _ _ (by simpa using hlt)]
  simp only [List.getElem_map, List.getElem_range, Int.ofNat_eq_natCast, Int.toNat_of_nonneg h0]
  rfl

/-- In each slot, the slice that the slot is numbered with. -/
theorem act_rearrangeWith (hn : 1 ≤ n) (hp : CutFree p) {ipat : Pattern Γ ℤ} (hat : isIn a t)
    (hi : ∀ e ∈ ipat.query ⟨a, m⟩, e.part.start < e.part.stop ∧ 0 ≤ e.value ∧ e.value < n) :
    act (_rearrangeWith ipat n p) m a t =
      TaggedBag.bind (fun _ w => w) (act ipat m a t) fun i => behaviour (repeated n p i) m t := by
  have hjoin : act (innerJoin (fmap (rearranged n p) ipat)) m a t =
      TaggedBag.bind (fun _ w => w) (act (fmap (rearranged n p) ipat) m a t) fun v => behaviour v m t := by
    refine act_innerJoin_of hat fun e he => ?_
    obtain ⟨e', he', rfl⟩ := List.mem_map.mp he
    obtain ⟨hpos, h0, hlt⟩ := hi e' he'
    have hcut := cutFree_repeated hn hp h0 hlt
    rw [EventF.map, rearranged_eq p h0 hlt]
    exact act_eq_ite hcut.isLocal hcut.steady hpos
  refine hjoin.trans ?_
  rw [act_fmap, TaggedBag.bind_map_left]
  refine TaggedBag.bind_congr fun x hx => ?_
  obtain ⟨e, he, -, rfl⟩ := mem_activeIn.mp hx
  rw [rearranged_eq p (hi e he).2.1 (hi e he).2.2]

end Slices

/-! ## Shuffles -/

/-- In cycle `c` the slots have the numbers `σ`, and are filled with the slices in this order. -/
structure Shuffles (ipat : Pattern Γ ℤ) (n : ℤ) (m : Γ) (c : ℤ) (σ : List ℤ) : Prop where
  perm : σ.Perm ((List.range n.toNat).map Int.ofNat)
  numbers : ipat.query ⟨⟨c, c + 1⟩, m⟩ = (List.range n.toNat).map fun k =>
    ⟨⟨[]⟩, some ⟨c + k / n, c + (k + 1 : ℕ) / n⟩, ⟨c + k / n, c + (k + 1 : ℕ) / n⟩, σ.getD k 0⟩
  slices : ∀ {α : Type} (p : Pattern Γ α), CutFree p → ∀ k < n.toNat, ∀ f : ℚ, 0 ≤ f → f < 1 →
    ∀ a, isIn a (c + (k + f) / n) →
      (act (_rearrangeWith ipat n p) m a (c + (k + f) / n)).map Prod.snd =
        (behaviour p m (c + (σ.getD k 0 + f) / n)).map Prod.snd

theorem length_timeToRands' (seed : BitVec 64) (k : ℕ) : (timeToRands' seed k).length = k := by
  induction k generalizing seed with
  | zero => rfl
  | succ k ih => rw [timeToRands', List.length_cons, ih]

/-- **Each slice of the cycle is heard once per cycle.** Whatever numbers are drawn, `randrun` numbers the
slots of a cycle with a permutation, and the slices of the pattern are played in this order. -/
theorem shuffle_slices (n : ℤ) (hn : 1 ≤ n) (m : Γ) (c : ℤ) :
    (∀ (κ : Type) [LinearOrder κ] (rands : Time → List κ), (∀ s, (rands s).length = n.toNat) →
      ∃ σ, Shuffles (randrunWith rands n) n m c σ) ∧
    (∃ σ, Shuffles (randrun n) n m c σ) ∧
    ∀ p : Pattern Γ α, _shuffle n p = _rearrangeWith (randrun n) n p := by
  have hall : ∀ (κ : Type) [LinearOrder κ] (rands : Time → List κ), (∀ s, (rands s).length = n.toNat) →
      ∃ σ, Shuffles (randrunWith rands n) n m c σ := by
    intro κ _ rands h
    refine ⟨shuffled n (rands c), shuffled_perm (h _), randrunWith_cycle hn h m c, ?_⟩
    intro α p hp k hk f hf0 hf1 a hat
    have hpos : (n : Time) ≠ 0 := by exact_mod_cast (show n ≠ 0 by omega)
    have htn : ((c : Time) + (k + f) / n) * n = c * n + k + f := by field_simp; ring
    have ht : ⌊((c : Time) + (k + f) / n) * n⌋ = c * n + k := by
      rw [htn, Int.floor_eq_iff]
      push_cast
      constructor <;> linarith
    obtain ⟨h0, hlt⟩ := shuffled_lt (h c) hk
    rw [act_rearrangeWith hn hp hat fun e he => mem_randrunWith hn h (isIn_pos hat) he,
      act_randrunWith hn h hat hk ht, TaggedBag.bind_singleton, Multiset.map_map, behaviour,
      act_repeated hn hp h0 hlt (isIn_now _) hk ht, Multiset.map_map, htn, add_sub_cancel_left]
    rfl
  exact ⟨hall, hall ℚ (fun s => timeToRands s n) fun s => length_timeToRands' _ _, fun _ => rfl⟩

/-- Two halves whose keys are the same. -/
theorem shuffle_slices_tie :
    ∃ σ : List ℤ, σ.Perm [0, 1] ∧
      (act (_rearrangeWith (randrunWith (fun _ => [(0 : ℕ), 0]) 2) 2 offbeat) () ⟨0, 1⟩
        ((0 : ℤ) + ((1 : ℕ) + 1 / 2) / (2 : ℤ))).map Prod.snd =
          (behaviour offbeat () ((0 : ℤ) + (σ.getD 1 0 + 1 / 2) / (2 : ℤ))).map Prod.snd := by
  obtain ⟨hall, -, -⟩ := shuffle_slices (α := ℕ) 2 (by decide) () 0
  obtain ⟨σ, hσ⟩ := hall ℕ (fun _ => [0, 0]) fun _ => rfl
  exact ⟨σ, hσ.perm, hσ.slices offbeat regular_offbeat.seamless.cutFree 1 (by decide) (1 / 2) (by norm_num)
    (by norm_num) ⟨0, 1⟩ (by constructor <;> norm_num)⟩

end Tidal
