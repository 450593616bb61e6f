import Tidal.Proofs.ZoomProofs
import Tidal.Proofs.PureValueProofs

/-!
# Cycles dealt out and put together

`cat` plays the cycles of its patterns in turn; `separateCycles` deals the cycles of one pattern out to
`n` patterns. The first is a bijection between the cycles and the pairs of a pattern and a cycle of it;
the second is its inverse as far as the moments go, but not for the wholes.
-/

namespace Tidal

open Pattern EventF

variable {Γ α : Type} {p : Pattern Γ α} {m : Γ} {a b : Arc} {t : Time}

/-! ## Which cycle of which pattern -/

/-- How many cycles of its own a pattern has played when cycle `c` begins. -/
theorem sub_catOffset {ps : List (Pattern Γ α)} (h : ps ≠ []) (c : ℤ) :
    (c : Time) - catOffset ps c = ((c / ps.length : ℤ) : Time) := by
  have hn : (ps.length : ℤ) ≠ 0 := by exact_mod_cast List.length_pos_iff.mpr h |>.ne'
  have hdiv : c - c % ps.length = ps.length * (c / ps.length) := by
    have := Int.emod_add_mul_ediv c ps.length
    omega
  rw [catOffset, hdiv, Int.mul_ediv_cancel_left _ hn]
  push_cast
  ring

/-- Cycle `k` of pattern `i` is played in cycle `k * n + i`, and in no other. -/
theorem catIndex_iff {ps : List (Pattern Γ α)} {i : ℕ} (hi : i < ps.length) (k c : ℤ) :
    catIndex ps c = i ∧ (c : Time) - catOffset ps c = k ↔ c = k * ps.length + i := by
  have hn : (0 : ℤ) < ps.length := by omega
  have h0 := Int.emod_nonneg c hn.ne'
  rw [sub_catOffset (List.ne_nil_of_length_pos (by omega)), Int.cast_inj, catIndex]
  constructor
  · rintro ⟨hmod, hk⟩
    have := Int.emod_add_mul_ediv c ps.length
    rw [hk, mul_comm] at this
    omega
  · intro hc
    obtain ⟨hk, hmod⟩ := (Int.ediv_emod_unique (a := c) (r := i) (q := k) hn).mpr
      ⟨by rw [hc]; ring, by omega, by omega⟩
    exact ⟨by omega, hk⟩

/-- What `cat` plays at a moment of cycle `k * n + i`. -/
theorem act_cat_cycle {ps : List (Pattern Γ α)} (hl : ∀ p ∈ ps, Local p) (hs : ∀ p ∈ ps, Steady p)
    {i : ℕ} (hi : i < ps.length) {k : ℤ} (hc : ⌊t⌋ = k * ps.length + i) (hat : isIn a t) :
    act (cat ps) m a t = (behaviour ps[i] m (t - ⌊t⌋ + k)).map
      (onWhole (ArcF.map (· + ((⌊t⌋ : Time) - k)))) := by
  rcases Nat.lt_or_ge 1 ps.length with hlen | hlen
  · obtain ⟨hindex, hoff⟩ := (catIndex_iff hi k ⌊t⌋).mpr hc
    have ho : catOffset ps ⌊t⌋ = ⌊t⌋ - k := by linarith
    rw [act_cat hlen hl hat, hindex, List.getD_eq_getElem _ _ hi, ho,
      (hs _ (List.getElem_mem hi)).act_eq m (isIn_map_sub.mpr (isIn_piece hat))]
    congr 2
    ring
  · -- a single pattern plays all of its cycles, where they are
    obtain ⟨p, rfl⟩ := List.length_eq_one_iff.mp (show ps.length = 1 by omega)
    obtain rfl : i = 0 := by simpa using hi
    have hk : (k : Time) = ⌊t⌋ := by rw [hc]; push_cast; simp
    have hid : (onWhole (ArcF.map (· + ((⌊t⌋ : Time) - k))) : Option Arc × α → _) = id := by
      rw [hk]; funext x; obtain ⟨w, v⟩ := x; cases w <;> simp [onWhole, ArcF.map]
    rw [hid, Multiset.map_id, hk, sub_add_cancel]
    exact (hs p (List.mem_singleton_self p)).act_eq m hat

/-- Each cycle of each pattern in turn, none skipped and none repeated. -/
theorem cat_cycles (ps : List (Pattern Γ α)) (hps : ∀ p ∈ ps, Seamless p) (m : Γ) :
    (∀ (a : Arc) (t : Time) (k : ℤ) (i : ℕ) (hi : i < ps.length), ⌊t⌋ = k * ps.length + i → isIn a t →
      act (cat ps) m a t = (behaviour ps[i] m (t - ⌊t⌋ + k)).map
        (onWhole (ArcF.map (· + ((⌊t⌋ : Time) - k))))) ∧
    (∀ (i : ℕ), i < ps.length → ∀ k c : ℤ,
      catIndex ps c = i ∧ (c : Time) - catOffset ps c = k ↔ c = k * ps.length + i) :=
  ⟨fun _ _ _ _ hi hc hat =>
      act_cat_cycle (fun p hp => (hps p hp).isLocal) (fun p hp => (hps p hp).steady) hi hc hat,
    fun _ hi k c => catIndex_iff hi k c⟩

theorem cat_cycles_offbeat :
    (∀ (a : Arc) (t : Time) (k : ℤ) (i : ℕ) (hi : i < [offbeat, Pattern.pure 1].length),
      ⌊t⌋ = k * [offbeat, Pattern.pure 1].length + i → isIn a t →
        act (cat [offbeat, Pattern.pure 1]) () a t =
          (behaviour [offbeat, Pattern.pure 1][i] () (t - ⌊t⌋ + k)).map
            (onWhole (ArcF.map (· + ((⌊t⌋ : Time) - k))))) ∧
    (∀ (i : ℕ), i < [offbeat, Pattern.pure 1].length → ∀ k c : ℤ,
      catIndex [offbeat, Pattern.pure 1] c = i ∧ (c : Time) - catOffset [offbeat, Pattern.pure 1] c = k ↔
        c = k * [offbeat, Pattern.pure 1].length + i) :=
  cat_cycles [offbeat, Pattern.pure 1] (fun p hp => by
    rcases List.mem_cons.mp hp with rfl | hp
    · exact regular_offbeat.seamless
    · rw [List.mem_singleton.mp hp]; exact (regular_pure 1).seamless) ()

/-! ## Every `n`th cycle -/

/-- How `skip` moves the arc of an answer: relative to the cycle in which that arc starts. -/
def skipArc (n : ℤ) : Arc → Arc := moveStart fun t => sam t / n + cyclePos t

/-- What `skip` does with a piece of its query. -/
def skipPiece (n : ℤ) (q : Pattern Γ α) (m : Γ) (b : Arc) : List (Event α) :=
  (q.query ⟨moveStart (fun t => sam t * n + cyclePos t) b, m⟩).map (mapArc (skipArc n))

theorem moveStart_skip (n : ℤ) (b : Arc) :
    moveStart (fun t => sam t * n + cyclePos t) b = b.map (· + ⌊b.start⌋ * ((n : Time) - 1)) := by
  simp only [moveStart, ArcF.map, cyclePos, sam]
  congr 1 <;> ring

theorem activeIn_skipPiece {q : Pattern Γ α} (hl : Local q) {n : ℤ} (hn : 1 ≤ n)
    (hb : b.start < b.stop) (hnext : b.stop ≤ nextSam b.start) :
    activeIn (skipPiece n q m b) t =
      (act q m (b.map (· + ⌊b.start⌋ * ((n : Time) - 1))) (t + ⌊b.start⌋ * ((n : Time) - 1))).map
        (onWhole (skipArc n)) := by
  have hn0 : (n : Time) ≠ 0 := by exact_mod_cast (by omega : n ≠ 0)
  rw [skipPiece, moveStart_skip]
  refine activeIn_warp hl (add_lt_add_left hb _) (fun x hx hin => ?_) fun x hx => ?_
  · -- the answers start in the cycle that is asked
    have hsam : sam x.start = ((⌊b.start⌋ * n : ℤ) : Time) := by
      obtain ⟨h1, -, h3⟩ := hin
      have hle := sam_le b.start
      simp only [ArcF.map, nextSam, sam] at h1 h3 hnext hle
      refine sam_eq ?_ (hx.trans_le (h3.trans ?_)) <;> push_cast <;> linarith
    simp only [isIn, skipArc, moveStart, cyclePos, hsam]
    push_cast
    rw [mul_div_assoc, div_self hn0]
    constructor <;> rintro ⟨h1, h2⟩ <;> constructor <;> linarith
  · have := isIn_pos hx
    simp only [skipArc, moveStart] at this
    linarith

theorem activeIn_skipPiece_eq_zero {q : Pattern Γ α} (hl : Local q) {n : ℤ} (hn : 1 ≤ n)
    (hb : b.start < b.stop) (hnext : b.stop ≤ nextSam b.start) (hbt : ¬ isIn b t) :
    activeIn (skipPiece n q m b) t = 0 := by
  rw [activeIn_skipPiece hl hn hb hnext, hl _ m _ (add_lt_add_left hb _) fun hin =>
    hbt (by simpa [isIn, ArcF.map] using hin)]
  rfl

theorem Local.skip {q : Pattern Γ α} (h : Local q) {n : ℤ} (hn : 1 ≤ n) : Local (skip n q) :=
  fun _ m _ ha hat => activeIn_cycles_eq_zero (g := skipPiece n q m) ha hat fun _ hb hnext hbt =>
    activeIn_skipPiece_eq_zero h hn hb hnext hbt

theorem act_skip {q : Pattern Γ α} (hl : Local q) (hs : Steady q) {n : ℤ} (hn : 1 ≤ n) (hat : isIn a t) :
    act (skip n q) m a t =
      (behaviour q m (t + ⌊t⌋ * ((n : Time) - 1))).map (onWhole (skipArc n)) := by
  have hin := isIn_piece hat
  have hmem : sect a (timeToCycleArc t) ∈ arcCyclesZW a := by
    obtain ⟨l₁, l₂, hl, _⟩ := arcCyclesZW_split hat
    rw [hl]; simp
  have hpiece : act (skip n q) m a t = activeIn (skipPiece n q m (sect a (timeToCycleArc t))) t :=
    act_cycles (g := fun st => skipPiece n q st.controls st.arc) hat fun b hb hnext hbt =>
      activeIn_skipPiece_eq_zero hl hn hb hnext hbt
  rw [hpiece, activeIn_skipPiece hl hn (isIn_pos hin) (piece_of_mem hmem).stop_le_nextSam,
    floor_piece_start hat, hs.act_eq m (isIn_map_add hin)]

theorem Steady.skip {q : Pattern Γ α} (hl : Local q) (hs : Steady q) {n : ℤ} (hn : 1 ≤ n) :
    Steady (skip n q) := by
  intro a b m t ha hb
  rw [act_skip hl hs hn ha, act_skip hl hs hn hb]

/-! ## Dealt out and put together -/

/-- Where `cat (separateCycles n p)` has a whole that `p` plays in cycle `c`: too late by a part of the
cycles by which it starts before. -/
def lateBy (n c : ℤ) (w : Arc) : Time := ((c : Time) - sam w.start) * (1 - 1 / n)

/-- A whole that copy `i` has dealt out, put back into cycle `k * n + i`. -/
theorem map_skipArc {n k c : ℤ} {i : ℕ} (hn : 1 ≤ n) (hc : c = k * n + i) (w : Arc) :
    (skipArc n (w.map (· - (i : Time)))).map (· + ((c : Time) - k)) = w.map (· + lateBy n c w) := by
  have hn0 : (n : Time) ≠ 0 := by exact_mod_cast (by omega : n ≠ 0)
  have hsam : sam (w.start - i) = sam w.start - i := by
    simp only [sam, Int.floor_sub_natCast]
    push_cast
    ring
  simp only [ArcF.map, skipArc, moveStart, cyclePos, hsam, lateBy, hc]
  push_cast
  congr 1 <;> field_simp <;> ring

theorem act_cat_separateCycles (hl : Local p) (hs : Steady p) {n : ℤ} (hn : 1 ≤ n) (hat : isIn a t) :
    act (cat (separateCycles n p)) m a t =
      (behaviour p m t).map (onWhole fun w => w.map (· + lateBy n ⌊t⌋ w)) := by
  have hlen : (separateCycles n p).length = n.toNat := by simp [separateCycles]
  have hmod := Int.emod_nonneg ⌊t⌋ (show n ≠ 0 by omega)
  have hlt := Int.emod_lt_of_pos ⌊t⌋ (show 0 < n by omega)
  -- the moment belongs to cycle `k` of copy `i`
  set i := (⌊t⌋ % n).toNat with hi
  set k := ⌊t⌋ / n with hk
  have hc : ⌊t⌋ = k * n + i := by
    have := Int.emod_add_mul_ediv ⌊t⌋ n
    rw [hi, Int.toNat_of_nonneg hmod, hk, mul_comm]
    omega
  have hii : i < (separateCycles n p).length := by rw [hlen]; omega
  have hget : (separateCycles n p)[i] = skip n (rotL (i : Time) p) := by simp [separateCycles]
  have hl' : ∀ j : ℕ, Local (rotL (j : Time) p) := fun j => hl.rotL _
  have hs' : ∀ j : ℕ, Steady (rotL (j : Time) p) := fun j => steady_rotL _ hs
  have hq : ∀ q ∈ separateCycles n p, Local q ∧ Steady q := by
    intro q hq
    obtain ⟨j, -, rfl⟩ := List.mem_map.mp hq
    exact ⟨(hl' j).skip hn, Steady.skip (hl' j) (hs' j) hn⟩
  have hfloor : ⌊t - ⌊t⌋ + k⌋ = k := by
    rw [Int.floor_add_intCast, Int.floor_sub_intCast, sub_self, zero_add]
  have hmoment : t - ⌊t⌋ + k + k * ((n : Time) - 1) + i = t := by
    rw [hc]
    push_cast
    ring
  rw [act_cat_cycle (fun q h => (hq q h).1) (fun q h => (hq q h).2) hii
    (by rw [hlen, Int.toNat_of_nonneg (by omega)]; exact hc) hat, hget, behaviour,
    act_skip (hl' i) (hs' i) hn (isIn_now _), hfloor, behaviour, act_rotL,
    hs.act_eq m (isIn_map_add (isIn_now _)), hmoment, Multiset.map_map, Multiset.map_map]
  refine Multiset.map_congr rfl fun x _ => ?_
  obtain ⟨w, v⟩ := x
  cases w with
  | none => rfl
  | some w => simp only [Function.comp, onWhole, Option.map_some, map_skipArc hn hc]

theorem lateBy_nonneg {n c : ℤ} (hn : 1 ≤ n) {w : Arc} (hw : sam w.start ≤ c) : 0 ≤ lateBy n c w := by
  have : 1 / (n : Time) ≤ 1 := by
    rw [div_le_one (by exact_mod_cast (by omega : 0 < n))]; exact_mod_cast hn
  exact mul_nonneg (sub_nonneg.mpr hw) (sub_nonneg.mpr this)

theorem lateBy_eq_zero_iff {n c : ℤ} {w : Arc} : lateBy n c w = 0 ↔ n = 1 ∨ sam w.start = c := by
  rw [lateBy, mul_eq_zero, sub_eq_zero, sub_eq_zero, or_comm, eq_comm (a := (c : Time))]
  refine or_congr_left ⟨fun h => ?_, fun h => by rw [h]; norm_num⟩
  rw [eq_comm, one_div, inv_eq_one] at h
  exact_mod_cast h

/-- Dealing the cycles out and putting them together again gives the pattern back at a moment exactly
when every whole that is active there starts in the cycle of the moment, or there is only one pattern to
deal to. -/
theorem cat_separateCycles_iff (p : Pattern Γ α) (hp : Seamless p) (n : ℤ) (hn : 1 ≤ n) (m : Γ)
    (t : Time) :
    (∀ a, isIn a t → act (cat (separateCycles n p)) m a t = behaviour p m t) ↔
      n = 1 ∨ ∀ x ∈ behaviour p m t, ∀ w, x.1 = some w → sam t ≤ w.start := by
  have hcat := fun a (hat : isIn a t) => act_cat_separateCycles (m := m) hp.isLocal hp.steady hn hat
  have hsam : ∀ {w : Arc}, isIn w t → sam w.start ≤ ⌊t⌋ := fun hw => sam_mono hw.1
  constructor
  · intro h
    have hmap : (behaviour p m t).map (onWhole fun w => w.map (· + lateBy n ⌊t⌋ w)) =
        (behaviour p m t).map id := by
      rw [Multiset.map_id, ← hcat _ (isIn_now t)]
      exact h _ (isIn_now t)
    -- no whole comes too early, so one that comes too late would be missed
    have hon := eq_of_map_eq (f := onsetOf) (fun x hx => ?_) hmap
    · refine or_iff_not_imp_left.mpr fun hne x hx w hw => ?_
      obtain ⟨x, v⟩ := x
      obtain rfl : x = some w := hw
      have hlate := hon _ hx
      simp only [onsetOf, onWhole, Option.map_some, Option.elim_some, ArcF.map, id, add_eq_left] at hlate
      have hstart : sam w.start = ⌊t⌋ := (lateBy_eq_zero_iff.mp hlate).resolve_left hne
      rw [sam, ← hstart]
      exact sam_le _
    · obtain ⟨w, hw, hwt⟩ := hp.whole_isIn hx
      obtain ⟨x, v⟩ := x
      obtain rfl : x = some w := hw
      simp only [onsetOf, onWhole, Option.map_some, Option.elim_some, ArcF.map, id]
      exact le_add_of_nonneg_right (lateBy_nonneg hn (hsam hwt))
  · intro h a hat
    rw [hcat a hat]
    conv_rhs => rw [← Multiset.map_id (behaviour p m t)]
    refine Multiset.map_congr rfl fun x hx => ?_
    obtain ⟨w, hw, hwt⟩ := hp.whole_isIn hx
    have hzero : lateBy n ⌊t⌋ w = 0 := lateBy_eq_zero_iff.mpr <| h.imp_right fun h =>
      le_antisymm (hsam hwt) (by have := sam_mono (h x hx w hw); rwa [sam_sam] at this)
    obtain ⟨x, v⟩ := x
    obtain rfl : x = some w := hw
    simp [onWhole, ArcF.map, hzero]

theorem cat_separateCycles_iff_offbeat :
    (∀ a, isIn a 0 → act (cat (separateCycles 2 offbeat)) () a 0 = behaviour offbeat () 0) ↔
      (2 : ℤ) = 1 ∨ ∀ x ∈ behaviour offbeat () 0, ∀ w, x.1 = some w → sam 0 ≤ w.start :=
  cat_separateCycles_iff offbeat regular_offbeat.seamless 2 (by norm_num) () 0

/-- An event from half a cycle before a boundary to half a cycle after it: its second half comes back as
the beginning of an event. -/
theorem cat_separateCycles_onset :
    Seamless offbeat ∧ behaviour offbeat () 0 = {(some ⟨-1 / 2, 1 / 2⟩, 0)} ∧
    act (cat (separateCycles 2 offbeat)) () ⟨0, 1⟩ 0 = {(some ⟨0, 1⟩, 0)} :=
  ⟨regular_offbeat.seamless, by with_unfolding_all decide, by with_unfolding_all decide⟩

end Tidal
