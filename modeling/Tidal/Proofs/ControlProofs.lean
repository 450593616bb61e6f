import Tidal.Control
import Tidal.Proofs.ChewProofs
import Tidal.Proofs.StepsProofs

/-!
# Proofs: parts of samples

`_chop` and `_striate` both cut the range of a sample into equal parts, `_chop` only where the range has both
of its ends as numbers. `slice` cuts the range from 0 to 1, and leaves it to its pattern to have the last word.
-/

namespace Tidal

open EventF Pattern

variable {Γ S α : Type} {m : Γ} {a : Arc} {t : Time} {n : ℤ} {v : ValueMap S}

/-! ## Ranges of control maps -/

section Ranges

variable {r r' : ℚ × ℚ}

/-- The map plays the range from `r.1` to `r.2`. -/
def PlaysRange (v : ValueMap S) (r : ℚ × ℚ) : Prop := v["begin"]? = some (.VF r.1) ∧ v["end"]? = some (.VF r.2)

/-- The map with the range `r`. -/
def setRange (v : ValueMap S) (r : ℚ × ℚ) : ValueMap S := (v.insert "end" (.VF r.2)).insert "begin" (.VF r.1)

theorem getElem?_setRange (v : ValueMap S) (r : ℚ × ℚ) (k : String) :
    (setRange v r)[k]? =
      if k = "begin" then some (.VF r.1) else if k = "end" then some (.VF r.2) else v[k]? := by
  rw [setRange, Std.ExtTreeMap.getElem?_insert, Std.ExtTreeMap.getElem?_insert]
  simp only [compare_eq_iff_eq, eq_comm (b := k)]

theorem playsRange_setRange : PlaysRange (setRange v r) r' ↔ r = r' := by
  obtain ⟨b, e⟩ := r
  obtain ⟨b', e'⟩ := r'
  simp [PlaysRange, getElem?_setRange]

theorem getElem?_union (x y : ValueMap S) (k : String) : (Map.union x y)[k]? = x[k]?.or y[k]? :=
  Std.ExtTreeMap.getElem?_union

theorem getElem?_makeMap (r : ℚ × ℚ) (k : String) :
    (makeMap r : ValueMap S)[k]? =
      if k = "begin" then some (.VF r.1) else if k = "end" then some (.VF r.2) else none := by
  rw [makeMap, Std.ExtTreeMap.getElem?_insert, Std.ExtTreeMap.getElem?_insert]
  simp only [compare_eq_iff_eq, eq_comm (b := k)]
  by_cases hb : k = "begin"
  · simp [hb]
  · simp [hb]

theorem union_makeMap (v : ValueMap S) (r : ℚ × ℚ) : Map.union (makeMap r) v = setRange v r := by
  refine Std.ExtTreeMap.ext_getElem? fun k => ?_
  rw [getElem?_union, getElem?_makeMap, getElem?_setRange]
  split_ifs <;> rfl

end Ranges

/-! ## Granulators -/

/-- Where the range of the map begins. -/
def beginOf (v : ValueMap S) : ℚ := (v.number "begin").getD 0

/-- Where the range of the map ends. -/
def endOf (v : ValueMap S) : ℚ := (v.number "end").getD 1

/-- The map has both ends of its range as numbers. -/
def Bounded (v : ValueMap S) : Prop := (v.number "begin").isSome ∧ (v.number "end").isSome

instance : Decidable (Bounded v) := inferInstanceAs (Decidable (_ ∧ _))

/-- The part of the range of a map between two fractions of it. -/
def partOf (v : ValueMap S) (be : ℚ × ℚ) : ℚ × ℚ :=
  (beginOf v + be.1 * (endOf v - beginOf v), beginOf v + be.2 * (endOf v - beginOf v))

theorem mergePlayRange_eq (be : ℚ × ℚ) (v : ValueMap S) : mergePlayRange be v = setRange v (partOf v be) := by
  have hpart : partOf v be = (be.1 * (endOf v - beginOf v) + beginOf v,
      be.2 * (endOf v - beginOf v) + beginOf v) := Prod.ext (add_comm _ _) (add_comm _ _)
  rw [hpart]
  rfl

/-- Without both ends, the range of the map is not looked at. -/
theorem rangemap_eq (v : ValueMap S) (be : ℚ × ℚ) :
    rangemap v be = setRange v (if Bounded v then partOf v be else be) := by
  unfold rangemap merge
  cases hb : v.number "begin" with
  | none => simp [Bounded, hb, union_makeMap]
  | some b =>
    cases he : v.number "end" with
    | none => simp [Bounded, he, union_makeMap]
    | some e => simp [Bounded, partOf, beginOf, endOf, hb, he, union_makeMap]

theorem chopPieces_getElem? (n : ℤ) (v : ValueMap S) {i : ℕ} (hi : i < n.toNat) :
    (chopPieces n v)[i]? = some (rangemap v (i / n, (i + 1) / n)) := by
  simp [chopPieces, chopSlices, hi]

theorem length_chopPieces (n : ℤ) (v : ValueMap S) : (chopPieces n v).length = n.toNat := by
  simp [chopPieces, chopSlices]

/-- Edge `i` of the `n` equal parts of the range of a map. -/
def edge (n : ℤ) (v : ValueMap S) (i : ℕ) : ℚ := beginOf v + i * (endOf v - beginOf v) / n

theorem partOf_eq_edge (n : ℤ) (v : ValueMap S) (i : ℕ) :
    partOf v ((i : ℚ) / n, ((i : ℚ) + 1) / n) = (edge n v i, edge n v (i + 1)) := by
  simp only [partOf, edge]
  push_cast
  congr 1 <;> ring

theorem edge_zero (n : ℤ) (v : ValueMap S) : edge n v 0 = beginOf v := by simp [edge]

theorem edge_last (hn : 1 ≤ n) (v : ValueMap S) : edge n v n.toNat = endOf v := by
  have hpos : (n : ℚ) ≠ 0 := by exact_mod_cast (show n ≠ 0 by omega)
  have hcast : ((n.toNat : ℕ) : ℚ) = n := by exact_mod_cast Int.toNat_of_nonneg (show 0 ≤ n by omega)
  rw [edge, hcast, mul_div_cancel_left₀ _ hpos]
  ring

/-- Piece `i` of a map plays part `i` of its range, and is what `_striate` makes of it. -/
def ChopsTo (n : ℤ) (v : ValueMap S) (i : ℕ) : Prop :=
  ∃ u, (chopPieces n v)[i]? = some u ∧ PlaysRange u (edge n v i, edge n v (i + 1)) ∧
    u = mergePlayRange ((i : ℚ) / n, ((i : ℚ) + 1) / n) v

theorem chopsTo_iff {i : ℕ} (hi : i < n.toNat) :
    ChopsTo n v i ↔ Bounded v ∨ (edge n v i, edge n v (i + 1)) = ((i : ℚ) / n, ((i : ℚ) + 1) / n) := by
  unfold ChopsTo
  rw [chopPieces_getElem? n v hi, mergePlayRange_eq, partOf_eq_edge, rangemap_eq, partOf_eq_edge]
  simp only [Option.some.injEq, exists_eq_left', playsRange_setRange]
  by_cases hb : Bounded v
  · simp [hb]
  · rw [if_neg hb, or_iff_right hb]
    constructor
    · intro h
      exact h.1.symm
    · intro h
      rw [h]
      exact ⟨rfl, rfl⟩

/-- The pieces are the parts of the range if and only if it has both ends, or is all of the sample. -/
theorem forall_chopsTo_iff (hn : 1 ≤ n) (v : ValueMap S) :
    (∀ i < n.toNat, ChopsTo n v i) ↔ Bounded v ∨ (beginOf v = 0 ∧ endOf v = 1) := by
  have hpos : (n : ℚ) ≠ 0 := by exact_mod_cast (show n ≠ 0 by omega)
  by_cases hb : Bounded v
  · exact iff_of_true (fun i hi => (chopsTo_iff hi).mpr (Or.inl hb)) (Or.inl hb)
  rw [or_iff_right hb]
  constructor
  · intro h
    have hfirst := ((chopsTo_iff (by omega)).mp (h 0 (by omega))).resolve_left hb
    have hlast := ((chopsTo_iff (by omega)).mp (h (n.toNat - 1) (by omega))).resolve_left hb
    have hend : n.toNat - 1 + 1 = n.toNat := by omega
    have hcast : ((n.toNat - 1 : ℕ) : ℚ) + 1 = n := by
      have hcast' : ((n.toNat - 1 : ℕ) : ℤ) + 1 = n := by omega
      exact_mod_cast hcast'
    rw [hend, edge_last hn, hcast, div_self hpos] at hlast
    rw [edge_zero] at hfirst
    refine ⟨?_, (Prod.mk.inj hlast).2⟩
    rw [(Prod.mk.inj hfirst).1]
    simp
  · rintro ⟨h0, h1⟩ i hi
    refine (chopsTo_iff hi).mpr (Or.inr ?_)
    simp only [edge, h0, h1]
    push_cast
    congr 1 <;> ring

/-! ## What is played of the pieces -/

section Pieces

variable {w : Arc} {p : Pattern Γ (ValueMap S)}

/-- The number of the piece that is heard at `t` in the whole `w`. -/
def pieceAt (n : ℤ) (w : Arc) (t : Time) : ℕ := (⌊(fromSpan w t + drift w) * n⌋ % n).toNat

theorem pieceAt_lt (hn : 1 ≤ n) : pieceAt n w t < n.toNat := by
  have h0 := Int.emod_nonneg ⌊(fromSpan w t + drift w) * n⌋ (show n ≠ 0 by omega)
  have h1 := Int.emod_lt_of_pos ⌊(fromSpan w t + drift w) * n⌋ (show 0 < n by omega)
  unfold pieceAt
  omega

/-- Unless the cycle that is squeezed into the whole is cut, the pieces are played in order. -/
theorem pieceAt_eq (hn : 1 ≤ n) (hw : w.start < w.stop) {z : ℤ} (hz : drift w = z) {i : ℕ} (hi : i < n.toNat)
    (ht : isIn ⟨w.start + i * (w.stop - w.start) / n, w.start + (i + 1) * (w.stop - w.start) / n⟩ t) :
    pieceAt n w t = i := by
  have hpos : (0 : Time) < n := by exact_mod_cast hn
  have hd := sub_pos.mpr hw
  have htime : (fromSpan w t + drift w) * n =
      ((⌊w.start⌋ + z) * n : ℤ) + (t - w.start) / (w.stop - w.start) * n := by
    rw [fromSpan, hz, sam]
    push_cast
    ring
  have hfloor : ⌊(t - w.start) / (w.stop - w.start) * n⌋ = i := by
    obtain ⟨h1, h2⟩ := ht
    simp only at h1 h2
    have hlo : i * (w.stop - w.start) ≤ (t - w.start) * n := by
      rw [← div_le_iff₀ hpos]
      linarith
    have hhi : (t - w.start) * n < (i + 1) * (w.stop - w.start) := by
      rw [← lt_div_iff₀ hpos]
      linarith
    rw [Int.floor_eq_iff, div_mul_eq_mul_div, le_div_iff₀ hd, div_lt_iff₀ hd]
    push_cast
    exact ⟨hlo, hhi⟩
  have hmod : ((⌊w.start⌋ + z) * n + i) % n = i := by
    rw [add_comm, Int.add_mul_emod_self_right]
    exact Int.emod_eq_of_lt (by omega) (by omega)
  rw [pieceAt, htime, Int.floor_intCast_add, hfloor, hmod, Int.toNat_natCast]

theorem squeezedAt_pieces (hn : 1 ≤ n) (hw : isIn w t) (v : ValueMap S) :
    (squeezedAt m t w (fastFromList (chopPieces n v) : Pattern Γ (ValueMap S))).map Prod.snd =
      {(chopPieces n v).getD (pieceAt n w t) ∅} := by
  have hpos := isIn_pos hw
  have hlen : ((chopPieces n v).length : ℤ) = n := by
    rw [length_chopPieces]
    omega
  have hlen' : ((chopPieces n v).length : Time) = n := by exact_mod_cast hlen
  have hlt : pieceAt n w t < (chopPieces n v).length := by
    rw [length_chopPieces]
    exact pieceAt_lt hn
  have hpiece : ((pieceAt n w t : ℕ) : ℤ) = ⌊(fromSpan w t + drift w) * n⌋ % n :=
    Int.toNat_of_nonneg (Int.emod_nonneg _ (by omega))
  have hfloor : ⌊(fromSpan w t + drift w) * (chopPieces n v).length⌋ =
      (⌊(fromSpan w t + drift w) * n⌋ / n) * (chopPieces n v).length + pieceAt n w t := by
    rw [hlen', hlen, hpiece]
    exact (Int.ediv_mul_add_emod _ _).symm
  have hplays := behaviour_fastFromList (m := m) hlt hfloor
  set z : Arc := ⟨(⌊(fromSpan w t + drift w) * n⌋ / n : ℤ) + pieceAt n w t / (chopPieces n v).length,
    (⌊(fromSpan w t + drift w) * n⌋ / n : ℤ) + (pieceAt n w t + 1) / (chopPieces n v).length⟩ with hz
  have hzt : isIn z (fromSpan w t + drift w) := by
    have hmem : (some z, (chopPieces n v)[pieceAt n w t]) ∈
        behaviour (fastFromList (chopPieces n v) : Pattern Γ (ValueMap S)) m (fromSpan w t + drift w) := by
      rw [hplays]
      exact Multiset.mem_singleton_self _
    obtain ⟨z', hz', hin⟩ := (regular_fastFromList _).seamless.whole_isIn hmem
    rwa [Option.some.inj hz']
  have hheard : isIn ((z.map (· - drift w)).map (intoSpan w)) t := by
    have hback : isIn (z.map (· - drift w)) (fromSpan w t + drift w - drift w) := isIn_map_sub.mpr hzt
    rw [add_sub_cancel_right] at hback
    exact (isIn_map_intoSpan hpos).mpr hback
  have hclip : clip w (some ((z.map (· - drift w)).map (intoSpan w)), (chopPieces n v)[pieceAt n w t]) =
      some (some (sect w ((z.map (· - drift w)).map (intoSpan w))), (chopPieces n v)[pieceAt n w t]) := by
    simp [clip, subMaybeArc, subArc_of_isIn hw hheard]
  rw [squeezedAt, oneCycle, hplays, List.getD_eq_getElem _ _ hlt]
  simp only [Multiset.map_singleton, onWhole, Option.map_some]
  rw [← Multiset.cons_zero, Multiset.filterMap_cons_some _ _ _ hclip]
  rfl

/-- Of each map, `_chop` plays the piece that is due. -/
theorem act_chop (hn : 1 ≤ n) (hp : Seamless p) (hat : isIn a t) :
    (act (_chop n p) m a t).map Prod.snd = (behaviour p m t).bind fun x => x.1.elim 0 fun w =>
      {(chopPieces n x.2).getD (pieceAt n w t) ∅} := by
  have hsteady : ∀ v : ValueMap S, Steady (fastFromList (chopPieces n v) : Pattern Γ (ValueMap S)) :=
    fun v => (regular_fastFromList _).steady
  have hjoin := act_squeezeJoin_fmap (m := m) hp hsteady hat
  refine (congrArg (Multiset.map Prod.snd) hjoin).trans ?_
  rw [Multiset.map_bind]
  refine Multiset.bind_congr fun x hx => ?_
  obtain ⟨w, hw, hwt⟩ := hp.whole_isIn hx
  rw [hw]
  exact squeezedAt_pieces hn hwt x.2

/-- `_striate` plays part `i` of the ranges in step `i`. -/
theorem striate_query (p : Pattern Γ (ValueMap S)) {c : ℤ} {i : ℕ} (hi : i < n.toNat) {q : Arc}
    (hq : InStep n.toNat c i q) :
    (_striate n p).query ⟨q, m⟩ =
      stepped n.toNat c i (fmap (mergePlayRange ((i : ℚ) / n, ((i : ℚ) + 1) / n)) p) m q := by
  have hlen : (chopSlices n).length = n.toNat := by simp [chopSlices]
  rw [← hlen] at hi hq ⊢
  have hslice : (chopSlices n)[i] = ((i : ℚ) / n, ((i : ℚ) + 1) / n) := by simp [chopSlices]
  rw [← hslice]
  exact fastCat_map_step (fun be => fmap (mergePlayRange be) p) hi hq

/-- **When `_chop` respects the range of a map.** The pieces are the parts of the range, as those of
`_striate` are, if and only if the map has both ends of its range as numbers, or its range is all of the
sample. -/
theorem chop_range_iff (n : ℤ) (hn : 1 ≤ n) (v : ValueMap S) :
    ((∀ i < n.toNat, ChopsTo n v i) ↔ Bounded v ∨ (beginOf v = 0 ∧ endOf v = 1)) ∧
    (chopPieces n v).length = n.toNat ∧
    (∀ i < n.toNat, PlaysRange (mergePlayRange ((i : ℚ) / n, ((i : ℚ) + 1) / n) v)
      (edge n v i, edge n v (i + 1))) ∧
    (edge n v 0 = beginOf v ∧ edge n v n.toNat = endOf v) ∧
    (∀ p : Pattern Γ (ValueMap S), Seamless p → ∀ m a t, isIn a t →
      (act (_chop n p) m a t).map Prod.snd = (behaviour p m t).bind fun x => x.1.elim 0 fun w =>
        {(chopPieces n x.2).getD (pieceAt n w t) ∅}) ∧
    (∀ w : Arc, w.start < w.stop → ∀ z : ℤ, drift w = z → ∀ i < n.toNat, ∀ t,
      isIn ⟨w.start + i * (w.stop - w.start) / n, w.start + (i + 1) * (w.stop - w.start) / n⟩ t →
        pieceAt n w t = i) ∧
    ∀ (p : Pattern Γ (ValueMap S)) (m : Γ) (c : ℤ), ∀ i < n.toNat, ∀ q, InStep n.toNat c i q →
      (_striate n p).query ⟨q, m⟩ =
        stepped n.toNat c i (fmap (mergePlayRange ((i : ℚ) / n, ((i : ℚ) + 1) / n)) p) m q := by
  refine ⟨forall_chopsTo_iff hn v, length_chopPieces n v, fun i _ => ?_, ⟨edge_zero n v, edge_last hn v⟩,
    fun p hp m a t hat => act_chop hn hp hat, fun w hw z hz i hi t ht => pieceAt_eq hn hw hz hi ht,
    fun p m c i hi q hq => striate_query p hi hq⟩
  rw [mergePlayRange_eq, playsRange_setRange, partOf_eq_edge]

end Pieces

/-- A sound from the middle of the sample on. -/
def secondHalf : ValueMap Unit := Map.singleton "begin" (.VF (1 / 2))

theorem chop_range_iff_makeMap :
    Bounded (makeMap (1 / 2, 1) : ValueMap Unit) ∧
      ChopsTo 2 (makeMap (1 / 2, 1) : ValueMap Unit) 0 ∧ ChopsTo 2 (makeMap (1 / 2, 1) : ValueMap Unit) 1 := by
  have hb : Bounded (makeMap (1 / 2, 1) : ValueMap Unit) := by
    simp [Bounded, ValueMap.number, getElem?_makeMap, Value.getF]
  have hall := (chop_range_iff (Γ := Unit) 2 (by decide) (makeMap (1 / 2, 1))).1.mpr (Or.inl hb)
  exact ⟨hb, hall 0 (by decide), hall 1 (by decide)⟩

theorem secondHalf_range : ¬ Bounded secondHalf ∧ beginOf secondHalf = 1 / 2 ∧ endOf secondHalf = 1 := by
  have hbegin : secondHalf.number "begin" = some (1 / 2) := by
    simp [ValueMap.number, secondHalf, Map.singleton, Value.getF]
  have hend : secondHalf.number "end" = none := by
    have hnone : secondHalf["end"]? = none := Map.getElem?_singleton_ne _ (by decide)
    rw [ValueMap.number, hnone]
    rfl
  simp [Bounded, beginOf, endOf, hbegin, hend]

/-- The first piece of a sound from the middle of the sample on starts at the beginning of the sample. -/
theorem chop_secondHalf :
    ¬ (∀ i < (2 : ℤ).toNat, ChopsTo 2 secondHalf i) ∧
    (∃ u, (chopPieces 2 secondHalf)[0]? = some u ∧ PlaysRange u (0, 1 / 2)) ∧
    PlaysRange (mergePlayRange (0, 1 / 2) secondHalf) (1 / 2, 3 / 4) := by
  obtain ⟨hb, hbegin, hend⟩ := secondHalf_range
  refine ⟨?_, ⟨_, chopPieces_getElem? 2 secondHalf (by decide), ?_⟩, ?_⟩
  · rw [forall_chopsTo_iff (by decide), hbegin]
    norm_num [hb]
  · rw [rangemap_eq, if_neg hb, playsRange_setRange]
    norm_num
  · rw [mergePlayRange_eq, playsRange_setRange, partOf, hbegin, hend]
    norm_num

/-! ## Slices -/

section Applied

variable {β : Type} {pf : Pattern Γ (α → β)} {px : Pattern Γ α}

theorem mem_apLeft {st : State Γ} {e : Event β} (he : e ∈ (apLeft pf px).query st) :
    ∃ ef ∈ pf.query st, ∃ ex ∈ px.query { st with arc := ef.wholeOrPart },
      e.whole = ef.whole ∧ e.value = ef.value ex.value := by
  simp only [apLeft, keepTactus, applyPatToPatLeft, pattern, reduceOption_flatMap_map] at he
  obtain ⟨ef, hef, he⟩ := List.mem_flatMap.mp he
  obtain ⟨ex, hex, he⟩ := List.mem_filterMap.mp he
  obtain ⟨p', -, rfl⟩ := withFXWhole_some.mp he
  exact ⟨ef, hef, ex, hex, rfl, rfl⟩

/-- Where the left side is digital, the right one is asked about its wholes. -/
theorem act_apLeft_digital (hd : ∀ e ∈ pf.query ⟨a, m⟩, e.isDigital) :
    act (apLeft pf px) m a t = (act pf m a t).bind fun f => f.1.elim 0 fun w =>
      (act px m w t).map fun y => (some w, f.2 y.2) := by
  rw [act, apLeft, keepTactus, applyPatToPatLeft, pattern]
  simp only [reduceOption_flatMap_map]
  refine activeIn_flatMap fun ef hef => ?_
  obtain ⟨w, hw⟩ := isDigital_iff.mp (hd ef hef)
  simp only [wholeOrPart, hw, Option.getD_some, Option.elim_some]
  rw [activeIn_withFXWhole]
  rfl

end Applied

/-- At `t` the pattern plays `v` in the whole `w` and nothing else, whatever query around `t` is asked. -/
def PlaysOne (p : Pattern Γ α) (m : Γ) (t : Time) (w : Arc) (v : α) : Prop :=
  ∀ b, isIn b t → (∀ e ∈ p.query ⟨b, m⟩, e.isDigital) ∧ act p m b t = {(some w, v)}

section One

variable {β : Type} {w : Arc}

theorem playsOne_pure (v : α) (m : Γ) (t : Time) :
    PlaysOne (Pattern.pure v : Pattern Γ α) m t (timeToCycleArc t) v :=
  fun b hb => ⟨(regular_pure v).digital b m (isIn_pos hb).le, act_pure v hb⟩

theorem Seamless.playsOne {p : Pattern Γ α} (h : Seamless p) {v : α} (hv : behaviour p m t = {(some w, v)}) :
    PlaysOne p m t w v :=
  fun b hb => ⟨h.digital b m (isIn_pos hb).le, (h.steady.act_eq m hb).trans hv⟩

theorem PlaysOne.fmap {p : Pattern Γ α} {v : α} (h : PlaysOne p m t w v) (f : α → β) :
    PlaysOne (fmap f p) m t w (f v) := by
  intro b hb
  obtain ⟨hd, hact⟩ := h b hb
  refine ⟨fun e he => ?_, by rw [act_fmap, hact, Multiset.map_singleton]⟩
  obtain ⟨e', he', rfl⟩ := List.mem_map.mp he
  exact hd e' he'

/-- One event on the left, and one on the right for its whole. -/
theorem PlaysOne.apLeft {pf : Pattern Γ (α → β)} {px : Pattern Γ α} {f : α → β} {x : Option Arc × α}
    (h : PlaysOne pf m t w f) (hx : act px m w t = {x}) : PlaysOne (apLeft pf px) m t w (f x.2) := by
  intro b hb
  obtain ⟨hd, hact⟩ := h b hb
  refine ⟨fun e he => ?_, ?_⟩
  · obtain ⟨ef, hef, -, -, hwhole, -⟩ := mem_apLeft he
    obtain ⟨z, hz⟩ := isDigital_iff.mp (hd ef hef)
    exact isDigital_iff.mpr ⟨z, hwhole.trans hz⟩
  · rw [act_apLeft_digital hd, hact, Multiset.singleton_bind, Option.elim_some, hx, Multiset.map_singleton]

end One

/-- What `slice` makes of the index `i` of `n`. -/
def sliceRange (n i : ℤ) : ℚ × ℚ := (div' i n, div' i n + div' 1 n)

section Slices

variable {w : Arc} {i : ℤ} {pI pN : Pattern Γ ℤ} {x : Option Arc × ℤ}

theorem union_singletons (r : ℚ × ℚ) :
    Map.union (Map.singleton "end" (.VF r.2)) (Map.singleton "begin" (.VF r.1)) =
      (setRange ∅ r : ValueMap S) := by
  refine Std.ExtTreeMap.ext_getElem? fun k => ?_
  rw [getElem?_union, getElem?_setRange]
  by_cases hb : k = "begin"
  · subst hb
    simp [Map.singleton]
  · rw [if_neg hb, Map.getElem?_singleton_ne _ hb]
    by_cases he : k = "end"
    · subst he
      simp [Map.singleton]
    · rw [Map.getElem?_singleton_ne _ he, if_neg he]
      rfl

theorem PlaysOne.unionRight {P Q : Pattern Γ (ValueMap S)} {u : ValueMap S} {y : Option Arc × ValueMap S}
    (h : PlaysOne P m t w u) (hQ : act Q m w t = {y}) :
    PlaysOne (unionRight P Q) m t w (Map.union y.2 u) :=
  (h.fmap fun x y => Map.union y x).apLeft hQ

/-- What `slice` plays for one index and one count: the values of the pattern, and the range of the slice
where they have none of their own. -/
theorem act_slice (hi : PlaysOne pI m t w i) (hw : isIn w t) (hx : act pN m w t = {x})
    (p : Pattern Γ (ValueMap S)) (hat : isIn a t) :
    act (slice pN pI p) m a t =
      (act p m w t).map fun y => (some w, Map.union y.2 (setRange ∅ (sliceRange x.2 i))) := by
  have hb := (hi.fmap div').apLeft hx
  have he := (hi.fmap fun i n => div' i n + div' 1 n).apLeft hx
  have hbegin : PlaysOne (begin' (Pattern.apLeft (Pattern.fmap div' pI) pN) : Pattern Γ (ValueMap S)) m t w
      (Map.singleton "begin" (.VF (sliceRange x.2 i).1)) := hb.fmap _
  have hend : PlaysOne (end' (Pattern.apLeft (Pattern.fmap (fun i n => div' i n + div' 1 n) pI) pN) :
      Pattern Γ (ValueMap S)) m t w (Map.singleton "end" (.VF (sliceRange x.2 i).2)) := he.fmap _
  have hrange := hbegin.unionRight (hend w hw).2
  rw [union_singletons] at hrange
  obtain ⟨hd, hact⟩ := (hrange.fmap fun x y => Map.union y x) a hat
  refine (act_apLeft_digital hd).trans ?_
  rw [hact, Multiset.singleton_bind, Option.elim_some]

theorem div'_one_iff (hn : 1 ≤ n) : div' 1 n = 1 / n ↔ 2 ≤ n := by
  have hpos : (n : ℚ) ≠ 0 := by exact_mod_cast (show n ≠ 0 by omega)
  by_cases h : 2 ≤ n
  · have hmod : (1 : ℤ) % n = 1 := Int.emod_eq_of_lt (by omega) (by omega)
    simp [div', hmod, h]
  · obtain rfl : n = 1 := by omega
    simp [div']

/-- The map does not keep `slice` from giving it slice `i` of `n`. -/
def Sliceable (n i : ℤ) (u : ValueMap S) : Prop :=
  (u["begin"]? = none ∨ u["begin"]? = some (.VF ((i % n : ℤ) / n))) ∧
    ((u["end"]? = none ∧ 2 ≤ n) ∨ u["end"]? = some (.VF ((i % n : ℤ) / n + 1 / n)))

theorem playsRange_union_iff (hn : 1 ≤ n) (i : ℤ) (u : ValueMap S) :
    PlaysRange (Map.union u (setRange ∅ (sliceRange n i))) ((i % n : ℤ) / n, (i % n : ℤ) / n + 1 / n) ↔
      Sliceable n i u := by
  have hwidth := div'_one_iff hn
  unfold PlaysRange Sliceable
  rw [getElem?_union, getElem?_union, getElem?_setRange, getElem?_setRange]
  refine and_congr ?_ ?_
  · cases h : u["begin"]? with
    | none => simp [sliceRange, div']
    | some y => simp
  · cases h : u["end"]? with
    | none => simp only [sliceRange, div'] at hwidth ⊢; simpa using hwidth
    | some y => simp

/-- The values of `#`. -/
theorem mem_unionRight {P Q : Pattern Γ (ValueMap S)} {st : State Γ} {e : Event (ValueMap S)}
    (he : e ∈ (unionRight P Q).query st) :
    ∃ e₁ ∈ P.query st, ∃ arc, ∃ e₂ ∈ Q.query { st with arc := arc }, e.value = Map.union e₂.value e₁.value := by
  obtain ⟨ef, hef, ex, hex, -, hvalue⟩ := mem_apLeft he
  obtain ⟨e₁, he₁, rfl⟩ := List.mem_map.mp hef
  exact ⟨e₁, he₁, _, ex, hex, hvalue⟩

theorem value_pF_pure {k : String} {v : ℚ} {st : State Γ} {e : Event (ValueMap S)}
    (he : e ∈ (pF k (Pattern.pure v)).query st) : e.value = Map.singleton k (.VF v) := by
  obtain ⟨e', he', rfl⟩ := List.mem_map.mp he
  obtain ⟨b, _, rfl⟩ := List.mem_map.mp he'
  rfl

/-- `_slice` has the last word. -/
theorem playsRange_of_slice (n i : ℤ) (p : Pattern Γ (ValueMap S)) (st : State Γ) {e : Event (ValueMap S)}
    (he : e ∈ (_slice n i p).query st) : PlaysRange e.value ((i : ℚ) / n, ((i : ℚ) + 1) / n) := by
  obtain ⟨e₁, he₁, _, e₂, he₂, hvalue⟩ := mem_unionRight he
  obtain ⟨e₃, -, _, e₄, he₄, hvalue₁⟩ := mem_unionRight he₁
  rw [hvalue, hvalue₁, value_pF_pure he₂, value_pF_pure he₄]
  unfold PlaysRange
  rw [getElem?_union, getElem?_union, getElem?_union, getElem?_union]
  simp [Map.singleton]

/-- **When `slice` makes the slice that it is asked for.** It does if and only if the pattern has no other
range of its own, and there is more than one slice or the pattern sets the end: the width of the only slice is
`1 mod 1`. -/
theorem slice_range_iff (n i : ℤ) (hn : 1 ≤ n) (pI pN : Pattern Γ ℤ) (hI : Seamless pI) (hN : Steady pN)
    (p : Pattern Γ (ValueMap S)) (m : Γ) (t : Time) (w : Arc) (x : Option Arc)
    (hi : behaviour pI m t = {(some w, i)}) (hx : behaviour pN m t = {(x, n)}) :
    (∀ a, isIn a t →
      ((∀ y ∈ act (slice pN pI p) m a t,
          PlaysRange y.2 ((i % n : ℤ) / n, (i % n : ℤ) / n + 1 / n)) ↔
        ∀ y ∈ act p m w t, Sliceable n i y.2)) ∧
    ∀ j : ℤ, 0 ≤ j → j < n →
      (((j % n : ℤ) : ℚ) / n, ((j % n : ℤ) : ℚ) / n + 1 / n) = ((j : ℚ) / n, ((j : ℚ) + 1) / n) ∧
      ∀ st, ∀ e ∈ (_slice n j p).query st, PlaysRange e.value ((j : ℚ) / n, ((j : ℚ) + 1) / n) := by
  obtain ⟨w', hw', hwt⟩ := hI.whole_isIn (hi ▸ Multiset.mem_singleton_self _)
  obtain rfl := Option.some.inj hw'
  refine ⟨fun a hat => ?_, fun j h0 hj => ⟨?_, fun st e he => playsRange_of_slice n j p st he⟩⟩
  · have hcount : act pN m w t = {(x, n)} := (hN.act_eq m hwt).trans hx
    rw [act_slice (hI.playsOne hi) hwt hcount p hat]
    simp only [Multiset.mem_map, forall_exists_index, and_imp, forall_apply_eq_imp_iff₂]
    exact forall₂_congr fun y _ => playsRange_union_iff hn i y.2
  · rw [Int.emod_eq_of_lt h0 hj, add_div]

end Slices

theorem slice_range_iff_pure :
    Sliceable 4 (-1) (∅ : ValueMap Unit) ∧
    ∀ y ∈ act (slice (Pattern.pure 4) (Pattern.pure (-1)) (Pattern.pure (∅ : ValueMap Unit))) () ⟨0, 1⟩ 0,
      PlaysRange y.2 ((-1 % 4 : ℤ) / (4 : ℤ), (-1 % 4 : ℤ) / (4 : ℤ) + 1 / (4 : ℤ)) := by
  have hempty : Sliceable 4 (-1) (∅ : ValueMap Unit) := ⟨Or.inl rfl, Or.inl ⟨rfl, by decide⟩⟩
  refine ⟨hempty, ((slice_range_iff 4 (-1) (by decide) (Pattern.pure (-1)) (Pattern.pure 4)
    (regular_pure _).seamless (steady_pure _) (Pattern.pure ∅) () 0 _ _ (act_pure (-1) (isIn_now 0))
    (act_pure 4 (isIn_now 0))).1 ⟨0, 1⟩ (by constructor <;> norm_num)).mpr fun y hy => ?_⟩
  rw [act_pure _ (isIn_timeToCycleArc 0), Multiset.mem_singleton] at hy
  rw [hy]
  exact hempty

/-- The only slice of a sample ends where it begins. -/
theorem slice_one_empty :
    (∀ y ∈ act (slice (Pattern.pure 1) (Pattern.pure 0) (Pattern.pure (∅ : ValueMap Unit))) () ⟨0, 1⟩ 0,
      PlaysRange y.2 (0, 0)) ∧
    ¬ ∀ y ∈ act (slice (Pattern.pure 1) (Pattern.pure 0) (Pattern.pure (∅ : ValueMap Unit))) () ⟨0, 1⟩ 0,
      PlaysRange y.2 ((0 % 1 : ℤ) / (1 : ℤ), (0 % 1 : ℤ) / (1 : ℤ) + 1 / (1 : ℤ)) := by
  have hslice := act_slice (a := ⟨0, 1⟩) (playsOne_pure (0 : ℤ) () 0) (isIn_timeToCycleArc 0)
    (act_pure (1 : ℤ) (isIn_timeToCycleArc 0)) (Pattern.pure (∅ : ValueMap Unit))
    (by constructor <;> norm_num)
  rw [act_pure _ (isIn_timeToCycleArc 0), Multiset.map_singleton] at hslice
  rw [hslice]
  simp [PlaysRange, getElem?_union, getElem?_setRange, sliceRange, div']

end Tidal
