import Tidal.Proofs.ReverseProofs
import Tidal.Proofs.CyclesProofs
import Tidal.Proofs.DemandProofs
import Tidal.Proofs.SamplingProofs

/-!
# Equal steps of a cycle

`fastCat` plays one cycle of each of its patterns in the steps of a cycle. A query inside a step is answered
by the pattern of the step alone, whatever the pattern is.
-/

namespace Tidal

open Pattern EventF

variable {Γ α : Type} {m : Γ}

/-- The query lies in step `i` of the `n` steps of cycle `c`. -/
structure InStep (n : ℕ) (c : ℤ) (i : ℕ) (q : Arc) : Prop where
  start : (c : Time) + i / n ≤ q.start
  start_lt : q.start < c + (i + 1) / n
  le : q.start ≤ q.stop
  stop : q.stop ≤ c + (i + 1) / n

/-- Where a time of cycle `c` lands when the cycle is played in step `i`. -/
def intoStep (n : ℕ) (c : ℤ) (i : ℕ) (x : Time) : Time := c + (x - c + i) / n

/-- The time of cycle `c` that is heard at a time of step `i`. -/
def fromStep (n : ℕ) (c : ℤ) (i : ℕ) (t : Time) : Time := c + (t - c) * n - i

/-- The answer to a query in a step: cycle `c` of the pattern, squeezed into the step. -/
def stepped (n : ℕ) (c : ℤ) (i : ℕ) (p : Pattern Γ α) (m : Γ) (q : Arc) : List (Event α) :=
  (p.query ⟨q.map (fromStep n c i), m⟩).map (mapArc (ArcF.map (intoStep n c i)))

section Step

variable {n : ℕ} {c : ℤ} {i : ℕ} {q : Arc}

theorem mapArc_id (e : Event α) : mapArc (ArcF.map fun x => x) e = e := by
  obtain ⟨x, w, b, v⟩ := e
  cases w <;> rfl

/-- A cycle in its only step is itself. -/
theorem stepped_one (p : Pattern Γ α) (m : Γ) (c : ℤ) (q : Arc) : stepped 1 c 0 p m q = p.query ⟨q, m⟩ := by
  have hfrom : fromStep 1 c 0 = fun x => x := funext fun x => by simp [fromStep]
  have hinto : intoStep 1 c 0 = fun x => x := funext fun x => by simp [intoStep]
  unfold stepped
  rw [hfrom, hinto, funext (mapArc_id (α := α)), List.map_id']
  rfl

theorem inStep_mul (hn : 0 < n) (hq : InStep n c i q) :
    ((c * n + i : ℤ) : Time) ≤ q.start * n ∧ q.start * n < (c * n + i : ℤ) + 1 ∧
      q.start * n ≤ q.stop * n ∧ q.stop * n ≤ (c * n + i : ℤ) + 1 := by
  have hpos : (0 : Time) < n := by exact_mod_cast hn
  obtain ⟨h1, h2, h3, h4⟩ := hq
  have hlo : ((c : Time) + i / n) * n = c * n + i := by field_simp
  have hhi : ((c : Time) + (i + 1) / n) * n = c * n + i + 1 := by field_simp; ring
  push_cast
  refine ⟨?_, ?_, mul_le_mul_of_nonneg_right h3 hpos.le, ?_⟩
  · rw [← hlo]
    exact mul_le_mul_of_nonneg_right h1 hpos.le
  · rw [← hhi]
    exact mul_lt_mul_of_pos_right h2 hpos
  · rw [← hhi]
    exact mul_le_mul_of_nonneg_right h4 hpos.le

theorem arcCyclesZW_cycle {w : Arc} {k : ℤ} (h1 : (k : Time) ≤ w.start) (h2 : w.start < k + 1)
    (h3 : w.start ≤ w.stop) (h4 : w.stop ≤ k + 1) : arcCyclesZW w = [w] := by
  rcases h3.lt_or_eq with hlt | heq
  · refine arcCyclesZW_of_le hlt ?_
    rw [nextSam, sam_eq h1 h2, add_comm]
    exact h4
  · rw [arcCyclesZW, if_pos heq]

/-- A query in step `i` is answered by pattern `i`. -/
theorem fastCat_step {ps : List (Pattern Γ α)} (hi : i < ps.length) (hq : InStep ps.length c i q) :
    (fastCat ps).query ⟨q, m⟩ = stepped ps.length c i (ps.getD i silence) m q := by
  by_cases hone : ps.length = 1
  · obtain ⟨p, rfl⟩ := List.length_eq_one_iff.mp hone
    obtain rfl : i = 0 := by simpa using hi
    exact (stepped_one p m c q).symm
  · have hn : 0 < ps.length := by omega
    have hpos : (0 : Time) < ps.length := by exact_mod_cast hn
    obtain ⟨h1, h2, h3, h4⟩ := inStep_mul hn hq
    have hfloor : ⌊q.start * ps.length⌋ = c * ps.length + i := Int.floor_eq_iff.mpr ⟨h1, h2⟩
    have hcat : (cat ps).query ⟨q.map (· * (ps.length : Time)), m⟩ =
        catCycle ps ⟨q.map (· * (ps.length : Time)), m⟩ (q.map (· * (ps.length : Time))) := by
      match ps, hone, hn with
      | p₁ :: p₂ :: ps, _, _ =>
        show (arcCyclesZW _).flatMap _ = _
        rw [arcCyclesZW_cycle h1 h2 h3 h4, List.flatMap_singleton]
    obtain ⟨hindex, hoff⟩ := (catIndex_iff hi c (c * ps.length + i)).mpr rfl
    have hstart : ⌊(q.map (· * (ps.length : Time))).start⌋ = c * ps.length + i := hfloor
    have hfast : (fastCat ps).query ⟨q, m⟩ =
        ((cat ps).query ⟨q.map (· * (ps.length : Time)), m⟩).map
          (mapArc (ArcF.map (· / (ps.length : Time)))) := by
      rw [(fastCat_query ps hone).1, fast_of_pos hpos]
      rfl
    rw [hfast, hcat, catCycle_eq, hstart, hindex, List.map_map]
    have hoff' : catOffset ps (c * ps.length + i) = c * ps.length + i - c := by
      push_cast at hoff
      linarith
    have hfrom : (q.map (· * (ps.length : Time))).map (· - catOffset ps (c * ps.length + i)) =
        q.map (fromStep ps.length c i) := by
      simp only [ArcF.map, fromStep, hoff']
      congr 1 <;> ring
    have hinto : (mapArc (ArcF.map (· / (ps.length : Time))) ∘
        mapArc (ArcF.map (· + catOffset ps (c * ps.length + i))) : Event α → Event α) =
          mapArc (ArcF.map (intoStep ps.length c i)) := by
      funext e
      rw [Function.comp_apply, mapArc_mapArc]
      congr 1
      funext w
      simp only [Function.comp_apply, ArcF.map, intoStep, hoff']
      congr 1 <;> field_simp <;> ring
    rw [hfrom, hinto]
    rfl

theorem fastCat_map_step {β : Type} {xs : List β} (f : β → Pattern Γ α) (hi : i < xs.length)
    (hq : InStep xs.length c i q) :
    (fastCat (xs.map f)).query ⟨q, m⟩ = stepped xs.length c i (f xs[i]) m q := by
  rw [fastCat_step (by rwa [List.length_map]) (by rwa [List.length_map]), List.length_map,
    List.getD_eq_getElem _ _ (by rwa [List.length_map]), List.getElem_map]

/-- What is heard in a step is what the pattern plays at the time that the step is moved from. -/
theorem activeIn_stepped (hn : 0 < n) (p : Pattern Γ α) (t : Time) :
    activeIn (stepped n c i p m q) t =
      (act p m (q.map (fromStep n c i)) (fromStep n c i t)).map (onWhole (ArcF.map (intoStep n c i))) := by
  have hpos : (0 : Time) < n := by exact_mod_cast hn
  have hle : ∀ x : Time, intoStep n c i x ≤ t ↔ x ≤ fromStep n c i t := by
    intro x
    rw [intoStep, ← le_sub_iff_add_le', div_le_iff₀ hpos, fromStep]
    constructor <;> intro h <;> linarith
  have hlt : ∀ x : Time, t < intoStep n c i x ↔ fromStep n c i t < x := fun x => by
    rw [← not_le, hle, not_le]
  exact activeIn_mapArc fun e _ => and_congr (hle _) (hlt _)

/-- Whose turn it is in a cycle, and which of its own cycles it is. -/
theorem turn_eq {n : ℕ} (hn : 0 < n) (c : ℤ) :
    (c % n).toNat < n ∧ c = (c / n) * n + ((c % n).toNat : ℕ) := by
  have hn' : (0 : ℤ) < n := by omega
  have h0 := Int.emod_nonneg c hn'.ne'
  have h1 := Int.emod_lt_of_pos c hn'
  have h2 := Int.mul_ediv_add_emod c n
  rw [mul_comm] at h2
  omega

/-- The step of cycle `c` that a moment is in. -/
theorem inStep_of_floor (hn : 0 < n) {t : Time} (ht : ⌊t * n⌋ = c * n + i) :
    InStep n c i ⟨t, c + (i + 1) / n⟩ := by
  have hpos : (0 : Time) < n := by exact_mod_cast hn
  obtain ⟨h1, h2⟩ := Int.floor_eq_iff.mp ht
  push_cast at h1 h2
  have hlo : (c : Time) + i / n ≤ t := by
    rw [← le_sub_iff_add_le', div_le_iff₀ hpos]
    linarith
  have hhi : t < c + (i + 1) / n := by
    rw [← sub_lt_iff_lt_add', lt_div_iff₀ hpos]
    linarith
  exact ⟨hlo, hhi, hhi.le, le_rfl⟩

/-- A list of values, one for each step. -/
theorem behaviour_fastFromList {xs : List α} (hi : i < xs.length) {t : Time}
    (ht : ⌊t * xs.length⌋ = c * xs.length + i) :
    behaviour (fastFromList xs) m t =
      {(some ⟨(c : Time) + i / xs.length, c + (i + 1) / xs.length⟩, xs[i])} := by
  have hn : 0 < xs.length := by omega
  have hpos : (xs.length : Time) ≠ 0 := by exact_mod_cast hn.ne'
  have hq := inStep_of_floor hn ht
  have hqt : isIn (⟨t, c + (i + 1) / xs.length⟩ : Arc) t := ⟨le_rfl, hq.start_lt⟩
  have hin : isIn ((⟨t, c + (i + 1) / xs.length⟩ : Arc).map (fromStep xs.length c i))
      (fromStep xs.length c i t) := by
    refine ⟨le_rfl, ?_⟩
    have h := mul_lt_mul_of_pos_right hq.start_lt (show (0 : Time) < xs.length by exact_mod_cast hn)
    simp only [ArcF.map, fromStep]
    linarith
  obtain ⟨h1, h2, -, -⟩ := inStep_mul hn hq
  push_cast at h1 h2
  have hsam : sam (fromStep xs.length c i t) = c :=
    sam_eq (by simp only [fromStep]; linarith) (by simp only [fromStep]; linarith)
  rw [← (regular_fastFromList xs).steady.act_eq m hqt, act, fastFromList, fastCat_map_step _ hi hq, activeIn_stepped hn,
    act_pure _ hin, Multiset.map_singleton]
  simp only [onWhole, Option.map_some, ArcF.map, timeToCycleArc, intoStep, hsam]
  congr 4 <;> ring

end Step

end Tidal
