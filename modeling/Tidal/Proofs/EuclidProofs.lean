import Tidal.UI
import Tidal.Proofs.StepsProofs
import Tidal.Proofs.BjorklundProofs

/-!
# Euclidean rhythms and their inverses

`_euclid` plays its pattern in the steps that are onsets, and `_euclidInv` in the others. The inverse is asked
for by a negative number of onsets, which no onsets at all do not have.
-/

namespace Tidal

open Pattern EventF

variable {Γ α : Type} {m : Γ} {n k : ℤ} {c : ℤ} {i : ℕ} {q : Arc}

/-- The pattern plays nothing in any query that lies in one cycle. -/
def Silent (p : Pattern Γ α) : Prop :=
  ∀ (m : Γ) (c : ℤ) (q : Arc), InStep 1 c 0 q → p.query ⟨q, m⟩ = []

/-- In each of the `k` steps of each cycle, the rhythm plays a cycle of `a` squeezed into the step if the step
is an onset, its inverse one of `b` if it is not, and both together a cycle of `a` in any case. -/
def Complementary (n k : ℤ) (a b : Pattern Γ α) : Prop :=
  ∀ (m : Γ) (c : ℤ) (i : ℕ) (q : Arc), i < k.toNat → InStep k.toNat c i q →
    (_euclid n k a).query ⟨q, m⟩ =
      (if (bjorklund n k).getD i false then stepped k.toNat c i a m q else []) ∧
    (_euclidInv n k b).query ⟨q, m⟩ =
      (if (bjorklund n k).getD i false then [] else stepped k.toNat c i b m q) ∧
    (euclidFull (Pattern.pure n) (Pattern.pure k) a a).query ⟨q, m⟩ = stepped k.toNat c i a m q

/-! ## Queries in a step -/

/-- A rhythm plays one of two patterns in each step. -/
theorem fastCat_bools {bs : List Bool} (f : Bool → Pattern Γ α) (hi : i < bs.length)
    (hq : InStep bs.length c i q) :
    (fastCat (bs.map f)).query ⟨q, m⟩ = stepped bs.length c i (f (bs.getD i false)) m q := by
  rw [fastCat_map_step f hi hq, List.getD_eq_getElem _ _ hi]

theorem euclid_query (hn : 0 ≤ n) (hnk : n ≤ k) (a : Pattern Γ α) (hi : i < k.toNat)
    (hq : InStep k.toNat c i q) :
    (_euclid n k a).query ⟨q, m⟩ =
      if (bjorklund n k).getD i false then stepped k.toNat c i a m q else [] := by
  obtain ⟨hlen, -⟩ := bjorklund_counts hn hnk
  rw [← hlen] at hi hq ⊢
  unfold _euclid
  rw [if_pos hn, fastCat_bools _ hi hq]
  split_ifs <;> rfl

theorem euclidInv_query (hn : 1 ≤ n) (hnk : n ≤ k) (b : Pattern Γ α) (hi : i < k.toNat)
    (hq : InStep k.toNat c i q) :
    (_euclidInv n k b).query ⟨q, m⟩ =
      if (bjorklund n k).getD i false then [] else stepped k.toNat c i b m q := by
  obtain ⟨hlen, -⟩ := bjorklund_counts (show 0 ≤ n by omega) hnk
  rw [← hlen] at hi hq ⊢
  unfold _euclidInv _euclid
  rw [if_neg (by omega), neg_neg, fastCat_bools _ hi hq]
  split_ifs <;> rfl

/-- Without onsets the inverse is as silent as the rhythm. -/
theorem euclidInv_zero_query (hk : 0 ≤ k) (b : Pattern Γ α) (hi : i < k.toNat)
    (hq : InStep k.toNat c i q) : (_euclidInv 0 k b).query ⟨q, m⟩ = [] := by
  unfold _euclidInv
  rw [neg_zero, euclid_query le_rfl hk b hi hq, bjorklund_zero]
  simp [hi]

theorem euclidFull_query (n k : ℤ) (a : Pattern Γ α) (st : State Γ) :
    (euclidFull (Pattern.pure n) (Pattern.pure k) a a).query st =
      (_euclid n k a).query st ++ (_euclidInv n k a).query st := by
  unfold euclidFull
  rw [stack_query]
  simp [euclid, euclidInv, patternify2, Pattern.pure, strict]

/-! ## Silent patterns -/

theorem fromStep_intoStep {N : ℕ} (hN : 0 < N) (x : Time) : fromStep N c i (intoStep N c i x) = x := by
  have hpos : (N : Time) ≠ 0 := by exact_mod_cast hN.ne'
  simp only [fromStep, intoStep]
  field_simp
  ring

theorem inStep_fromStep {N : ℕ} (hN : 0 < N) (hq : InStep N c i q) :
    InStep 1 c 0 (q.map (fromStep N c i)) := by
  obtain ⟨h1, h2, h3, h4⟩ := inStep_mul hN hq
  push_cast at h1 h2 h4
  constructor <;> simp only [ArcF.map, fromStep] <;> push_cast <;> linarith

theorem inStep_intoStep {N : ℕ} (hN : 0 < N) (hq : InStep 1 c 0 q) :
    InStep N c i (q.map (intoStep N c i)) := by
  have hpos : (0 : Time) < N := by exact_mod_cast hN
  obtain ⟨h1, h2, h3, h4⟩ := hq
  norm_num at h1 h2 h4
  have hle : ∀ {x y : Time}, x ≤ y → (c : Time) + x / N ≤ c + y / N := fun h => by gcongr
  have hlt : ∀ {x y : Time}, x < y → (c : Time) + x / N < c + y / N := fun h => by gcongr
  exact ⟨hle (by linarith), hlt (by linarith), hle (by linarith), hle (by linarith)⟩

/-- A pattern is silent if and only if nothing of it is heard in a step. -/
theorem silent_iff {N : ℕ} (hi : i < N) (p : Pattern Γ α) :
    Silent p ↔ ∀ m c q, InStep N c i q → stepped N c i p m q = [] := by
  have hN : 0 < N := by omega
  refine ⟨fun h m c q hq => ?_, fun h m c q hq => ?_⟩
  · unfold stepped
    rw [h m c _ (inStep_fromStep hN hq)]
    rfl
  · have hnil := h m c _ (inStep_intoStep hN hq)
    unfold stepped at hnil
    rw [List.map_eq_nil_iff] at hnil
    have hmap : (q.map (intoStep N c i)).map (fromStep N c i) = q := by
      simp only [ArcF.map, fromStep_intoStep hN]
    rwa [hmap] at hnil

/-- The rhythm and its inverse are complementary if and only if there is an onset, or nothing is to be heard
of the patterns in any case. -/
theorem complementary_iff (hn : 0 ≤ n) (hnk : n ≤ k) (hk : 1 ≤ k) (a b : Pattern Γ α) :
    Complementary n k a b ↔ 1 ≤ n ∨ Silent a ∧ Silent b := by
  by_cases h1 : 1 ≤ n
  · refine iff_of_true (fun m c i q hi hq => ?_) (Or.inl h1)
    have heuclid := euclid_query (m := m) hn hnk a hi hq
    refine ⟨heuclid, euclidInv_query h1 hnk b hi hq, ?_⟩
    rw [euclidFull_query, heuclid, euclidInv_query h1 hnk a hi hq]
    split_ifs <;> simp
  · obtain rfl : n = 0 := by omega
    rw [or_iff_right h1]
    have hfalse : ∀ i, (bjorklund 0 k).getD i false = false := by
      intro i
      rw [bjorklund_zero]
      simp
    constructor
    · intro h
      have h0 : 0 < k.toNat := by omega
      rw [silent_iff h0, silent_iff h0]
      refine ⟨fun m c q hq => ?_, fun m c q hq => ?_⟩
      · obtain ⟨-, -, hfull⟩ := h m c 0 q h0 hq
        rw [← hfull, euclidFull_query, euclidInv_zero_query (by omega) a h0 hq,
          euclid_query le_rfl hnk a h0 hq, hfalse]
        rfl
      · obtain ⟨-, hinv, -⟩ := h m c 0 q h0 hq
        rw [euclidInv_zero_query (by omega) b h0 hq, hfalse] at hinv
        exact hinv.symm
    · rintro ⟨ha, hb⟩ m c i q hi hq
      have heuclid := euclid_query (m := m) le_rfl hnk a hi hq
      refine ⟨heuclid, ?_, ?_⟩
      · rw [euclidInv_zero_query (by omega) b hi hq, hfalse, (silent_iff hi b).mp hb m c q hq]
        rfl
      · rw [euclidFull_query, heuclid, hfalse, euclidInv_zero_query (by omega) a hi hq,
          (silent_iff hi a).mp ha m c q hq]
        rfl

theorem complementary_iff_three_eight :
    Complementary 3 8 (Pattern.pure 0 : Pattern Unit ℕ) (Pattern.pure 1) ↔
      (1 : ℤ) ≤ 3 ∨ Silent (Pattern.pure 0 : Pattern Unit ℕ) ∧ Silent (Pattern.pure 1 : Pattern Unit ℕ) :=
  complementary_iff (by decide) (by decide) (by decide) _ _

/-- Of no onsets over four steps neither the rhythm nor its inverse plays, and the two together are silent. -/
theorem euclidInv_zero_four :
    (_euclidInv 0 4 (Pattern.pure 1 : Pattern Unit ℕ)).query ⟨⟨0, 1 / 4⟩, ()⟩ = [] ∧
    (euclidFull (Pattern.pure 0) (Pattern.pure 4) (Pattern.pure 1) (Pattern.pure 1 : Pattern Unit ℕ)).query
      ⟨⟨0, 1⟩, ()⟩ = [] ∧
    ¬ Complementary 0 4 (Pattern.pure 1 : Pattern Unit ℕ) (Pattern.pure 1) := by
  refine ⟨by with_unfolding_all decide, by with_unfolding_all decide, fun h => ?_⟩
  have hstep : InStep 4 0 0 ⟨0, 1 / 4⟩ := by constructor <;> norm_num
  obtain ⟨-, hinv, -⟩ := h () 0 0 ⟨0, 1 / 4⟩ (by decide) hstep
  exact absurd hinv (by with_unfolding_all decide)

end Tidal
