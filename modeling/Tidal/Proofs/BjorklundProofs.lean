import Tidal.Bjorklund
import Tidal.Lib.EvenWords

/-!
# Euclidean rhythms are evenly spread

At every step of the algorithm all lists of the first kind are one word and all lists of the second kind
another, and writing these two words for the letters of a spread word gives a spread word.
-/

namespace Tidal

open EvenWords

section Blocks

variable {α : Type} (x y : List α) {i j : ℕ}

/-- The step with `i` times the word `x` and `j` times the word `y`. -/
def blocks (i j : ℕ) : STEP α := ⟨i, j, List.replicate i x, List.replicate j y⟩

theorem left_blocks (h : j ≤ i) : left (blocks x y i j) = blocks (x ++ y) x j (i - j) := by
  simp [left, blocks, h]

theorem right_blocks (h : i ≤ j) : right (blocks x y i j) = blocks (x ++ y) y i (j - i) := by
  simp [right, blocks, h]

end Blocks

/-- What every step of the algorithm has: its two words keep words spread, the first starts with an onset,
and all words together have `k` steps with `n` onsets. -/
structure Evenly (n k : ℕ) (x y : List Bool) (i j : ℕ) : Prop where
  pos : 1 ≤ i
  head : x.head? = some true
  spread : ∀ w, Spread w → Spread (subst x y w)
  length : i * x.length + j * y.length = k
  trues : i * x.count true + j * y.count true = n

section Evenly

variable {n k i j : ℕ} {x y : List Bool}

theorem Evenly.start (hi : 1 ≤ i) : Evenly i (i + j) [true] [false] i j where
  pos := hi
  head := rfl
  spread := by
    intro w hw
    rwa [subst_letters]
  length := by simp
  trues := by simp

theorem head?_append_of_some (h : x.head? = some true) (y : List Bool) : (x ++ y).head? = some true := by
  rw [List.head?_append, h]
  rfl

/-- A rearrangement of the words: as many pairs as there can be, and what is left of one kind. -/
theorem regroup {i j : ℕ} (hij : j ≤ i) (u v : ℕ) : j * (u + v) + (i - j) * u = i * u + j * v := by
  obtain ⟨d, rfl⟩ := Nat.exists_eq_add_of_le hij
  rw [Nat.add_sub_cancel_left]
  ring

theorem Evenly.left (h : Evenly n k x y i j) (hj : 1 ≤ j) (hij : j ≤ i) :
    Evenly n k (x ++ y) x j (i - j) where
  pos := hj
  head := head?_append_of_some h.head y
  spread := by
    intro w hw
    have := h.spread _ hw.left
    rw [subst_subst] at this
    simpa using this
  length := by rw [List.length_append, regroup hij, h.length]
  trues := by rw [List.count_append, regroup hij, h.trues]

theorem Evenly.right (h : Evenly n k x y i j) (hij : i ≤ j) : Evenly n k (x ++ y) y i (j - i) where
  pos := h.pos
  head := head?_append_of_some h.head y
  spread := by
    intro w hw
    have := h.spread _ hw.right
    rw [subst_subst] at this
    simpa using this
  length := by rw [List.length_append, add_comm x.length, regroup hij, add_comm, h.length]
  trues := by rw [List.count_append, add_comm (x.count true), regroup hij, add_comm, h.trues]

/-- The loop ends with two words, one of them used at most once. -/
theorem bjorklund'_blocks (h : Evenly n k x y i j) :
    ∃ x' y' i' j', bjorklund' (blocks x y i j) = blocks x' y' i' j' ∧ Evenly n k x' y' i' j' ∧
      min i' j' ≤ 1 := by
  induction hsum : i + j using Nat.strong_induction_on generalizing x y i j with
  | _ m ih =>
    subst hsum
    rw [bjorklund']
    by_cases hmin : min i j ≤ 1
    · refine ⟨x, y, i, j, if_pos ?_, h, hmin⟩
      simp only [blocks]
      omega
    · have hpos := h.pos
      have hmin' : ¬ min (blocks x y i j).i (blocks x y i j).j ≤ 1 := by
        simp only [blocks]
        omega
      rw [if_neg hmin']
      by_cases hij : j < i
      · have hij' : (blocks x y i j).i > (blocks x y i j).j := by
          simp only [blocks]
          omega
        rw [if_pos hij', left_blocks x y hij.le]
        exact ih _ (by omega) (h.left (by omega) hij.le) rfl
      · have hij' : ¬ (blocks x y i j).i > (blocks x y i j).j := by
          simp only [blocks]
          omega
        rw [if_neg hij', right_blocks x y (not_lt.mp hij)]
        exact ih _ (by omega) (h.right (not_lt.mp hij)) rfl

/-- The lists of a step, one after the other. -/
theorem blocks_flatten (h : Evenly n k x y i j) :
    ((List.replicate i x).flatten ++ (List.replicate j y).flatten).length = k ∧
      ((List.replicate i x).flatten ++ (List.replicate j y).flatten).count true = n ∧
      ((List.replicate i x).flatten ++ (List.replicate j y).flatten).head? = some true := by
  refine ⟨?_, ?_, ?_⟩
  · rw [← h.length]
    simp
  · rw [← h.trues, List.count_append, List.count_flatten, List.count_flatten]
    simp
  · obtain ⟨d, rfl⟩ := Nat.exists_eq_add_of_le' h.pos
    rw [List.replicate_succ, List.flatten_cons, List.append_assoc]
    exact head?_append_of_some h.head _

end Evenly

/-- The rhythm is made of two words, one of them used at most once. -/
theorem bjorklund_blocks {n k : ℤ} (hn : 1 ≤ n) (hk : n ≤ k) :
    ∃ x y i j, bjorklund n k = (List.replicate i x).flatten ++ (List.replicate j y).flatten ∧
      Evenly n.toNat k.toNat x y i j ∧ min i j ≤ 1 := by
  obtain ⟨i, rfl⟩ := Int.eq_ofNat_of_zero_le (show 0 ≤ n by omega)
  obtain ⟨j, hj⟩ := Int.eq_ofNat_of_zero_le (show 0 ≤ k - i by omega)
  have hi : 1 ≤ i := by omega
  have hk' : k.toNat = i + j := by omega
  obtain ⟨x', y', i', j', hend, heven, hmin⟩ := bjorklund'_blocks (Evenly.start (j := j) hi)
  refine ⟨x', y', i', j', ?_, by rwa [hk', Int.toNat_natCast], hmin⟩
  rw [bjorklund, hj]
  exact congrArg (fun s => s.xs.flatten ++ s.ys.flatten) hend

/-- Without onsets all steps are rests. -/
theorem bjorklund_zero (k : ℤ) : bjorklund 0 k = List.replicate k.toNat false := by
  unfold bjorklund
  dsimp only
  rw [bjorklund', if_pos (min_le_of_left_le (by norm_num))]
  simp

theorem bjorklund_counts {n k : ℤ} (hn : 0 ≤ n) (hk : n ≤ k) :
    (bjorklund n k).length = k.toNat ∧ (bjorklund n k).count true = n.toNat := by
  by_cases h : 1 ≤ n
  · obtain ⟨x, y, i, j, hlists, heven, -⟩ := bjorklund_blocks h hk
    obtain ⟨hlen, htrues, -⟩ := blocks_flatten heven
    rw [hlists]
    exact ⟨hlen, htrues⟩
  · obtain rfl : n = 0 := by omega
    rw [bjorklund_zero]
    simp [List.count_replicate]

/-- `n` onsets over `k` steps: the rhythm has these numbers, starts with an onset, and any two stretches of
the same length, around the cycle, hold the same number of onsets up to one. -/
theorem bjorklund_even {n k : ℤ} (hn : 1 ≤ n) (hk : n ≤ k) :
    ((bjorklund n k).length : ℤ) = k ∧ ((bjorklund n k).count true : ℤ) = n ∧
      (bjorklund n k).head? = some true ∧
      ∀ w i j : ℕ, window (bjorklund n k) w i ≤ window (bjorklund n k) w j + 1 := by
  obtain ⟨x, y, i, j, hlists, heven, hmin⟩ := bjorklund_blocks hn hk
  obtain ⟨hlen, htrues, hhead⟩ := blocks_flatten heven
  rw [← hlists] at hlen htrues hhead
  refine ⟨by omega, by omega, hhead, ?_⟩
  have hspread : Spread (bjorklund n k) := by
    have := heven.spread _ (spread_blocks heven.pos hmin)
    rwa [subst_append, subst_replicate_true, subst_replicate_false, ← hlists] at this
  exact hspread.window_le

theorem bjorklund_even_three_eight :
    ((bjorklund 3 8).length : ℤ) = 8 ∧ ((bjorklund 3 8).count true : ℤ) = 3 ∧
      (bjorklund 3 8).head? = some true ∧
      ∀ w i j : ℕ, window (bjorklund 3 8) w i ≤ window (bjorklund 3 8) w j + 1 :=
  bjorklund_even (by decide) (by decide)

end Tidal
