import Mathlib

/-!
# Lists made of equal rounds

The first rounds of an endless list whose round `k` is `f k`. When all rounds have the same length, the
position of an element gives its round and its place in the round.
-/

namespace Rounds

variable {α : Type*}

/-- The first `k` rounds, one after the other. -/
def rounds (f : ℕ → List α) (k : ℕ) : List α := (List.range k).flatMap f

variable {f : ℕ → List α} {n : ℕ}

@[simp] theorem rounds_zero : rounds f 0 = [] := rfl

theorem rounds_succ (k : ℕ) : rounds f (k + 1) = rounds f k ++ f k := by
  simp [rounds, List.range_succ]

theorem length_rounds (hf : ∀ k, (f k).length = n) (k : ℕ) : (rounds f k).length = k * n := by
  induction k with
  | zero => simp
  | succ k ih => rw [rounds_succ, List.length_append, ih, hf, Nat.succ_mul]

/-- The element at `q` is in round `q / n`, at place `q % n`. -/
theorem getElem?_rounds (hf : ∀ k, (f k).length = n) {k q : ℕ} (hq : q < k * n) :
    (rounds f k)[q]? = (f (q / n))[q % n]? := by
  induction k with
  | zero => simp at hq
  | succ k ih =>
    have hlen := length_rounds hf k
    rw [rounds_succ]
    by_cases hk : q < k * n
    · rw [List.getElem?_append_left (by rwa [hlen]), ih hk]
    · have hdiv : q / n = k := by
        rw [Nat.succ_mul] at hq
        exact Nat.div_eq_of_lt_le (by omega) (by rwa [Nat.succ_mul])
      have hmod : q % n = q - k * n := by
        have := Nat.div_add_mod' q n
        rw [hdiv] at this
        omega
      rw [List.getElem?_append_right (by rw [hlen]; omega), hlen, hdiv, hmod]

/-- Rounds of no elements give no elements. -/
theorem rounds_eq_nil (hf : ∀ k, f k = []) (k : ℕ) : rounds f k = [] := by
  simp [rounds, hf]

end Rounds
