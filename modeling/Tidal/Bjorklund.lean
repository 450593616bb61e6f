import Mathlib

/-!
# Bjorklund's algorithm (`Sound.Tidal.Bjorklund`)
-/

namespace Tidal

variable {α : Type}

/-- How many lists there are of each of two kinds, and the lists. -/
structure STEP (α : Type) where
  i : ℤ
  j : ℤ
  xs : List (List α)
  ys : List (List α)

/-- The lists of the second kind are used up; what is left of the first is the second kind now. -/
def left (s : STEP α) : STEP α :=
  let (xs', xs'') := s.xs.splitAt s.j.toNat
  ⟨s.j, s.i - s.j, List.zipWith (· ++ ·) xs' s.ys, xs''⟩

/-- The lists of the first kind are used up. -/
def right (s : STEP α) : STEP α :=
  let (ys', ys'') := s.ys.splitAt s.i.toNat
  ⟨s.i, s.j - s.i, List.zipWith (· ++ ·) s.xs ys', ys''⟩

def bjorklund' (s : STEP α) : STEP α :=
  if min s.i s.j ≤ 1 then s else bjorklund' (if s.i > s.j then left s else right s)
termination_by (s.i + s.j).toNat
decreasing_by
  rename_i h
  rw [min_le_iff, not_or] at h
  split_ifs
  · simp only [left]; omega
  · simp only [right]; omega

/-- `i` onsets spread over `j'` steps. -/
def bjorklund (i j' : ℤ) : List Bool :=
  let j := j' - i
  let s := bjorklund' ⟨i, j, List.replicate i.toNat [true], List.replicate j.toNat [false]⟩
  s.xs.flatten ++ s.ys.flatten

end Tidal
