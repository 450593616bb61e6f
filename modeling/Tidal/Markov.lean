import Tidal.UI

/-!
# Markov chains (`Sound.Tidal.UI`)

The states of a chain are drawn one after the other and each is held unevaluated, the newest first. Doubles
are rationals; a row of the matrix that sums to zero, which the source divides by all the same, has the
weights that Lean's division gives.
-/

namespace Tidal.Pattern

variable {α : Type}

/-- `xs !! i` -/
def elemAt (xs : List α) (i : ℤ) : Lazy α := if i < 0 then none else xs[i.toNat]?

def scanl1 (f : α → α → α) : List α → List α
  | [] => []
  | x :: xs => xs.scanl f x

/-- Each row divided by its sum. -/
def renorm (tp : List (List ℚ)) : List (List ℚ) := tp.map fun x => x.map (· / x.sum)

/-- Draws the state after the newest one. -/
def markovStep (rand : Time → ℚ) (n : ℤ) (seed : Time) (tp' : List (List ℚ)) (xs : List (Lazy ℤ)) :
    List (Lazy ℤ) :=
  let r := rand (seed + xs.length / n)
  (do
    let x ← (← xs.head?)
    let row ← elemAt tp' x
    let i ← (scanl1 (· + ·) row).findIdx? (r ≤ ·)
    return (i : ℤ)) :: xs

/-- `runMarkov` with any source of random numbers. -/
def runMarkovWith (rand : Time → ℚ) (n : ℤ) (tp : List (List ℚ)) (xi : ℤ) (seed : Time) :
    Lazy (List (Lazy ℤ)) :=
  if n - 1 < 0 then none
  else some ((markovStep rand n seed (renorm tp))^[(n - 1).toNat] [some xi]).reverse

/-- Generates a Markov chain of length `n` using the transition matrix `tp` starting from the state `xi`,
with random numbers generated from `seed`. -/
def runMarkov (n : ℤ) (tp : List (List ℚ)) (xi : ℤ) (seed : Time) : Lazy (List (Lazy ℤ)) :=
  runMarkovWith timeToRand n tp xi seed

end Tidal.Pattern
