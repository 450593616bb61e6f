import Tidal.Core
import Tidal.IntTime

/-!
# Switching between patterns (`Sound.Tidal.Transition`)

A transition is given the history of patterns, the newest first. These switch from the pattern that played
before to the new one by the starts of their events.
-/

namespace Tidal.Pattern

variable {Γ α : Type}

def between (lo hi x : Time) : Bool := x ≥ lo ∧ x < hi

/-- Washes away the current pattern after a certain delay by applying a function to it over time, then
switching over to the next pattern to which another function is applied. -/
def wash (fout fin : Pattern Γ α → Pattern Γ α) (delay durin durout now : Time) :
    List (Pattern Γ α) → Pattern Γ α
  | [] => silence
  | [pat] => pat
  | pat :: pat' :: _ =>
    stack [filterWhen (fun t => t < now + delay) pat',
      filterWhen (between (now + delay) (now + delay + durin)) (fout pat'),
      filterWhen (between (now + delay + durin) (now + delay + durin + durout)) (fin pat),
      filterWhen (fun t => t ≥ now + delay + durin + durout) pat]

def washIn (f : Pattern Γ α → Pattern Γ α) (durin now : Time) (pats : List (Pattern Γ α)) : Pattern Γ α :=
  wash f id 0 durin 0 now pats

/-- Sharp transition after the specified number of cycles have passed. -/
def jumpIn (n : ℤ) (now : Time) (pats : List (Pattern Γ α)) : Pattern Γ α := wash id id n 0 0 now pats

/-- Jumps directly into the given pattern. -/
def jump (now : Time) (pats : List (Pattern Γ α)) : Pattern Γ α := jumpIn 0 now pats

/-- Unlike `jumpIn`, this will only transition at a cycle boundary. -/
def jumpIn' (n : ℤ) (now : Time) (pats : List (Pattern Γ α)) : Pattern Γ α :=
  wash id id (nextSam now - now + n) 0 0 now pats

/-- Sharp transition at the next cycle boundary where cycle mod n == 0. -/
def jumpMod (n : ℤ) (now : Time) (pats : List (Pattern Γ α)) : Pattern Γ α :=
  jumpIn' ((n - 1) - ⌊now⌋ % n) now pats

/-- Sharp transition at the next cycle boundary where cycle mod n == p. -/
def jumpMod' (n p : ℤ) (now : Time) (pats : List (Pattern Γ α)) : Pattern Γ α :=
  jumpIn' ((n - 1) - ⌊now⌋ % n + p) now pats

end Tidal.Pattern

namespace Tidal.IntTime

variable {Γ α : Type}

/-- `jumpMod'` with 64 bits for the number of cycles to wait. -/
def jumpMod' (n p : ℤ) (now : Time) (pats : List (Pattern Γ α)) : Pattern Γ α :=
  Pattern.jumpIn' (MachineInt.add (MachineInt.sub (MachineInt.sub n 1) (floor now % n)) p) now pats

end Tidal.IntTime
