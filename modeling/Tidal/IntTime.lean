import Tidal.MachineInt
import Tidal.Time

/-!
# Cycle numbers of the type `Int` (`Sound.Tidal.Time`)

The source takes the number of a cycle through `floor` and `ceiling` at `Int`. These are the functions of
`Tidal.Time` that do so, once more, with 64 bits for an `Int`. The recursion of `arcCycles` does not always
end then: it has a number of calls to make do with.
-/

namespace Tidal.IntTime

/-- `floor :: Time -> Int`. -/
def floor (t : Time) : ℤ := Int.bmod ⌊t⌋ (2 ^ 64)

/-- `ceiling :: Time -> Int`. -/
def ceiling (t : Time) : ℤ := Int.bmod ⌈t⌉ (2 ^ 64)

def sam (t : Time) : Time := floor t

def nextSam (t : Time) : Time := 1 + sam t

def timeToCycleArc (t : Time) : Arc := ⟨sam t, sam t + 1⟩

/-- `[x .. y]`. -/
def enumFromTo (x y : ℤ) : List ℤ := (List.range (y + 1 - x).toNat).map fun i : ℕ => x + (i : ℤ)

def cyclesInArc (a : Arc) : List ℤ :=
  if a.start > a.stop then []
  else if a.start = a.stop then [floor a.start]
  else enumFromTo (floor a.start) (Int.bmod (ceiling a.stop - 1) (2 ^ 64))

def cycleArcsInArc (a : Arc) : List Arc :=
  (cyclesInArc a).map fun c : ℤ => timeToCycleArc (c : Time)

def arcCycles : ℕ → Arc → Option (List Arc)
  | 0, _ => none
  | k + 1, a =>
    if a.start ≥ a.stop then some []
    else if sam a.start = sam a.stop then some [a]
    else do
      let as ← arcCycles k ⟨nextSam a.start, a.stop⟩
      return ⟨a.start, nextSam a.start⟩ :: as

def arcCyclesZW (k : ℕ) (a : Arc) : Option (List Arc) :=
  if a.start = a.stop then some [a] else arcCycles k a

end Tidal.IntTime
