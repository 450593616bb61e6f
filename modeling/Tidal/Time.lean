import Mathlib

/-!
# Time and arcs (`Sound.Tidal.Time`)

Time is rational and counted in cycles; an arc is a timespan with a start and a stop. A query asks a
pattern about one arc, so everything the library does to time is done to arcs.

Cycle numbers are integers here. The source takes them through `floor :: Time -> Int`; the model is
about times whose cycle number fits that type.
-/

namespace Tidal

/-- Time is rational. -/
abbrev Time := ℚ

/-- An arc of time, with a start time (or onset) and a stop time (or offset). -/
structure ArcF (τ : Type) where
  start : τ
  stop : τ
deriving DecidableEq

abbrev Arc := ArcF Time

/-- The derived functor on arcs. -/
def ArcF.map {τ σ : Type} (f : τ → σ) (a : ArcF τ) : ArcF σ := ⟨f a.start, f a.stop⟩

/-! ## Times -/

/-- The `sam` (start of cycle) for the given time value. -/
def sam (t : Time) : Time := (⌊t⌋ : ℤ)

/-- The end point of the current cycle (and starting point of the next cycle). -/
def nextSam (t : Time) : Time := 1 + sam t

/-- The position of a time value relative to the start of its cycle. -/
def cyclePos (t : Time) : Time := t - sam t

/-- The lowest common multiple of two rational numbers. -/
def lcmr (a b : ℚ) : ℚ := (Int.lcm a.num b.num : ℚ) / (Nat.gcd a.den b.den : ℚ)

/-! ## Intersections -/

/-- Convex hull union. -/
def hull (a b : Arc) : Arc := ⟨min a.start b.start, max a.stop b.stop⟩

/-- Simple intersection of two arcs. -/
def sect (a b : Arc) : Arc := ⟨max a.start b.start, min a.stop b.stop⟩

/-- The timespan that is the intersection of `a` and `b`. A result may be zero-width, but not at the
end of a non-zero-width arc: `(0,1)` and `(1,2)` do not intersect, but `(1,1)` and `(1,1)` do. -/
def subArc (a b : Arc) : Option Arc :=
  let c := sect a b
  if c.start = c.stop ∧ c.start = a.stop ∧ a.start < a.stop then none
  else if c.start = c.stop ∧ c.start = b.stop ∧ b.start < b.stop then none
  else if c.start ≤ c.stop then some c
  else none

/-- `subArc` on wholes: an analog event (one without a whole) makes the result analog. -/
def subMaybeArc : Option Arc → Option Arc → Option (Option Arc)
  | some a, some b => do
    let sa ← subArc a b
    return some sa
  | _, _ => some none

/-! ## Cycles -/

/-- The cycle that the time falls within. -/
def timeToCycleArc (t : Time) : Arc := ⟨sam t, sam t + 1⟩

/-- Shifts an arc to one of equal duration that starts within cycle zero. -/
def cycleArc (a : Arc) : Arc := ⟨cyclePos a.start, cyclePos a.start + (a.stop - a.start)⟩

/-- The numbers of the cycles that the arc overlaps (excluding its endpoint, unless it has
duration 0). -/
def cyclesInArc (a : Arc) : List ℤ :=
  if a.start > a.stop then []
  else if a.start = a.stop then [⌊a.start⌋]
  else (List.range (⌈a.stop⌉ - ⌊a.start⌋).toNat).map fun i : ℕ => ⌊a.start⌋ + (i : ℤ)

/-- `cyclesInArc` with each cycle number as the arc of its cycle. -/
def cycleArcsInArc (a : Arc) : List Arc :=
  (cyclesInArc a).map fun c : ℤ => timeToCycleArc (c : Time)

theorem floor_nextSam (t : Time) : ⌊nextSam t⌋ = ⌊t⌋ + 1 := by
  simp [nextSam, sam, add_comm]

/-- Splits the given arc into a list of arcs, at cycle boundaries. -/
def arcCycles (a : Arc) : List Arc :=
  if a.start ≥ a.stop then []
  else if sam a.start = sam a.stop then [a]
  else ⟨a.start, nextSam a.start⟩ :: arcCycles ⟨nextSam a.start, a.stop⟩
-- the part that is left starts one cycle later, and an arc ends after the cycle it starts in begins
termination_by (⌈a.stop⌉ - ⌊a.start⌋).toNat
decreasing_by
  rename_i h _
  have hlt : ⌊a.start⌋ < ⌈a.stop⌉ :=
    Int.floor_lt.mpr ((not_le.mp h).trans_le (Int.le_ceil a.stop))
  simp only [floor_nextSam]
  omega

/-- Like `arcCycles`, but returns zero-width arcs. -/
def arcCyclesZW (a : Arc) : List Arc :=
  if a.start = a.stop then [a] else arcCycles a

/-- Similar to `fmap` but time is relative to the cycle (i.e. the sam of the start of the arc). -/
def mapCycle (f : Time → Time) (a : Arc) : Arc :=
  let sam' := sam a.start
  ⟨sam' + f (a.start - sam'), sam' + f (a.stop - sam')⟩

/-- `isIn a t` holds if `t` is inside the arc represented by `a`. -/
def isIn (a : Arc) (t : Time) : Prop := a.start ≤ t ∧ t < a.stop

instance (a : Arc) (t : Time) : Decidable (isIn a t) := inferInstanceAs (Decidable (_ ∧ _))

end Tidal
