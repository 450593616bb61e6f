import Tidal.Checked
import Tidal.Stepwise

/-!
# Stepwise joins with their divisions checked

`stepJoin` weighs the slices of a cycle by their tactus, and divides to weigh those that have none. A weight
is evaluated only when several slices are laid out, and the total of the weights only where it divides, or
when the tactus of the joined pattern is asked for. The patterns that are joined do not raise themselves.
-/

namespace Tidal.Checked

variable {Γ α β γ : Type}

/-- A pattern that does not raise. Nothing looks at its cached value here. -/
def ofPattern (p : Pattern Γ α) : Result (Checked Γ α) :=
  pattern fun st => .ok ((p.query st).map (EventF.map .ok))

/-- Gives each slice its weight, unevaluated. -/
def retime (xs : List (Time × Pattern Γ α)) : List (Result Time × Pattern Γ α) :=
  let occupied_perc := ((xs.filter fun x => x.2.tactus.isSome).map Prod.fst).sum
  let occupied_tactus := (xs.filterMap fun x => x.2.tactus).sum
  let total_tactus := ratio occupied_tactus occupied_perc
  xs.map fun x =>
    match x.2.tactus with
    | some t => (.ok t, x.2)
    | none => (do return x.1 * (← total_tactus), x.2)

/-- `timeCat` of weights that are unevaluated. A single pattern plays whatever its weight is. -/
def timeCatRetimed : List (Result Time × Pattern Γ α) → Result (Checked Γ α)
  | [(_, p)] => ofPattern p
  | tps => do timeCat (← tps.mapM fun x => do return (← x.1, ofPattern x.2))

/-- The tactus that `timeCat` sets. -/
def tactusRetimed : List (Result Time × Pattern Γ α) → Option (Result ℚ)
  | [(_, p)] => p.tactus.map .ok
  | tps => some do return (← tps.mapM Prod.fst).sum

/-- A joined pattern, with its tactus unevaluated. -/
structure Joined (Γ α : Type) where
  query : State Γ → Result (List (Event (Result α)))
  tactus : Option (Result ℚ)

def stepJoin [EmptyCollection Γ] (pp : Pattern Γ (Pattern Γ α)) : Joined Γ α where
  query st := do
    let p ← timeCatRetimed (retime (Pattern.slices
      ((Pattern.rotL (sam st.arc.start) pp).query ⟨⟨0, 1⟩, st.controls⟩)))
    p.query st
  tactus := tactusRetimed (retime (Pattern.slices (Pattern.queryArc pp ⟨0, 1⟩)))

def s_patternify [EmptyCollection Γ] (f : Lazy α → Pattern Γ β → Pattern Γ γ) (pa : Pattern Γ α)
    (p : Pattern Γ β) : Joined Γ γ :=
  match pa.pureValue with
  | some a => ⟨fun st => .ok (((f a p).query st).map (EventF.map .ok)), (f a p).tactus.map .ok⟩
  | none => stepJoin (Pattern.fmap (fun a => f (some a) p) pa)

end Tidal.Checked
