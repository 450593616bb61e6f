import Tidal.StepJoin

/-!
# Operators on time with their divisions checked

Operators that turn a parameter into a reciprocal, into a divisor of the times of events or into a modulus.
Some have a guard against zero, and the others leave it to the operator that they call.
-/

namespace Tidal.Checked

variable {Γ α β : Type}

/-! ## Joins -/

def focusArc (a : Arc) (p : Result (Checked Γ α)) : Result (Checked Γ α) := do
  rotR (cyclePos a.start) (_fast (← ratio 1 (a.stop - a.start)) p)

/-- What one outer event contributes to `squeezeJoin`. -/
def squeezeEvent (st : State Γ) (e : Event (Result (Checked Γ α))) : Result (List (Event (Result α))) := do
  let v ← focusArc e.wholeOrPart e.value
  return (← v.query { st with arc := e.part }).filterMap (Pattern.munge e.context e.whole e.part)

def squeezeJoin (pp : Result (Checked Γ (Checked Γ α))) : Result (Checked Γ α) := do
  let pp ← pp
  pattern fun st => do concatMapM (squeezeEvent st) (← pp.query st)

/-- An event of `pf` with the events of `px` during it. -/
def matchLeft (px : Checked Γ α) (st : State Γ) (ef : Event (Result (Result α → Result β))) :
    Result (List (Option (Event (Result β)))) := do
  return (← px.query { st with arc := ef.wholeOrPart }).map (Pattern.withFXWhole ef.whole (ef.map apply))

/-- `<*` -/
def apLeft (pf : Result (Checked Γ (Result α → Result β))) (px : Result (Checked Γ α)) : Result (Checked Γ β) :=
  pattern fun st => do
    let pf ← pf
    let px ← px
    let es ← concatMapM (matchLeft px st) (← pf.query st)
    return es.reduceOption

/-! ## Manipulating time -/

def _segment (n : Time) (p : Result (Checked Γ α)) : Result (Checked Γ α) :=
  apLeft (_fast n (Checked.pure (.ok fun x => x))) p

def _ply (n : Time) (pat : Result (Checked Γ α)) : Result (Checked Γ α) :=
  squeezeJoin (fmap (fun v => _fast n (Checked.pure v)) pat)

def withQueryArc (f : Arc → Arc) (p : Result (Checked Γ α)) : Result (Checked Γ α) := do
  let p ← p
  return { p with query := fun st => p.query { st with arc := f st.arc } }

def mapCycle (f : Time → Result Time) (a : Arc) : Result Arc := do
  let sam' := sam a.start
  return ⟨sam' + (← f (a.start - sam')), sam' + (← f (a.stop - sam'))⟩

def zoomArc (a : Arc) (p : Result (Checked Γ α)) : Result (Checked Γ α) :=
  let d := a.stop - a.start
  splitQueries (withResultArc (mapCycle fun t => ratio (t - a.start) d)
    (withQueryArc (Tidal.mapCycle fun t => t * d + a.start) p))

/-- Truncates a pattern so that only the first cycle (or fraction of one) is played. -/
def _trunc (t : Time) (p : Result (Checked Γ α)) : Result (Checked Γ α) := compressArc ⟨0, t⟩ (zoomArc ⟨0, t⟩ p)

/-- The first fraction of the pattern, or the last one if `n` is negative, fills the cycle. -/
def _linger (n : Time) (p : Result (Checked Γ α)) : Result (Checked Γ α) :=
  if n < 0 then do _fast (← ratio 1 n) (zoomArc ⟨1 + n, 1⟩ p)
  else do _fast (← ratio 1 n) (zoomArc ⟨0, n⟩ p)

/-! ## Conditions on the cycle -/

/-- The query of `when` within one cycle. -/
def whenCycle (test : ℤ → Result Bool) (f : Result (Checked Γ α) → Result (Checked Γ α)) (p : Checked Γ α)
    (st : State Γ) : Result (List (Event (Result α))) := do
  if ← test ⌊st.arc.start⌋ then (← f (.ok p)).query st else p.query st

def when (test : ℤ → Result Bool) (f : Result (Checked Γ α) → Result (Checked Γ α)) (p : Result (Checked Γ α)) :
    Result (Checked Γ α) := do
  let p ← p
  splitQueries (.ok { p with query := whenCycle test f p })

/-- Unlike `_every`, this has no case for zero. -/
def _every' (n o : ℤ) (f : Result (Checked Γ α) → Result (Checked Γ α)) (p : Result (Checked Γ α)) :
    Result (Checked Γ α) :=
  when (fun c => do return (← mod c n) = o) f p

end Tidal.Checked
