import Tidal.UI

/-!
# Transformers made from others (`Sound.Tidal.Core`, `Sound.Tidal.UI`, `Sound.Tidal.Control`)

What users apply to their patterns. A negative number of patterns or of repetitions is as none.
-/

namespace Tidal.Pattern

variable {Γ α β τ : Type}

/-! ## Several versions of a pattern -/

def append (a b : Pattern Γ α) : Pattern Γ α := cat [a, b]

def fastAppend (a b : Pattern Γ α) : Pattern Γ α := _fast 2 (append a b)

/-- Applies a function with each of the values in turn, one a cycle. -/
def spread (f : τ → β → Pattern Γ α) (xs : List τ) (p : β) : Pattern Γ α := cat (xs.map fun x => f x p)

/-- The same as `spread`, but within a cycle. -/
def fastspread (f : τ → β → Pattern Γ α) (xs : List τ) (p : β) : Pattern Γ α :=
  fastCat (xs.map fun x => f x p)

/-- Layers up multiple functions on one pattern. -/
def layer (fs : List (β → Pattern Γ α)) (p : β) : Pattern Γ α := stack (fs.map fun f => f p)

def superimpose (f : Pattern Γ α → Pattern Γ α) (p : Pattern Γ α) : Pattern Γ α := stack [p, f p]

/-- Superimposes a modified version of a pattern, shifted in time. -/
def _off (t : Time) (f : Pattern Γ α → Pattern Γ α) (p : Pattern Γ α) : Pattern Γ α :=
  superimpose (fun q => f (rotR t q)) p

def off (tp : Pattern Γ Time) (f : Pattern Γ α → Pattern Γ α) (p : Pattern Γ α) : Pattern Γ α :=
  innerJoin (fmap (fun tv => _off tv f p) tp)

/-- Repeats each event `n` times, `t` apart. -/
def stutter (n : ℤ) (t : Time) (p : Pattern Γ α) : Pattern Γ α :=
  stack ((List.range n.toNat).map fun i : ℕ => rotR (t * i) p)

/-- Applies a function to each echo of the pattern and overlays the result, delayed by the time. -/
def _echoWith (count : ℤ) (time : Time) (f : Pattern Γ α → Pattern Γ α) (p : Pattern Γ α) :
    Pattern Γ α :=
  if count ≤ 1 then p else overlay (f (rotR time (_echoWith (count - 1) time f p))) p
termination_by (count - 1).toNat

def echoWith (n : Pattern Γ ℤ) (t : Pattern Γ Time) (f : Pattern Γ α → Pattern Γ α)
    (p : Pattern Γ α) : Pattern Γ α :=
  innerJoin (apLeft (fmap (fun a b => _echoWith a b f p) n) t)

/-- Adds two versions of the pattern, as ghost notes. -/
def ghostWith (a : Time) (f : Pattern Γ α → Pattern Γ α) (p : Pattern Γ α) : Pattern Γ α :=
  superimpose (fun q => rotR (a * (5 / 2)) (f q)) (superimpose (fun q => rotR (a * (3 / 2)) (f q)) p)

/-- The pattern, what the function makes of it, what it makes of that and so on, `depth` of them, one a
cycle. -/
def soak (depth : ℤ) (f : Pattern Γ α → Pattern Γ α) (pat : Pattern Γ α) : Pattern Γ α :=
  cat ((List.range depth.toNat).map fun i => f^[i] pat)

/-! ## In some of the cycles -/

def _every (n : ℤ) (f : Pattern Γ α → Pattern Γ α) (p : Pattern Γ α) : Pattern Γ α :=
  if n = 0 then p else when (fun c => c.fmod n = 0) f p

def every (tp : Pattern Γ ℤ) (f : Pattern Γ α → Pattern Γ α) (p : Pattern Γ α) : Pattern Γ α :=
  innerJoin (fmap (fun t => _every t f p) tp)

/-- As `_every`, in the cycles with the remainder `o`. A period of zero is an error in the source. -/
def _every' (n o : ℤ) (f : Pattern Γ α → Pattern Γ α) (p : Pattern Γ α) : Pattern Γ α :=
  when (fun c => c.fmod n = o) f p

/-- The function once for each of the periods, wherever it falls due. -/
def foldEvery (ns : List ℤ) (f : Pattern Γ α → Pattern Γ α) (p : Pattern Γ α) : Pattern Γ α :=
  ns.foldr (fun n => _every n f) p

def _someCyclesBy (x : ℚ) (f : Pattern Γ α → Pattern Γ α) (p : Pattern Γ α) : Pattern Γ α :=
  when (fun c => timeToRand c < x) f p

def someCyclesBy (pd : Pattern Γ ℚ) (f : Pattern Γ α → Pattern Γ α) (pat : Pattern Γ α) :
    Pattern Γ α := innerJoin (fmap (fun d => _someCyclesBy d f pat) pd)

/-- The query of `ifp` within one cycle. -/
def ifpCycle (test : ℤ → Bool) (f1 f2 : Pattern Γ α → Pattern Γ α) (p : Pattern Γ α) (st : State Γ) :
    List (Event α) :=
  if test ⌊st.arc.start⌋ then (f1 p).query st else (f2 p).query st

/-- One function in the cycles that pass the test, and another one in the rest. -/
def ifp (test : ℤ → Bool) (f1 f2 : Pattern Γ α → Pattern Γ α) (p : Pattern Γ α) : Pattern Γ α :=
  splitQueries { p with query := ifpCycle test f1 f2 p, pureValue := none }

/-- Squeezes every other cycle into half of it, and offsets it by a quarter. -/
def brak (p : Pattern Γ α) : Pattern Γ α :=
  when (fun c => c.fmod 2 = 1) (fun q => rotR (1 / 4) (fastCat [q, silence])) p

/-- Shifts the pattern a subdivision further each cycle. -/
def _iter (n : ℤ) (p : Pattern Γ α) : Pattern Γ α :=
  cat ((List.range n.toNat).map fun i : ℕ => rotL (i / n) p)

/-- As `_iter`, in the opposite direction. -/
def _iter' (n : ℤ) (p : Pattern Γ α) : Pattern Γ α :=
  cat ((List.range n.toNat).map fun i : ℕ => rotR (i / n) p)

/-- Every other cycle backwards. -/
def palindrome (p : Pattern Γ α) : Pattern Γ α := append p (rev p)

/-- Carries out an operation as if it were outside of some cycles. For `n` zero the division is an error
in the source. -/
def _outside (n : Time) (f : Pattern Γ α → Pattern Γ β) (p : Pattern Γ α) : Pattern Γ β :=
  _inside (1 / n) f p

/-! ## Structure -/

/-- `|+|` and the like, for any operation: the structure comes from both sides. -/
def opBoth (op : α → β → α) (a : Pattern Γ α) (b : Pattern Γ β) : Pattern Γ α := ap (fmap op a) b

/-- `|+` and the like: the structure comes from the left. -/
def opLeft (op : α → β → α) (a : Pattern Γ α) (b : Pattern Γ β) : Pattern Γ α := apLeft (fmap op a) b

/-- `+|` and the like: the structure comes from the right. -/
def opRight (op : α → β → α) (a : Pattern Γ α) (b : Pattern Γ β) : Pattern Γ α := apRight (fmap op a) b

def applyPatToPatSqueeze (pf : Pattern Γ (α → β)) (px : Pattern Γ α) : Pattern Γ β :=
  squeezeJoin (fmap (fun f => fmap f px) pf)

/-- `<<*`: each cycle of the right hand side is squeezed into an event of the left hand side. -/
def apSqueeze (a : Pattern Γ (α → β)) (b : Pattern Γ α) : Pattern Γ β :=
  { applyPatToPatSqueeze a b with tactus := do return (← a.tactus) * (← b.tactus) }

/-- `||+` and the like. -/
def opSqueeze (op : α → β → α) (a : Pattern Γ α) (b : Pattern Γ β) : Pattern Γ α := apSqueeze (fmap op a) b

/-- Samples the pattern at a rate of `n` events a cycle. -/
def _segment (n : Time) (p : Pattern Γ α) : Pattern Γ α :=
  setTactus n (apLeft (_fast n (Pattern.pure id)) p)

/-- The structure of the true values of a boolean pattern, with the values of another. -/
def struct (ps : Pattern Γ Bool) (pv : Pattern Γ α) : Pattern Γ α :=
  filterJust (apLeft (fmap (fun a b => if a then some b else none) ps) pv)

/-- One pattern gives the values where the boolean is true, the other one where it is false. -/
def stitch (pb : Pattern Γ Bool) (a b : Pattern Γ α) : Pattern Γ α :=
  overlay (struct pb a) (struct (inv pb) b)

/-- Applies the function while the boolean is true. (The source's name is a keyword here.) -/
def «while» (b : Pattern Γ Bool) (f : Pattern Γ α → Pattern Γ α) (pat : Pattern Γ α) : Pattern Γ α :=
  keepTactus pat (sew b (f pat) pat)

/-- Repeats each event `n` times within its span. -/
def _ply (n : ℚ) (pat : Pattern Γ α) : Pattern Γ α :=
  squeezeJoin (fmap (fun v => _fast n (Pattern.pure v)) pat)

/-! ## At random -/

/-- Keeps the events whose number in `prand` is greater than `x`. -/
def _degradeByUsing (prand : Pattern Γ ℚ) (x : ℚ) (p : Pattern Γ α) : Pattern Γ α :=
  fmap Prod.fst (filterValues (fun v => v.2 > x) (apLeft (fmap Prod.mk p) prand))

def _degradeBy (x : ℚ) (p : Pattern Γ α) : Pattern Γ α := _degradeByUsing rand x p

/-- The events that `_degradeBy` removes. -/
def _unDegradeBy (x : ℚ) (p : Pattern Γ α) : Pattern Γ α :=
  fmap Prod.fst (filterValues (fun v => v.2 ≤ x) (apLeft (fmap Prod.mk p) rand))

def degradeBy (tp : Pattern Γ ℚ) (p : Pattern Γ α) : Pattern Γ α := patternify' (strict _degradeBy) tp p

def unDegradeBy (tp : Pattern Γ ℚ) (p : Pattern Γ α) : Pattern Γ α :=
  patternify' (strict _unDegradeBy) tp p

/-- Applies the function to the events that `degradeBy` removes. -/
def sometimesBy (x : Pattern Γ ℚ) (f : Pattern Γ α → Pattern Γ α) (pat : Pattern Γ α) : Pattern Γ α :=
  overlay (degradeBy x pat) (f (unDegradeBy x pat))

/-- As `sometimesBy`, but chooses from the events of the transformed pattern. -/
def sometimesBy' (x : Pattern Γ ℚ) (f : Pattern Γ α → Pattern Γ α) (pat : Pattern Γ α) : Pattern Γ α :=
  overlay (degradeBy x pat) (unDegradeBy x (f pat))

end Tidal.Pattern
