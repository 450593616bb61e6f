import Tidal.Chew

/-!
# Granulators and slices (`Sound.Tidal.Control`)

Parts of a sample are played by control maps with a `begin` and an `end`. As in `Tidal.Chew`, control
patterns are evaluated ones.
-/

namespace Tidal

variable {Γ S : Type}

namespace ValueMap

/-- The number that the map has for a key. -/
def number (k : String) (v : ValueMap S) : Option ℚ := v[k]? >>= Value.getF

end ValueMap

namespace Pattern

/-- `#`: structure from the left, values from the right. -/
def unionRight (a b : Pattern Γ (ValueMap S)) : Pattern Γ (ValueMap S) :=
  apLeft (fmap (fun x y => Map.union y x) a) b

def begin' (p : Pattern Γ ℚ) : Pattern Γ (ValueMap S) := pF "begin" p

def end' (p : Pattern Γ ℚ) : Pattern Γ (ValueMap S) := pF "end" p

/-! ## Granulators -/

def makeMap (be : ℚ × ℚ) : ValueMap S :=
  ((∅ : ValueMap S).insert "begin" (.VF be.1)).insert "end" (.VF be.2)

/-- The part `(b, e)` of the range of a map that has both ends as numbers. -/
def merge (v : ValueMap S) (be : ℚ × ℚ) : Option (ValueMap S) := do
  let b' ← v.number "begin"
  let e' ← v.number "end"
  let d := e' - b'
  return makeMap (b' + be.1 * d, b' + be.2 * d)

def rangemap (v : ValueMap S) (be : ℚ × ℚ) : ValueMap S :=
  Map.union ((merge v be).getD (makeMap be)) v

/-- The `n` equal parts of the range from 0 to 1. -/
def chopSlices (n : ℤ) : List (ℚ × ℚ) :=
  let frac (i : ℤ) : ℚ := i / n
  ((List.range n.toNat).map Int.ofNat).map fun i => (frac i, frac (i + 1))

/-- The control maps that `_chop` makes of one. -/
def chopPieces (n : ℤ) (v : ValueMap S) : List (ValueMap S) := (chopSlices n).map (rangemap v)

/-- Cuts each sample into `n` parts, which are played one after the other. -/
def _chop (n : ℤ) (pat : Pattern Γ (ValueMap S)) : Pattern Γ (ValueMap S) :=
  squeezeJoin (fmap (fun v => fastCat ((chopPieces n v).map Pattern.pure)) pat)

def chop (n : Pattern Γ ℤ) (pat : Pattern Γ (ValueMap S)) : Pattern Γ (ValueMap S) :=
  patternify (strict _chop) n pat

def mergePlayRange (be : ℚ × ℚ) (cm : ValueMap S) : ValueMap S :=
  let b' := (cm.number "begin").getD 0
  let e' := (cm.number "end").getD 1
  let d' := e' - b'
  (cm.insert "end" (.VF (be.2 * d' + b'))).insert "begin" (.VF (be.1 * d' + b'))

/-- Plays the pattern `n` times, each time another part of each sample. -/
def _striate (n : ℤ) (p : Pattern Γ (ValueMap S)) : Pattern Γ (ValueMap S) :=
  keepTactus (withTactus (fun t => t * n) p)
    (fastCat ((chopSlices n).map fun be => fmap (mergePlayRange be) p))

def striate (n : Pattern Γ ℤ) (p : Pattern Γ (ValueMap S)) : Pattern Γ (ValueMap S) :=
  patternify (strict _striate) n p

/-! ## Slices -/

def div' (num den : ℤ) : ℚ := ((num % den : ℤ) : ℚ) / den

/-- Plays the parts of the samples of `p` that `pI` numbers. -/
def slice (pN pI : Pattern Γ ℤ) (p : Pattern Γ (ValueMap S)) : Pattern Γ (ValueMap S) :=
  let b := apLeft (fmap div' pI) pN
  let e := apLeft (fmap (fun i n => div' i n + div' 1 n) pI) pN
  unionRight (unionRight (begin' b) (end' e)) p

def _slice (n i : ℤ) (p : Pattern Γ (ValueMap S)) : Pattern Γ (ValueMap S) :=
  unionRight (unionRight p (begin' (Pattern.pure (i / n)))) (end' (Pattern.pure ((i + 1 : ℤ) / n)))

end Pattern

end Tidal
