import Tidal.Pattern

/-!
# Combining patterns (`Sound.Tidal.Core`)
-/

namespace Tidal.Pattern

variable {Γ α : Type}

/-- `<>`: both patterns at the same time. -/
def overlay (p p' : Pattern Γ α) : Pattern Γ α := pattern fun st => p.query st ++ p'.query st

/-- `foldl1 lcmr <$> sequence (map tactus pats)`, of no use on the empty list. -/
def lcmTactus (pats : List (Pattern Γ α)) : Option ℚ :=
  match pats.mapM tactus with
  | some (t :: ts) => some (ts.foldl lcmr t)
  | _ => none

/-- Combines a list of patterns so that their events are played simultaneously. -/
def stack (pats : List (Pattern Γ α)) : Pattern Γ α :=
  { pats.foldr overlay silence with tactus := lcmTactus pats }

/-- The query of one cycle of `cat`: pattern `cyc mod n` plays, and the cycle it plays is its own
`cyc div n`. -/
def catCycle (ps : List (Pattern Γ α)) (st : State Γ) (a : Arc) : List (Event α) :=
  let n : ℤ := ps.length
  let cyc := ⌊a.start⌋
  let i := cyc % n
  let offset : Time := ((cyc - (cyc - i) / n : ℤ) : Time)
  let p := ps.getD i.toNat silence
  (withResultTime (fun t => t + offset) p).query { st with arc := ⟨a.start - offset, a.stop - offset⟩ }

/-- Concatenates a list of patterns, playing the first cycle from each in turn, then the second cycle
from each, and so on. -/
def cat : List (Pattern Γ α) → Pattern Γ α
  | [] => silence
  | [p] => p
  | ps => pattern fun st => (arcCyclesZW st.arc).flatMap (catCycle ps st)

/-- The same as `cat`, but speeds up the result by the number of patterns there are. The tactus of an
empty list is an error in the source, and nothing here. -/
def fastCat : List (Pattern Γ α) → Pattern Γ α
  | [p] => p
  | ps =>
    let n : ℚ := ps.length
    let q := _fast n (cat ps)
    match ps.mapM tactus with
    | none => setTactus n q
    | some _ => { q with tactus := (lcmTactus ps).map fun t => t * n }

/-- A pattern of the values of a list, in one cycle. -/
def fastFromList (xs : List α) : Pattern Γ α := fastCat (xs.map Pattern.pure)

/-- The whole numbers below `n`, in one cycle. -/
def _run (n : ℤ) : Pattern Γ ℤ := fastFromList ((List.range n.toNat).map Int.ofNat)

def run (n : Pattern Γ ℤ) : Pattern Γ ℤ := bind n _run

/-- Weighted patterns end to end from time `t` on, each with its start and stop. -/
def arrange (t : Time) : List (Time × Pattern Γ α) → List (Time × Time × Pattern Γ α)
  | [] => []
  | (t', p) :: tps' => (t, t + t', p) :: arrange (t + t') tps'

/-- Similar to `fastCat`, but each pattern is given a relative duration. -/
def timeCat : List (Time × Pattern Γ α) → Pattern Γ α
  | [(_, p)] => p
  | tps =>
    let total := (tps.map Prod.fst).sum
    setTactus total (stack ((arrange 0 (tps.filter fun x => x.1 > 0)).map fun x =>
      compressArc ⟨x.1 / total, x.2.1 / total⟩ x.2.2))

/-- Plays a portion of a pattern, specified by a time arc, over the time period of the original
pattern. -/
def zoomArc (a : Arc) (p : Pattern Γ α) : Pattern Γ α :=
  let d := a.stop - a.start
  withTactus (fun t => t * d) (splitQueries
    (withResultArc (mapCycle fun t => (t - a.start) / d)
      (withQueryArc (mapCycle fun t => t * d + a.start) p)))

def zoom (se : Time × Time) (p : Pattern Γ α) : Pattern Γ α := zoomArc ⟨se.1, se.2⟩ p

/-- Each cycle of the pattern `n` times. -/
def _repeatCycles (n : ℤ) (p : Pattern Γ α) : Pattern Γ α := cat (List.replicate n.toNat p)

/-- The query of `when` within one cycle. -/
def whenCycle (test : ℤ → Bool) (f : Pattern Γ α → Pattern Γ α) (p : Pattern Γ α) (st : State Γ) :
    List (Event α) :=
  if test ⌊st.arc.start⌋ then (f p).query st else p.query st

/-- The given pattern transformation is applied only when the test returns true for the current
cycle. -/
def when (test : ℤ → Bool) (f : Pattern Γ α → Pattern Γ α) (p : Pattern Γ α) : Pattern Γ α :=
  splitQueries { p with query := whenCycle test f p }

/-- The query of `whenT` within one cycle. -/
def whenTPiece (test : Time → Bool) (f : Pattern Γ α → Pattern Γ α) (p : Pattern Γ α) (st : State Γ) :
    List (Event α) :=
  if test st.arc.start then (f p).query st else p.query st

/-- Like `when`, but works on time values rather than cycle numbers. -/
def whenT (test : Time → Bool) (f : Pattern Γ α → Pattern Γ α) (p : Pattern Γ α) : Pattern Γ α :=
  splitQueries { p with query := whenTPiece test f p }

end Tidal.Pattern
