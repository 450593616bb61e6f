import Tidal.Core

/-!
# Stepwise manipulation of patterns (`Sound.Tidal.Stepwise`)
-/

namespace Tidal.Pattern

variable {Γ α β γ : Type}

/-! ## Joining patterns of patterns -/

/-- Each element together with the next. -/
def pairs (rs : List α) : List (α × α) := rs.zip rs.tail

/-- Slice of event within the given range. -/
def match' (b e : Time) (ev : Event α) : Option (Event α) := do
  let a ← subArc ⟨b, e⟩ ev.part
  return { ev with part := a }

/-- List of slices of events within the given range. -/
def fit (b e : Time) (evs : List (Event α)) : List (Event α) := evs.filterMap (match' b e)

/-- Breaks up events at all start and end points, into groups, including empty ones. -/
def slices (evs : List (Event (Pattern Γ α))) : List (Time × Pattern Γ α) :=
  let points := 0 :: 1 :: evs.flatMap fun ev => [ev.part.start, ev.part.stop]
  (pairs (points.eraseDups.insertionSort (· ≤ ·))).map fun s =>
    (s.2 - s.1, stack ((fit s.1 s.2 evs).map EventF.value))

/-- Gives each slice its tactus as its duration. A slice without one gets its share of them. -/
def retime (xs : List (Time × Pattern Γ α)) : List (Time × Pattern Γ α) :=
  let occupied_perc := ((xs.filter fun x => x.2.tactus.isSome).map Prod.fst).sum
  let occupied_tactus := (xs.filterMap fun x => x.2.tactus).sum
  -- where no slice has a tactus this is a division by zero in the source; here it is a weight of zero
  let total_tactus := occupied_tactus / occupied_perc
  xs.map fun x =>
    match x.2.tactus with
    | some t => (t, x.2)
    | none => (x.1 * total_tactus, x.2)

/-- The patterns in one cycle of the outer pattern, with their durations. -/
def cycleSteps (pp : Pattern Γ (Pattern Γ α)) (m : Γ) (sam' : Time) : List (Time × Pattern Γ α) :=
  retime (slices ((rotL sam' pp).query ⟨⟨0, 1⟩, m⟩))

/-- Turns a pattern of patterns into a single pattern, each playing for as long as its tactus says. -/
def stepJoin [EmptyCollection Γ] (pp : Pattern Γ (Pattern Γ α)) : Pattern Γ α :=
  { query := fun st => (timeCat (cycleSteps pp st.controls (sam st.arc.start))).query st
    tactus := (timeCat (retime (slices (queryArc pp ⟨0, 1⟩)))).tactus
    pureValue := none }

/-- A function with a patterned parameter, joined stepwise. -/
def s_patternify [EmptyCollection Γ] (f : Lazy α → Pattern Γ β → Pattern Γ γ) (pa : Pattern Γ α)
    (p : Pattern Γ β) : Pattern Γ γ :=
  match pa.pureValue with
  | some a => f a p
  | none => stepJoin (fmap (fun a => f (some a) p) pa)

/-! ## Taking and dropping steps -/

/-- The lowest common multiple of the tactuses, of no use on the empty list. -/
def _lcmtactus (pats : List (Pattern Γ α)) : Option Time := lcmTactus pats

def s_cat (pats : List (Pattern Γ α)) : Pattern Γ α :=
  timeCat (pats.map fun pat => (pat.tactus.getD 1, pat))

def _s_add (r : ℚ) (pat : Pattern Γ α) : Pattern Γ α :=
  match pat.tactus with
  | none => pat
  | some t =>
    if r = 0 then nothing
    else if |r| ≥ t then pat
    else if r < 0 then zoom (1 - |r| / t, 1) pat
    else zoom (0, r / t) pat

def _s_sub (r : ℚ) (pat : Pattern Γ α) : Pattern Γ α :=
  match pat.tactus with
  | none => pat
  | some t =>
    if r ≥ t then nothing
    else if r < 0 then _s_add (0 - (t + r)) pat
    else _s_add (t - r) pat

def _s_expand (factor : ℚ) (pat : Pattern Γ α) : Pattern Γ α := withTactus (fun t => t * factor) pat

def _s_contract (factor : ℚ) (pat : Pattern Γ α) : Pattern Γ α := withTactus (fun t => t / factor) pat

section Patterned

variable [EmptyCollection Γ]

def s_add (pa : Pattern Γ ℚ) (p : Pattern Γ α) : Pattern Γ α := s_patternify (strict _s_add) pa p

def s_sub (pa : Pattern Γ ℚ) (p : Pattern Γ α) : Pattern Γ α := s_patternify (strict _s_sub) pa p

def s_expand (pa : Pattern Γ ℚ) (p : Pattern Γ α) : Pattern Γ α :=
  s_patternify (strict _s_expand) pa p

def s_contract (pa : Pattern Γ ℚ) (p : Pattern Γ α) : Pattern Γ α :=
  s_patternify (strict _s_contract) pa p

end Patterned

end Tidal.Pattern
