import Tidal.ParseBP
import Tidal.Lib.Raises

/-!
# Mini-notation with its divisions checked

The functions that a tree of mini-notation is made of, with the exceptions that division raises. What the
source leaves unevaluated may raise later or not at all, so it is a `Result` here: a pattern, the values
of its events and its cached value. The times of events cannot raise, but are divided with the check all
the same. Nothing looks at the tactus of a pattern while a query is answered, and it is left out.
-/

namespace Tidal

/-- The exceptions of a division by zero. -/
inductive ArithException where
  | RatioZeroDenominator
  | DivideByZero
deriving DecidableEq

abbrev Result (α : Type) := Except ArithException α

/-- `/` on rationals, and `%`. -/
def ratio (x y : ℚ) : Result ℚ := if y = 0 then .error .RatioZeroDenominator else .ok (x / y)

def div (x y : ℤ) : Result ℤ := if y = 0 then .error .DivideByZero else .ok (x / y)

def mod (x y : ℤ) : Result ℤ := if y = 0 then .error .DivideByZero else .ok (x % y)

/-- A pattern that has been evaluated, so that it can be queried. -/
structure Checked (Γ α : Type) where
  query : State Γ → Result (List (Event (Result α)))
  pureValue : Option (Result α)

/-- Weighted things end to end from time `t` on, as `Pattern.arrange` has them. -/
def arrange {τ : Type} (t : Time) : List (Time × τ) → List (Time × Time × τ)
  | [] => []
  | (t', p) :: tps' => (t, t + t', p) :: arrange (t + t') tps'

namespace Checked

open EventF

variable {Γ α β γ δ : Type}

/-! ## Patterns -/

def pattern (f : State Γ → Result (List (Event (Result α)))) : Result (Checked Γ α) := .ok ⟨f, none⟩

def silence : Result (Checked Γ α) := pattern fun _ => .ok []

protected def pure (v : Result α) : Result (Checked Γ α) :=
  .ok ⟨fun st => .ok ((Pattern.pure v : Pattern Γ (Result α)).query st), some v⟩

/-- The values are mapped when they are looked at. -/
def fmap (f : Result α → Result β) (p : Result (Checked Γ α)) : Result (Checked Γ β) := do
  let p ← p
  return ⟨fun st => do return (← p.query st).map (EventF.map f), p.pureValue.map f⟩

def splitQueries (p : Result (Checked Γ α)) : Result (Checked Γ α) := do
  let p ← p
  let q := fun st : State Γ => concatMapM (fun a => p.query { st with arc := a }) (arcCyclesZW st.arc)
  return { p with query := q }

/-- A function on arcs, applied to both the whole and the part of an event. -/
def mapArc (f : Arc → Result Arc) (e : Event α) : Result (Event α) := do
  let whole ← e.whole.mapM f
  let part ← f e.part
  return ⟨e.context, whole, part, e.value⟩

def withResultArc (f : Arc → Result Arc) (p : Result (Checked Γ α)) : Result (Checked Γ α) := do
  let p ← p
  return { p with query := fun st => do (← p.query st).mapM (mapArc f) }

def withResultTime (f : Time → Result Time) (p : Result (Checked Γ α)) : Result (Checked Γ α) :=
  withResultArc (fun a => do return ⟨← f a.start, ← f a.stop⟩) p

def withQueryTime (f : Time → Time) (p : Result (Checked Γ α)) : Result (Checked Γ α) := do
  let p ← p
  return { p with query := fun st => p.query ⟨ArcF.map f st.arc, st.controls⟩ }

def setContext (c : Context) (p : Result (Checked Γ α)) : Result (Checked Γ α) := do
  let p ← p
  return { p with query := fun st => do return (← p.query st).map fun e => { e with context := c } }

def rotL (t : Time) (p : Result (Checked Γ α)) : Result (Checked Γ α) :=
  withResultTime (fun x => .ok (x - t)) (withQueryTime (fun x => x + t) p)

def rotR (t : Time) (p : Result (Checked Γ α)) : Result (Checked Γ α) := rotL (-t) p

/-- The query of `rev` within one cycle. -/
def revCycle (p : Checked Γ α) (st : State Γ) : Result (List (Event (Result α))) := do
  let mid := Pattern.midCycle st.arc
  let es ← p.query { st with arc := Pattern.mirrorArc mid st.arc }
  return (Pattern.mapParts (Pattern.mirrorArc mid) (es.map Pattern.makeWholeRelative)).map
    Pattern.makeWholeAbsolute

def rev (p : Result (Checked Γ α)) : Result (Checked Γ α) := do
  let p ← p
  splitQueries (.ok { p with query := revCycle p })

def _fastForward (rate : Time) (pat : Result (Checked Γ α)) : Result (Checked Γ α) :=
  withResultTime (ratio · rate) (withQueryTime (fun x => x * rate) pat)

def _fast (rate : Time) (pat : Result (Checked Γ α)) : Result (Checked Γ α) :=
  if rate = 0 then silence
  else if rate < 0 then rev (_fastForward (-rate) pat)
  else _fastForward rate pat

def _slow (r : Time) (p : Result (Checked Γ α)) : Result (Checked Γ α) :=
  if r = 0 then silence else do _fast (← ratio 1 r) p

/-- The arc that `_fastGap` queries for an arc within one cycle. -/
def gapArc (r : Time) (a : Arc) : Arc := ⟨Pattern.mungeQuery r a.start, Pattern.mungeQuery r a.stop⟩

/-- The query of `_fastGap` within one cycle. -/
def gapQuery (r : Time) (p : Checked Γ α) (st : State Γ) : Result (List (Event (Result α))) :=
  if (gapArc r st.arc).start = nextSam st.arc.start then .ok []
  else p.query { st with arc := gapArc r st.arc }

def _fastGap (r : Time) (p : Result (Checked Γ α)) : Result (Checked Γ α) :=
  if r = 0 then silence
  else do
    let r' := max r 1
    let p ← p
    splitQueries (withResultArc
      (fun a => do
        return ⟨sam a.start + (← ratio (a.start - sam a.start) r'),
          sam a.start + (← ratio (a.stop - sam a.start) r')⟩)
      (.ok { p with query := gapQuery r' p }))

def compressArc (a : Arc) (p : Result (Checked Γ α)) : Result (Checked Γ α) :=
  if a.start > a.stop then silence
  else if a.start > 1 ∨ a.stop > 1 then silence
  else if a.start < 0 ∨ a.stop < 0 then silence
  else do rotR a.start (_fastGap (← ratio 1 (a.stop - a.start)) p)

/-! ## Parameters -/

def innerJoin (pp : Result (Checked Γ (Checked Γ α))) : Result (Checked Γ α) := do
  let pp ← pp
  pattern fun st => do
    concatMapM (fun e => do
      let v ← e.value
      return (← v.query { st with arc := e.part }).filterMap (Pattern.mungeInner st.arc e.context))
      (← pp.query st)

/-- The parameter is handed over unevaluated. -/
def patternify (f : Result α → Result (Checked Γ β)) (pa : Result (Checked Γ α)) : Result (Checked Γ β) := do
  let pa ← pa
  match pa.pureValue with
  | some a => f a
  | none => innerJoin (fmap f (.ok pa))

def fast (t : Result (Checked Γ Time)) (pat : Result (Checked Γ α)) : Result (Checked Γ α) :=
  patternify (fun r => do _fast (← r) pat) t

def slow (t : Result (Checked Γ Time)) (pat : Result (Checked Γ α)) : Result (Checked Γ α) :=
  patternify (fun r => do _slow (← r) pat) t

/-- An unevaluated function, applied. -/
def apply (f : Result (Result α → Result β)) (x : Result α) : Result β := do (← f) x

/-- An event of `pf` with the events of `px`. -/
def match' (px : Checked Γ α) (st : State Γ) (ef : Event (Result (Result α → Result β))) :
    Result (List (Option (Event (Result β)))) :=
  match ef.whole with
  | none => do
    return (← px.query { st with arc := ef.part }).map (Pattern.withFXBoth (ef.map apply))
  | some fWhole => do
    return ((← px.query { st with arc := fWhole }).filter isDigital).map
      (Pattern.withFXBoth (ef.map apply))

/-- An analog event of `px` with the digital events of `pf`. -/
def matchX (pf : Checked Γ (Result α → Result β)) (st : State Γ) (ex : Event (Result α)) :
    Result (List (Option (Event (Result β)))) :=
  match ex.whole with
  | none => do
    return ((← pf.query { st with arc := ex.part }).filter isDigital).map fun ef =>
      Pattern.withFXBoth (ef.map apply) ex
  | some _ => .ok []

/-- `<*>`: neither side is evaluated before there is a query. -/
def ap (pf : Result (Checked Γ (Result α → Result β))) (px : Result (Checked Γ α)) :
    Result (Checked Γ β) :=
  pattern fun st => do
    let pf ← pf
    let px ← px
    let es ← concatMapM (match' px st) (← pf.query st)
    let es' ← concatMapM (matchX pf st) ((← px.query st).filter isAnalog)
    return (es ++ es').reduceOption

def patternify3 (f : Result α → Result β → Result γ → Result (Checked Γ δ)) (a : Result (Checked Γ α)) (b : Result (Checked Γ β))
    (c : Result (Checked Γ γ)) : Result (Checked Γ δ) := do
  let a ← a
  let joined := innerJoin (ap (ap (fmap (fun x => .ok fun y => .ok fun z => f x y z) (.ok a)) b) c)
  match a.pureValue with
  | none => joined
  | some x => do
    let b ← b
    match b.pureValue with
    | none => joined
    | some y => do
      let c ← c
      match c.pureValue with
      | none => joined
      | some z => f x y z

/-! ## Combining patterns -/

/-- `<>` evaluates both patterns. -/
def overlay (p p' : Result (Checked Γ α)) : Result (Checked Γ α) := do
  let p ← p
  let p' ← p'
  pattern fun st => do return (← p.query st) ++ (← p'.query st)

def stack (pats : List (Result (Checked Γ α))) : Result (Checked Γ α) := pats.foldr overlay silence

def catCycle (ps : List (Result (Checked Γ α))) (st : State Γ) (a : Arc) :
    Result (List (Event (Result α))) := do
  let n : ℤ := ps.length
  let cyc := ⌊a.start⌋
  let i ← mod cyc n
  let offset : Time := ((cyc - (← div (cyc - i) n) : ℤ) : Time)
  let p ← withResultTime (fun t => .ok (t + offset)) (ps.getD i.toNat silence)
  p.query { st with arc := ⟨a.start - offset, a.stop - offset⟩ }

/-- A pattern of the list is evaluated when a query comes to it. -/
def cat : List (Result (Checked Γ α)) → Result (Checked Γ α)
  | [] => silence
  | [p] => p
  | ps => pattern fun st => concatMapM (catCycle ps st) (arcCyclesZW st.arc)

def fastCat : List (Result (Checked Γ α)) → Result (Checked Γ α)
  | [p] => p
  | ps => _fast ps.length (cat ps)

def fastFromList (xs : List α) : Result (Checked Γ α) := fastCat (xs.map fun x => Checked.pure (.ok x))

def timeCat : List (Time × Result (Checked Γ α)) → Result (Checked Γ α)
  | [(_, p)] => p
  | tps =>
    let total := (tps.map Prod.fst).sum
    stack ((arrange 0 (tps.filter fun x => x.1 > 0)).map fun x => do
      compressArc ⟨← ratio x.1 total, ← ratio x.2.1 total⟩ x.2.2)

/-! ## Euclidean rhythms -/

def _euclid (n k : ℤ) (a : Result (Checked Γ α)) : Result (Checked Γ α) :=
  if 0 ≤ n then fastCat ((bjorklund n k).map fun b => if b then a else silence)
  else fastCat ((bjorklund (-n) k).map fun b => if b then silence else a)

def _euclidBool (n k : ℤ) : Result (Checked Γ Bool) :=
  if 0 ≤ n then fastFromList (bjorklund n k) else fastFromList ((bjorklund (-n) k).map (!·))

def _euclidOff (n k s : ℤ) (p : Result (Checked Γ α)) : Result (Checked Γ α) :=
  if k = 0 then silence else do rotL (← ratio s k) (_euclid n k p)

/-- A step of a rhythm, or its opposite where the pattern is false. -/
def flipStep (a b : Result Bool) : Result Bool := do if ← b then a else return !(← a)

def _euclidOffBool (n k s : ℤ) (p : Result (Checked Γ Bool)) : Result (Checked Γ Bool) :=
  if k = 0 then silence
  else do
    rotL (← ratio s k) (ap (fmap (fun a => .ok fun b => flipStep a b) (_euclidBool n k)) p)

def euclidOff (n k s : Result (Checked Γ ℤ)) (p : Result (Checked Γ α)) : Result (Checked Γ α) :=
  patternify3 (fun n k s => do _euclidOff (← n) (← k) (← s) p) n k s

def euclidOffBool (n k s : Result (Checked Γ ℤ)) (p : Result (Checked Γ Bool)) : Result (Checked Γ Bool) :=
  patternify3 (fun n k s => do _euclidOffBool (← n) (← k) (← s) p) n k s

end Checked

/-- Trees read as patterns whose evaluation may raise. Random choice, ranges, controls, chords and errors
are read as `J` has them. -/
def checked {Γ : Type} (J : Interpretation fun α => Result (Checked Γ α)) :
    Interpretation fun α => Result (Checked Γ α) :=
  { J with
    silence := Checked.silence
    pure := fun x => Checked.pure (.ok x)
    setContext := Checked.setContext
    stack := Checked.stack
    timeCat := Checked.timeCat
    fast := Checked.fast
    slow := Checked.slow
    divideBy := fun sz p => Checked.fmap (fun x => do ratio (← x) sz) p
    doEuclid := fun how n k s p => match how, p with
      | .euclidOff, p => Checked.euclidOff n k s p
      | .euclidOffBool, p => Checked.euclidOffBool n k s p }

/-- Evaluates a pattern, queries it and evaluates all of the answer. -/
def answer {Γ α : Type} (p : Result (Checked Γ α)) (st : State Γ) : Result (List (Event α)) := do
  let p ← p
  (← p.query st).mapM fun e => do return ⟨e.context, e.whole, e.part, ← e.value⟩

end Tidal
