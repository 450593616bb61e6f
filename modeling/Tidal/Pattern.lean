import Tidal.Time

/-!
# Patterns (`Sound.Tidal.Pattern`)

A pattern is a function from a query (an arc and the named control values) to the events it plays in
that arc. The functions below are the ones of the source, under its names; the type `Γ` stands for its
map of control values, which they pass on unread.
-/

namespace Tidal

variable {Γ α β γ : Type}

/-! ## Types -/

/-- Some context for an event, currently just position within sourcecode. -/
structure Context where
  contextPosition : List ((ℤ × ℤ) × (ℤ × ℤ))
deriving DecidableEq

/-- An event is a value that's active during a timespan. If a whole is present, the part should be
equal to or fit inside it. -/
structure EventF (τ α : Type) where
  context : Context
  whole : Option τ
  part : τ
  value : α
deriving DecidableEq

abbrev Event (α : Type) := EventF Arc α

/-- An arc and some named control values. -/
structure State (Γ : Type) where
  arc : Arc
  controls : Γ

/-- A value the source holds unevaluated: `none` when evaluating it is an error. -/
abbrev Lazy (α : Type) := Option α

/-- Events taking place over time. `pureValue` caches the value of a constant pattern; the cache is
never forced by the record updates that carry it along, so it may hold an undefined value. -/
structure Pattern (Γ α : Type) where
  query : State Γ → List (Event α)
  tactus : Option ℚ
  pureValue : Option (Lazy α)

namespace Pattern

def pattern (f : State Γ → List (Event α)) : Pattern Γ α := ⟨f, none, none⟩

def setTactus (r : ℚ) (p : Pattern Γ α) : Pattern Γ α := { p with tactus := some r }

def withTactus (f : ℚ → ℚ) (p : Pattern Γ α) : Pattern Γ α := { p with tactus := p.tactus.map f }

def keepMeta (src dst : Pattern Γ α) : Pattern Γ α :=
  { dst with tactus := src.tactus, pureValue := src.pureValue }

def keepTactus (src : Pattern Γ α) (dst : Pattern Γ β) : Pattern Γ β :=
  { dst with tactus := src.tactus }

end Pattern

/-! ## Event utilities -/

namespace EventF

def isAnalog (e : Event α) : Bool := e.whole.isNone

def isDigital (e : Event α) : Bool := !e.isAnalog

def wholeOrPart (e : Event α) : Arc := e.whole.getD e.part

/-- The onset of an event's `whole`. -/
def wholeStart (e : Event α) : Time := e.wholeOrPart.start

def eventPartStart (e : Event α) : Time := e.part.start

def eventHasOnset (e : Event α) : Bool :=
  match e.whole with
  | none => false
  | some w => w.start = e.part.start

/-- The derived functor on events. -/
def map (f : α → β) (e : Event α) : Event β := ⟨e.context, e.whole, e.part, f e.value⟩

/-- A function on arcs, applied to both the whole and the part. -/
def mapArc (f : Arc → Arc) (e : Event α) : Event α := ⟨e.context, e.whole.map f, f e.part, e.value⟩

/-- Whether the two events are adjacent parts of the same whole. -/
def isAdjacent [DecidableEq α] (e e' : Event α) : Bool :=
  e.whole = e'.whole ∧ e.value = e'.value ∧ (e.part.stop = e'.part.start ∨ e'.part.stop = e.part.start)

end EventF

/-- A list of events, with adjacent parts of the same whole combined. An event that was combined once is
not looked at again. -/
def defragParts [DecidableEq α] : List (Event α) → List (Event α)
  | [] => []
  | e :: es =>
    match _hadj : es.find? e.isAdjacent with
    | some e' => { e with part := hull e.part e'.part } :: defragParts (es.erase e')
    | none => e :: defragParts es
termination_by es => es.length
decreasing_by
  · have := List.length_erase_of_mem (List.mem_of_find?_eq_some _hadj)
    simp only [List.length_cons]
    omega
  · simp

def combineContexts (cs : List Context) : Context := ⟨cs.flatMap Context.contextPosition⟩

namespace Pattern

open EventF

/-! ## Internal/fundamental functions -/

def empty : Pattern Γ α := ⟨fun _ => [], some 1, none⟩

def silence : Pattern Γ α := empty

/-- As `silence`, but without a duration. -/
def nothing : Pattern Γ α := { (empty : Pattern Γ α) with tactus := some 0 }

/-- A query with no control values. -/
def queryArc [EmptyCollection Γ] (p : Pattern Γ α) (a : Arc) : List (Event α) := p.query ⟨a, ∅⟩

/-- Splits queries that span cycles. -/
def splitQueries (p : Pattern Γ α) : Pattern Γ α :=
  { p with query := fun st => (arcCyclesZW st.arc).flatMap fun a => p.query { st with arc := a } }

/-- Apply a function to the arcs/timespans (both whole and parts) of the result. -/
def withResultArc (f : Arc → Arc) (pat : Pattern Γ α) : Pattern Γ α :=
  { pat with query := fun st => (pat.query st).map (mapArc f) }

def withResultTime (f : Time → Time) (pat : Pattern Γ α) : Pattern Γ α :=
  withResultArc (ArcF.map f) pat

/-- The arc moved to where `f` puts its start. -/
def moveStart (f : Time → Time) (a : Arc) : Arc := ⟨f a.start, f a.start + (a.stop - a.start)⟩

def withResultStart (f : Time → Time) (pat : Pattern Γ α) : Pattern Γ α :=
  withResultArc (moveStart f) pat

/-- Apply a function to the timespan of the query. -/
def withQueryArc (f : Arc → Arc) (pat : Pattern Γ α) : Pattern Γ α :=
  { pat with query := fun st => pat.query ⟨f st.arc, st.controls⟩ }

def withQueryTime (f : Time → Time) (pat : Pattern Γ α) : Pattern Γ α :=
  withQueryArc (ArcF.map f) pat

def withQueryStart (f : Time → Time) (pat : Pattern Γ α) : Pattern Γ α :=
  withQueryArc (moveStart f) pat

/-! ## Event filters -/

/-- Remove events from patterns that do not meet the given test. -/
def filterValues (f : α → Bool) (p : Pattern Γ α) : Pattern Γ α :=
  { p with query := fun st => (p.query st).filter fun e => f e.value }

/-- `fromJust`, as a value that is only looked at when it is forced. -/
def fromJust (v : Lazy (Option α)) : Lazy α := v.join

/-- Turns a pattern of `Option` values into a pattern of values, dropping the events of `none`. The
source maps `fromJust` over what `filterValues isJust` leaves: every event that is left has a value, the
cached value need not have one. -/
def filterJust (p : Pattern Γ (Option α)) : Pattern Γ α :=
  let q := filterValues Option.isSome p
  { query := fun st => (q.query st).filterMap fun e =>
      e.value.map fun v => ⟨e.context, e.whole, e.part, v⟩
    tactus := q.tactus
    pureValue := q.pureValue.map fromJust }

def filterWhen (test : Time → Bool) (p : Pattern Γ α) : Pattern Γ α :=
  { p with query := fun st => (p.query st).filter fun e => test e.wholeStart }

def filterEvents (f : Event α → Bool) (p : Pattern Γ α) : Pattern Γ α :=
  { p with query := fun st => (p.query st).filter f }

def filterDigital (p : Pattern Γ α) : Pattern Γ α := filterEvents isDigital p

def filterAnalog (p : Pattern Γ α) : Pattern Γ α := filterEvents isAnalog p

def filterOnsets (p : Pattern Γ α) : Pattern Γ α :=
  { p with query := fun st =>
      ((filterDigital p).query st).filter fun e => e.eventPartStart = e.wholeStart }

def playFor (s e : Time) (pat : Pattern Γ α) : Pattern Γ α :=
  pattern fun st => match subArc ⟨s, e⟩ st.arc with
    | none => []
    | some a => pat.query { st with arc := a }

/-! ## Applicative and friends -/

/-- The derived functor: the cached value is mapped along. -/
def fmap (f : α → β) (p : Pattern Γ α) : Pattern Γ β :=
  { query := fun st => (p.query st).map (EventF.map f)
    tactus := p.tactus
    pureValue := p.pureValue.map (Option.map f) }

/-- Repeat the given value once per cycle, forever. -/
protected def pure (v : α) : Pattern Γ α :=
  { query := fun st => (cycleArcsInArc st.arc).map fun a' => ⟨⟨[]⟩, some a', sect st.arc a', v⟩
    tactus := some 1
    pureValue := some (some v) }

/-- Two events of `applyPatToPatBoth` together: both the wholes and the parts are intersected. -/
def withFXBoth (ef : Event (α → β)) (ex : Event α) : Option (Event β) := do
  let whole' ← subMaybeArc ef.whole ex.whole
  let part' ← subArc ef.part ex.part
  return ⟨combineContexts [ef.context, ex.context], whole', part', ef.value ex.value⟩

def applyPatToPatBoth (pf : Pattern Γ (α → β)) (px : Pattern Γ α) : Pattern Γ β :=
  pattern fun st =>
    -- match analog events from pf with all events from px, digital ones with digital ones
    let match' (ef : Event (α → β)) : List (Option (Event β)) :=
      match ef.whole with
      | none => (px.query { st with arc := ef.part }).map (withFXBoth ef)
      | some fWhole => ((filterDigital px).query { st with arc := fWhole }).map (withFXBoth ef)
    -- match analog events from px with digital events from pf; a digital one can't happen
    let matchX (ex : Event α) : List (Option (Event β)) :=
      match ex.whole with
      | none => ((filterDigital pf).query { st with arc := ex.part }).map (withFXBoth · ex)
      | some _ => []
    ((pf.query st).flatMap match' ++ ((filterAnalog px).query st).flatMap matchX).reduceOption

/-- Two events of `applyPatToPatLeft` or `applyPatToPatRight` together: the whole is given. -/
def withFXWhole (whole' : Option Arc) (ef : Event (α → β)) (ex : Event α) : Option (Event β) := do
  let part' ← subArc ef.part ex.part
  return ⟨combineContexts [ef.context, ex.context], whole', part', ef.value ex.value⟩

def applyPatToPatLeft (pf : Pattern Γ (α → β)) (px : Pattern Γ α) : Pattern Γ β :=
  pattern fun st =>
    ((pf.query st).flatMap fun ef =>
      (px.query { st with arc := ef.wholeOrPart }).map (withFXWhole ef.whole ef)).reduceOption

def applyPatToPatRight (pf : Pattern Γ (α → β)) (px : Pattern Γ α) : Pattern Γ β :=
  pattern fun st =>
    ((px.query st).flatMap fun ex =>
      (pf.query { st with arc := ex.wholeOrPart }).map fun ef => withFXWhole ex.whole ef ex).reduceOption

/-- `<*>`: the structure comes from both sides. -/
def ap (a : Pattern Γ (α → β)) (b : Pattern Γ α) : Pattern Γ β :=
  { applyPatToPatBoth a b with tactus := do return lcmr (← a.tactus) (← b.tactus) }

/-- `<*`: like `<*>`, but the wholes come from the left. -/
def apLeft (a : Pattern Γ (α → β)) (b : Pattern Γ α) : Pattern Γ β :=
  keepTactus a (applyPatToPatLeft a b)

/-- `*>`: like `<*>`, but the wholes come from the right. -/
def apRight (a : Pattern Γ (α → β)) (b : Pattern Γ α) : Pattern Γ β :=
  keepTactus b (applyPatToPatRight a b)

/-! ## Manipulating time -/

/-- Shifts a pattern back in time by the given amount, expressed in cycles. -/
def rotL (t : Time) (p : Pattern Γ α) : Pattern Γ α :=
  withResultTime (fun x => x - t) (withQueryTime (fun x => x + t) p)

/-- Shifts a pattern forward in time by the given amount, expressed in cycles. -/
def rotR (t : Time) (p : Pattern Γ α) : Pattern Γ α := rotL (-t) p

/-- Plays every `n'`th cycle, one in each cycle. -/
def skip (n' : Time) (pat' : Pattern Γ α) : Pattern Γ α :=
  splitQueries (withResultStart (fun t => sam t / n' + cyclePos t)
    (withQueryStart (fun t => sam t * n' + cyclePos t) pat'))

/-- Splits a pattern into a list containing the given `n` number of patterns. Each one plays every `n`th
cycle, successively offset by a cycle. -/
def separateCycles (n : ℤ) (pat : Pattern Γ α) : List (Pattern Γ α) :=
  (List.range n.toNat).map fun i : ℕ => skip n (rotL i pat)

def makeWholeRelative (e : Event α) : Event α :=
  match e.whole with
  | none => e
  | some w => { e with whole := some ⟨e.part.start - w.start, w.stop - e.part.stop⟩ }

def makeWholeAbsolute (e : Event α) : Event α :=
  match e.whole with
  | none => e
  | some w => { e with whole := some ⟨e.part.start - w.stop, e.part.stop + w.start⟩ }

def midCycle (a : Arc) : Time := sam a.start + 1 / 2

def mapParts (f : Arc → Arc) (es : List (Event α)) : List (Event α) :=
  es.map fun e => { e with part := f e.part }

/-- The mirror image of an arc around the given point in time. -/
def mirrorArc (mid' : Time) (a : Arc) : Arc := ⟨mid' - (a.stop - mid'), mid' + (mid' - a.start)⟩

/-- The query of `rev` within one cycle: the mirrored arc is queried and the answers are mirrored. -/
def revCycle (p : Pattern Γ α) (st : State Γ) : List (Event α) :=
  let mid := midCycle st.arc
  let es := (p.query { st with arc := mirrorArc mid st.arc }).map makeWholeRelative
  (mapParts (mirrorArc mid) es).map makeWholeAbsolute

/-- `rev p` returns `p` with the event positions in each cycle reversed (or mirrored). -/
def rev (p : Pattern Γ α) : Pattern Γ α :=
  keepMeta p (splitQueries { p with query := revCycle p })

/-- `_fast` at a positive rate. -/
def _fastForward (rate : Time) (pat : Pattern Γ α) : Pattern Γ α :=
  keepTactus pat (withResultTime (fun x => x / rate) (withQueryTime (fun x => x * rate) pat))

/-- Speed up a pattern by the given time factor. -/
def _fast (rate : Time) (pat : Pattern Γ α) : Pattern Γ α :=
  if rate = 0 then silence
  else if rate < 0 then rev (_fastForward (-rate) pat)
  else _fastForward rate pat

def mungeQuery (r' : Time) (t : Time) : Time := sam t + min 1 (r' * cyclePos t)

/-- `_fastGap r p` squashes each cycle of `p` into the first `1/r` of the cycle and leaves a gap in the
rest. Zero width queries of the next sam return nothing. -/
def _fastGap (r : Time) (p : Pattern Γ α) : Pattern Γ α :=
  if r = 0 then empty
  else
    let r' := max r 1
    splitQueries (withResultArc
      (fun a => ⟨sam a.start + (a.start - sam a.start) / r', sam a.start + (a.stop - sam a.start) / r'⟩)
      { p with query := fun st =>
          let a' : Arc := ⟨mungeQuery r' st.arc.start, mungeQuery r' st.arc.stop⟩
          if a'.start = nextSam st.arc.start then [] else p.query { st with arc := a' } })

/-- Squeezes each cycle of `p` into the given timespan of the cycle. -/
def compressArc (a : Arc) (p : Pattern Γ α) : Pattern Γ α :=
  if a.start > a.stop then empty
  else if a.start > 1 ∨ a.stop > 1 then empty
  else if a.start < 0 ∨ a.stop < 0 then empty
  -- an arc of no width is a division by zero in the source; here it plays nothing
  else rotR a.start (_fastGap (1 / (a.stop - a.start)) p)

def compressArcTo (a : Arc) (p : Pattern Γ α) : Pattern Γ α :=
  compressArc ⟨cyclePos a.start, a.stop - sam a.start⟩ p

def focusArc (a : Arc) (p : Pattern Γ α) : Pattern Γ α :=
  rotR (cyclePos a.start) (_fast (1 / (a.stop - a.start)) p)

/-! ## Monad and friends -/

/-- An inner event of a join: whole and part are those of the outer event (`ow`, `op`) intersected with
its own. -/
def munge (oc : Context) (ow : Option Arc) (op : Arc) (ie : Event α) : Option (Event α) := do
  let w' ← subMaybeArc ow ie.whole
  let p' ← subArc op ie.part
  return ⟨combineContexts [ie.context, oc], w', p', ie.value⟩

/-- Turns a pattern of patterns into a single pattern; the structure comes from both. -/
def unwrap (pp : Pattern Γ (Pattern Γ α)) : Pattern Γ α :=
  { query := fun st => (pp.query st).flatMap fun e =>
      (e.value.query { st with arc := e.part }).filterMap (munge e.context e.whole e.part)
    tactus := pp.tactus
    pureValue := none }

/-- `>>=`. -/
def bind (p : Pattern Γ α) (f : α → Pattern Γ β) : Pattern Γ β := unwrap (fmap f p)

def mungeInner (a : Arc) (oc : Context) (ie : Event α) : Option (Event α) := do
  let p ← subArc a ie.part
  let p' ← subArc p a
  return ⟨combineContexts [ie.context, oc], ie.whole, p', ie.value⟩

/-- Like `unwrap`, but structure only comes from the inner pattern. -/
def innerJoin (pp : Pattern Γ (Pattern Γ α)) : Pattern Γ α :=
  { query := fun st => (pp.query st).flatMap fun e =>
      (e.value.query { st with arc := e.part }).filterMap (mungeInner st.arc e.context)
    tactus := pp.tactus
    pureValue := none }

/-- What one outer event contributes to `squeezeJoin`. -/
def squeezeEvent (st : State Γ) (e : Event (Pattern Γ α)) : List (Event α) :=
  ((focusArc e.wholeOrPart e.value).query { st with arc := e.part }).filterMap
    (munge e.context e.whole e.part)

/-- Like `unwrap`, but cycles of the inner patterns are compressed to fit the timespan of the outer
whole. -/
def squeezeJoin (pp : Pattern Γ (Pattern Γ α)) : Pattern Γ α :=
  { query := fun st => (pp.query st).flatMap (squeezeEvent st)
    tactus := pp.tactus
    pureValue := none }

/-- What one outer event contributes to `_trigJoin`, whose outer events are all digital. -/
def trigEvent (cycleZero : Bool) (st : State Γ) (e : Event (Pattern Γ α)) :
    List (Option (Event α)) :=
  match e.whole with
  | none => []
  | some jow =>
    ((rotR ((if cycleZero then id else cyclePos) jow.start) e.value).query st).map
      (munge e.context (some jow) e.part)

def _trigJoin (cycleZero : Bool) (pat_of_pats : Pattern Γ (Pattern Γ α)) : Pattern Γ α :=
  pattern fun st =>
    (((filterDigital pat_of_pats).query st).flatMap (trigEvent cycleZero st)).reduceOption

def trigJoin (pp : Pattern Γ (Pattern Γ α)) : Pattern Γ α := _trigJoin false pp

def trigZeroJoin (pp : Pattern Γ (Pattern Γ α)) : Pattern Γ α := _trigJoin true pp

/-! ## Context -/

def withEvents (f : List (Event α) → List (Event β)) (p : Pattern Γ α) : Pattern Γ β :=
  { query := fun st => f (p.query st)
    tactus := p.tactus
    pureValue := none }

def setContext (c : Context) (pat : Pattern Γ α) : Pattern Γ α :=
  keepMeta pat (withEvents (fun es => es.map fun e => { e with context := c }) pat)

/-! ## Temporal parameter helpers -/

/-- A function with a patterned parameter. A constant parameter takes a short cut: the function gets the
cached value itself, which may be undefined. -/
def patternify {τ : Type} (f : Lazy α → τ → Pattern Γ β) (pa : Pattern Γ α) (p : τ) : Pattern Γ β :=
  match pa.pureValue with
  | some a => f a p
  | none => innerJoin (fmap (fun a => f (some a) p) pa)

/-- A version of `patternify` that preserves the tactus. -/
def patternify' (f : Lazy α → Pattern Γ γ → Pattern Γ β) (pa : Pattern Γ α) (p : Pattern Γ γ) :
    Pattern Γ β :=
  { patternify f pa p with tactus := p.tactus }

def patternify2 {τ : Type} (f : Lazy α → Lazy β → τ → Pattern Γ γ) (a : Pattern Γ α) (b : Pattern Γ β)
    (c : τ) : Pattern Γ γ :=
  match a.pureValue, b.pureValue with
  | some x, some y => f x y c
  | _, _ => innerJoin (ap (fmap (fun x y => f (some x) (some y) c) a) b)

def patternify3 {δ τ : Type} (f : Lazy α → Lazy β → Lazy γ → τ → Pattern Γ δ) (a : Pattern Γ α)
    (b : Pattern Γ β) (c : Pattern Γ γ) (p : τ) : Pattern Γ δ :=
  match a.pureValue, b.pureValue, c.pureValue with
  | some x, some y, some z => f x y z p
  | _, _, _ => innerJoin (ap (ap (fmap (fun x y z => f (some x) (some y) (some z) p) a) b) c)

/-- A function that looks at its parameter. An undefined parameter is an error in the source, and plays
nothing here. -/
def strict {τ : Type} (f : α → τ → Pattern Γ β) (a : Lazy α) (p : τ) : Pattern Γ β :=
  match a with
  | some a => f a p
  | none => silence

/-- Speed up a pattern by the given time pattern. -/
def fast (t : Pattern Γ Time) (pat : Pattern Γ α) : Pattern Γ α := patternify' (strict _fast) t pat

def _slow (r : Time) (p : Pattern Γ α) : Pattern Γ α := if r = 0 then silence else _fast (1 / r) p

/-- Slow down a pattern by the given time pattern. -/
def slow (t : Pattern Γ Time) (pat : Pattern Γ α) : Pattern Γ α := patternify (strict _slow) t pat

end Pattern

end Tidal
