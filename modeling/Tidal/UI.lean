import Tidal.Core
import Tidal.Bjorklund
import Tidal.MachineInt
import Tidal.Order

/-!
# Transformers of the user interface (`Sound.Tidal.UI`)
-/

namespace Tidal.Pattern

variable {Γ α β : Type}

/-! ## Randomisation -/

/-- The xorshift generator. -/
def xorwise (x : BitVec 64) : BitVec 64 :=
  let a := x <<< 13 ^^^ x
  let b := a.sshiftRight 17 ^^^ a
  b <<< 5 ^^^ b

/-- Rounds towards zero. -/
def truncate (x : ℚ) : ℤ := if 0 ≤ x then ⌊x⌋ else ⌈x⌉

/-- Stretches 300 cycles over the range up to `2 ^ 29`, and then applies the generator. -/
def timeToIntSeed (t : Time) : BitVec 64 :=
  let x := t / 300
  xorwise (BitVec.ofInt 64 (truncate ((x - truncate x) * 536870912)))

/-- A number from 0 to 1. A double holds it exactly. -/
def intSeedToRand (x : BitVec 64) : ℚ := ((x.toInt % 536870912 : ℤ) : ℚ) / 536870912

def timeToRand (t : Time) : ℚ := intSeedToRand (timeToIntSeed t)

def timeToRands' (seed : BitVec 64) : ℕ → List ℚ
  | 0 => []
  | n + 1 => intSeedToRand seed :: timeToRands' (xorwise seed) n

def timeToRands (t : Time) (n : ℤ) : List ℚ := timeToRands' (timeToIntSeed t) n.toNat

/-- A continuous pattern of (pseudo-)random numbers between 0 and 1. -/
def rand : Pattern Γ ℚ :=
  pattern fun st => [⟨⟨[]⟩, none, st.arc, timeToRand ((st.arc.stop + st.arc.start) / 2)⟩]

/-- Scales a pattern of numbers from 0 to 1 to the given range. -/
def range (fromP toP p : Pattern Γ ℚ) : Pattern Γ ℚ :=
  apRight (apRight (fmap (fun x y v => v * (y - x) + x) fromP) toP) p

/-- A list to choose from. The source takes any list, and indexing an empty one is an error. -/
structure Choices (α : Type) where
  xs : List α
  nonempty : xs ≠ []

/-- `xs !!! n`: the element at `n`, modulo the length of the list. -/
def Choices.at (c : Choices α) (n : ℤ) : α :=
  c.xs.get ⟨(n % c.xs.length).toNat, by
    have hpos := List.length_pos_iff.mpr c.nonempty
    have h1 := Int.emod_nonneg n (b := c.xs.length) (by omega)
    have h2 := Int.emod_lt_of_pos n (b := c.xs.length) (by omega)
    omega⟩

/-- Takes the numbers of a pattern, from 0 to 1, as positions in a list. -/
def chooseBy (f : Pattern Γ ℚ) : List α → Pattern Γ α
  | [] => silence
  | x :: xs =>
    fmap (fun v => (⟨x :: xs, List.cons_ne_nil x xs⟩ : Choices α).at ⌊v⌋)
      (range (Pattern.pure 0) (Pattern.pure ((x :: xs).length : ℚ)) f)

/-- Randomly chooses from the list. -/
def choose (xs : List α) : Pattern Γ α := chooseBy rand xs

/-! ## Boolean patterns -/

/-- Inverts a boolean pattern. -/
def inv (p : Pattern Γ Bool) : Pattern Γ Bool := fmap (!·) p

/-- Removes the events of `p` from where `b` is not true. -/
def mask (b : Pattern Γ Bool) (p : Pattern Γ α) : Pattern Γ α :=
  apLeft (fmap (fun x _ => x) p) (filterValues id b)

/-- The fragment of `xev` inside the part of the boolean event. -/
def check (bev : Event Bool) (xev : Event α) : Option (Event α) := do
  let newarc ← subArc bev.part xev.part
  return { xev with part := newarc }

/-- Switches between two patterns: `a` is heard where `pb` is true, `b` where it is false. -/
def sew (pb : Pattern Γ Bool) (a b : Pattern Γ α) : Pattern Γ α :=
  pattern fun st =>
    let evs := pb.query st
    let parts := evs.map EventF.part
    -- the least and the greatest of no parts are errors that no event asks for
    let subarc : Arc := ⟨(parts.map ArcF.start).min?.getD 0, (parts.map ArcF.stop).max?.getD 0⟩
    let find (evs' : List (Event α)) (ev : Event Bool) := (evs'.map (check ev)).reduceOption
    evs.flatMap fun ev =>
      if ev.value then find (a.query { st with arc := subarc }) ev
      else find (b.query { st with arc := subarc }) ev

/-! ## Stepping through a list -/

/-- The number `v`, moved on by `perCycle` for every cycle before `c`. -/
def fitAt (perCycle v c : ℤ) : ℤ := MachineInt.add v (MachineInt.mul perCycle c)

/-- The event with its value moved on to the cycle in which its fragment starts. -/
def fitEvent (perCycle : ℤ) (e : Event ℤ) : Event ℤ := e.map fun v => fitAt perCycle v ⌊e.part.start⌋

/-- Steps through a list, `perCycle` elements further on in every cycle. -/
def _fit (perCycle : ℤ) (xs : Choices α) (p : Pattern Γ ℤ) : Pattern Γ α :=
  fmap xs.at { p with query := fun st => (p.query st).map (fitEvent perCycle) }

/-! ## Conditional application -/

/-- The remainder of a division that is rounded down. -/
def mod' (n d : Time) : Time := n - ⌊n / d⌋ * d

/-- Applies the function when the remainder of the time divided by `a` is at least `b`. -/
def _whenmod (a b : Time) (f : Pattern Γ α → Pattern Γ α) (p : Pattern Γ α) : Pattern Γ α :=
  whenT (fun t => mod' t a ≥ b) f p

/-- Uses `f` on the notes that start in the given part of each cycle. -/
def within (se : Time × Time) (f : Pattern Γ α → Pattern Γ α) (p : Pattern Γ α) : Pattern Γ α :=
  stack [filterWhen (fun t => cyclePos t ≥ se.1 ∧ cyclePos t < se.2) (f p),
    filterWhen (fun t => ¬ (cyclePos t ≥ se.1 ∧ cyclePos t < se.2)) p]

def withinArc (a : Arc) (f : Pattern Γ α → Pattern Γ α) (p : Pattern Γ α) : Pattern Γ α :=
  within (a.start, a.stop) f p

/-- As `within`, but first keeps the notes in the interval and then uses `f` on them. -/
def within' (se : Time × Time) (f : Pattern Γ α → Pattern Γ α) (p : Pattern Γ α) : Pattern Γ α :=
  stack [filterWhen (fun t => cyclePos t ≥ se.1 ∧ cyclePos t < se.2)
      (compressArc ⟨se.1, se.2⟩ (f (zoom se p))),
    filterWhen (fun t => ¬ (cyclePos t ≥ se.1 ∧ cyclePos t < se.2)) p]

/-- Treats the pattern as having `n` chunks, and applies the function to one of them in each cycle: from
left to right, or from right to left if `n` is negative. -/
def _chunk (n : ℤ) (f : Pattern Γ α → Pattern Γ α) (p : Pattern Γ α) : Pattern Γ α :=
  if 0 ≤ n then
    cat (((List.range n.toNat).map Int.ofNat).map fun i : ℤ => withinArc ⟨i / n, (i + 1) / n⟩ f p)
  else
    bind (_slow (-n : ℤ) (rev (run (Pattern.pure (-n))))) fun i =>
      withinArc ⟨i / (-n : ℤ), (i + 1) / (-n : ℤ)⟩ f p

/-! ## Euclidean rhythms -/

/-- Plays `a` on the onsets of a Euclidean rhythm, or on its rests if `n` is negative. -/
def _euclid (n k : ℤ) (a : Pattern Γ α) : Pattern Γ α :=
  if 0 ≤ n then fastCat ((bjorklund n k).map fun b => if b then a else silence)
  else fastCat ((bjorklund (-n) k).map fun b => if b then silence else a)

def euclid (n k : Pattern Γ ℤ) (a : Pattern Γ α) : Pattern Γ α :=
  patternify2 (fun n k a => strict (fun n a => strict (fun k a => _euclid n k a) k a) n a) n k a

def _euclidInv (n k : ℤ) (a : Pattern Γ α) : Pattern Γ α := _euclid (-n) k a

/-- Fills in the blanks left by `euclid`. -/
def euclidInv (n k : Pattern Γ ℤ) (a : Pattern Γ α) : Pattern Γ α :=
  patternify2 (fun n k a => strict (fun n a => strict (fun k a => _euclidInv n k a) k a) n a) n k a

/-- Plays one pattern on the Euclidean rhythm and another on the off-beat. -/
def euclidFull (n k : Pattern Γ ℤ) (pa pb : Pattern Γ α) : Pattern Γ α :=
  stack [euclid n k pa, euclidInv n k pb]

def _euclidBool (n k : ℤ) : Pattern Γ Bool :=
  if 0 ≤ n then fastFromList (bjorklund n k) else fastFromList ((bjorklund (-n) k).map (!·))

/-- As `_euclid`, rotated by `s` steps. -/
def _euclidOff (n k s : ℤ) (p : Pattern Γ α) : Pattern Γ α :=
  if k = 0 then silence else rotL (s / k) (_euclid n k p)

/-- Euclidean rhythms of truth values play the opposite value on the rests. -/
def _euclidOffBool (n k s : ℤ) (p : Pattern Γ Bool) : Pattern Γ Bool :=
  if k = 0 then silence
  else rotL (s / k) (ap (fmap (fun a b => if b then a else !a) (_euclidBool n k)) p)

def euclidOff (n k s : Pattern Γ ℤ) (p : Pattern Γ α) : Pattern Γ α :=
  patternify3 (fun n k s p => strict (fun n p => strict (fun k p => strict (fun s p =>
    _euclidOff n k s p) s p) k p) n p) n k s p

def euclidOffBool (n k s : Pattern Γ ℤ) (p : Pattern Γ Bool) : Pattern Γ Bool :=
  patternify3 (fun n k s p => strict (fun n p => strict (fun k p => strict (fun s p =>
    _euclidOffBool n k s p) s p) k p) n p) n k s p

/-! ## Distributed rhythms -/

/-- Puts the second list at the places where the first is true. -/
def distrib' : List Bool → List Bool → List Bool
  | [], _ => []
  | _ :: a, [] => false :: distrib' a []
  | true :: a, x :: b => x :: distrib' a b
  | false :: a, b => false :: distrib' a b

def layers (xs : List ℤ) : List (List Bool) := (xs.zip xs.tail).map fun x => bjorklund x.1 x.2

/-- The list of `_distrib`. The last of no numbers is an error in the source. -/
def distribBools (xs : List ℤ) : List Bool :=
  (layers xs).reverse.foldr distrib' (List.replicate (xs.getLast?.getD 0).toNat true)

def boolsToPat (a : List Bool) (b' : Pattern Γ α) : Pattern Γ α :=
  apLeft (fmap (fun _ x => x) (filterValues (· == true) (fastFromList a))) b'

def _distrib (xs : List ℤ) (p : Pattern Γ α) : Pattern Γ α := boolsToPat (distribBools xs) p

/-! ## One note after the other -/

/-- Enumerates a list of things. -/
def enumerate (xs : List α) : List (ℤ × α) := ((List.range xs.length).map Int.ofNat).zip xs

/-- The event as the `n`th of `d` equal steps of its whole. -/
def shiftIt (n : ℤ) (d : ℕ) (e : Event α) : Option (Event α) :=
  match e.whole with
  | none => none
  | some a => do
    let dur := (a.stop - a.start) / d
    let newS := a.start + dur * n
    let newE := newS + dur
    let a'' ← subArc ⟨newS, newE⟩ e.part
    return ⟨e.context, some ⟨newS, newE⟩, a'', e.value⟩

def spreadOut (xs : List (Event α)) : List (Event α) :=
  (enumerate xs).filterMap fun x => shiftIt x.1 xs.length x.2

/-- Finds events that share the same timespan, and spreads what `f` makes of them out over it. -/
def arpWith (f : List (Event α) → List (Event β)) (p : Pattern Γ α) : Pattern Γ β :=
  withEvents (fun es => ((sortOn (fun e => wholeKey e.whole) es).splitBy
    fun a b => a.whole = b.whole).flatMap fun g => spreadOut (f g)) p

def arpeggiate (p : Pattern Γ α) : Pattern Γ α := arpWith id p

/-- What `a` leaves of a later event `b`. -/
def snip (a b : Event α) : Option (Event α) :=
  if b.wholeOrPart.start ≥ a.wholeOrPart.stop then some b
  else if b.wholeOrPart.stop ≤ a.wholeOrPart.stop then none
  else some { b with whole := some ⟨a.wholeOrPart.stop, b.wholeOrPart.stop⟩ }

def truncateOverlaps : List (Event α) → List (Event α)
  | [] => []
  | e :: es => e :: truncateOverlaps (es.filterMap (snip e))
termination_by es => es.length
decreasing_by
  refine Nat.lt_succ_of_le ((List.length_filterMap_le ..).trans ?_)
  simp

def constrainPart (e : Event α) : Option (Event α) := do
  let a ← subArc e.wholeOrPart e.part
  return { e with part := a }

/-- Serialises a pattern, so that only one event is playing at any one time. Events which start or end
earlier are given priority. -/
def mono (p : Pattern Γ α) : Pattern Γ α :=
  pattern fun st =>
    (truncateOverlaps (sortOn (fun e => wholeKey e.whole) (p.query st))).filterMap constrainPart

/-! ## Rotation -/

/-- The events with the values of the events `i` places later, around the end. Of the endless repetition of
the values only the first `es.length` after the dropped ones are used. -/
def shiftValues (i : ℤ) (es : List (Event α)) : List (Event α) :=
  -- dropping a negative number of elements drops nothing
  let n : ℤ := if i ≥ 0 then i else es.length - |i|
  List.zipWith (fun e s => { e with value := s }) es ((es.map EventF.value).rotate n.toNat)

def wholeCycle (a : Arc) : Arc := ⟨sam a.start, nextSam a.start⟩

def constrainEvent (a : Arc) (e : Event α) : Option (Event α) := do
  let p' ← subArc e.part a
  return { e with part := p' }

/-- The query of `_rot` within one cycle: the whole cycle is rotated, and the events are constrained to the
query. -/
def rotCycle [LinearOrder α] (i : ℤ) (pat : Pattern Γ α) (st : State Γ) : List (Event α) :=
  (shiftValues i ((defragParts (pat.query { st with arc := wholeCycle st.arc })).insertionSort
    (· ≤ ·))).filterMap (constrainEvent st.arc)

/-- Rotates the values of a pattern by `i` events, preserving its structure. -/
def _rot [LinearOrder α] (i : ℤ) (pat : Pattern Γ α) : Pattern Γ α :=
  splitQueries { pat with query := rotCycle i pat }

/-! ## Slices -/

/-- The slice `i` of the `n` equal slices of each cycle, over the whole cycle. -/
def zoompat (n : ℤ) (pat : Pattern Γ α) (i : ℤ) : Pattern Γ α :=
  let i' : ℚ := (i % n : ℤ)
  zoom (i' / n, (i' + 1) / n) pat

/-- Slices a pattern into `n` pieces, and uses a pattern of integers to index into those slices. -/
def _bite (n : ℤ) (ipat : Pattern Γ ℤ) (pat : Pattern Γ α) : Pattern Γ α :=
  squeezeJoin (fmap (zoompat n pat) ipat)

/-! ## Slices in a new order -/

/-- The elements `x`, `y`, and so on, up to half a step beyond `lim`. -/
def enumFromThenTo (x y lim : ℚ) : List ℚ :=
  (List.range (⌊(lim - x) / (y - x) + 1 / 2⌋ + 1).toNat).map fun k : ℕ => x + k * (y - x)

def toEv (a : Arc) (x : Arc × ℤ) : Option (Event ℤ) := do
  let a'' ← subArc a x.1
  return ⟨⟨[]⟩, some x.1, a'', x.2⟩

/-- The query of `randrun` within one cycle, for the numbers `rs` that are drawn for the cycle. -/
def randrunCycle {κ : Type} [LinearOrder κ] (n' : ℤ) (rs : List κ) (a : Arc) : List (Event ℤ) :=
  let shuffled := (sortOn Prod.fst (rs.zip ((List.range n'.toNat).map Int.ofNat))).map Prod.snd
  let fractions := (enumFromThenTo 0 (1 / n') 1).map (· + sam a.start)
  let arcs := fractions.zipWith ArcF.mk fractions.tail
  (arcs.zip shuffled).filterMap (toEv a)

/-- `randrun` with a source of random numbers: `rands s` is drawn for the cycle that starts at `s`. -/
def randrunWith {κ : Type} [LinearOrder κ] (rands : Time → List κ) (n' : ℤ) : Pattern Γ ℤ :=
  if n' = 0 then silence
  else splitQueries (pattern fun st => randrunCycle n' (rands (sam st.arc.start)) st.arc)

/-- A pattern of random whole numbers below `n'`. -/
def randrun (n' : ℤ) : Pattern Γ ℤ := randrunWith (fun s => timeToRands s n') n'

/-- Plays slice `i` of the `n` slices of the cycle where `ipat` plays `i`. An index that is not one of a
slice is an error in the source, and plays nothing here. -/
def _rearrangeWith (ipat : Pattern Γ ℤ) (n : ℤ) (pat : Pattern Γ α) : Pattern Γ α :=
  let pats := ((List.range n.toNat).map Int.ofNat).map fun i : ℤ => zoom (i / n, (i + 1 : ℤ) / n) pat
  innerJoin (fmap (fun i => _fast n (_repeatCycles n (if 0 ≤ i then pats.getD i.toNat silence else silence)))
    ipat)

/-- The slices in a random order. -/
def _shuffle (n : ℤ) (pat : Pattern Γ α) : Pattern Γ α := _rearrangeWith (randrun n) n pat

def shuffle (n : Pattern Γ ℤ) (pat : Pattern Γ α) : Pattern Γ α := patternify' (strict _shuffle) n pat

/-! ## Structure -/

/-- `substruct a b`: each true event of `a` is replaced with the pattern `b`, compressed to fit the
timespan of the event. -/
def substruct [EmptyCollection Γ] (s : Pattern Γ Bool) (p : Pattern Γ α) : Pattern Γ α :=
  { p with query := fun st =>
      ((s.query st).filter fun e => e.value).flatMap fun e =>
        queryArc (compressArcTo e.wholeOrPart p) e.wholeOrPart }

/-! ## Random stripes -/

/-- `mapM` on patterns. -/
def mapM (f : α → Pattern Γ β) (xs : List α) : Pattern Γ (List β) :=
  xs.foldr (fun x ys => ap (fmap List.cons (f x)) ys) (Pattern.pure [])

/-- Accumulates a list of numbers. -/
def accumulate : List ℚ → List ℚ
  | [] => []
  | x :: xs => xs.scanl (· + ·) x

def pairUp' : List Time → List Arc
  | [] => []
  | [_] => []
  | [a, _] => [⟨a, 1⟩]
  | a :: b :: c :: xs => ⟨a, b⟩ :: pairUp' (b :: c :: xs)

def pairUp : List Time → List Arc
  | [] => []
  | x :: xs => ⟨0, x⟩ :: pairUp' (x :: xs)

/-- The arcs of `randArcs`, for the durations that were drawn. -/
def arcsOf (rs : List ℤ) : List Arc :=
  let rats := rs.map fun r : ℤ => (r : ℚ)
  let total := rats.sum
  pairUp (accumulate (rats.map fun r => r / total))

/-- Cuts the cycle into `n` arcs of random durations. -/
def randArcs (n : ℤ) : Pattern Γ (List Arc) :=
  bind (mapM (fun x : ℤ => patternify' (strict rotL) (Pattern.pure ((x : ℚ) / n)) (choose [1, 2, 3]))
    ((List.range n.toNat).map Int.ofNat)) fun rs => Pattern.pure (arcsOf rs)

section Stripes

variable [EmptyCollection Γ]

/-- The query of `randStruct` within one cycle. -/
def randStructCycle (n : ℤ) (st : State Γ) : List (Event ℤ) :=
  let s := st.arc.start
  -- the `head` of no events is an error in the source
  let arcs := ((queryArc (randArcs n : Pattern Γ (List Arc)) ⟨sam s, nextSam s⟩).head?.map
    EventF.value).getD []
  (enumerate arcs).filterMap fun x =>
    let whole : Arc := ⟨x.2.start + sam s, x.2.stop + sam s⟩
    (subArc st.arc whole).map fun part => ⟨⟨[]⟩, some whole, part, x.1⟩

def randStruct (n : ℤ) : Pattern Γ ℤ := splitQueries (pattern (randStructCycle n))

def _inside (n : Time) (f : Pattern Γ α → Pattern Γ β) (p : Pattern Γ α) : Pattern Γ β :=
  _fast n (f (_slow n p))

/-- Carries out an operation inside a cycle. -/
def inside (np : Pattern Γ Time) (f : Pattern Γ α → Pattern Γ β) (p : Pattern Γ α) : Pattern Γ β :=
  innerJoin (fmap (fun n => _inside n f p) np)

/-- What one structure event contributes to `substruct'`. -/
def substructEvent (s : Pattern Γ ℤ) (p : Pattern Γ α) (st : State Γ) (e : Event ℤ) :
    List (Event α) :=
  match e.whole with
  -- analog events (ones without wholes) are ignored
  | none => []
  | some a' =>
    let n : ℚ := (queryArc s ⟨sam st.arc.start, nextSam st.arc.start⟩).length
    (queryArc (compressArcTo a' (inside (Pattern.pure (1 / n)) (rotR e.value) p)) a').map fun e' =>
      { e' with context := combineContexts [e.context, e'.context] }

def substruct' (s : Pattern Γ ℤ) (p : Pattern Γ α) : Pattern Γ α :=
  { p with query := fun st => (s.query st).flatMap (substructEvent s p st) }

/-- Repeats a pattern `n` times per cycle, with random durations. -/
def _stripe (n : ℤ) (p : Pattern Γ α) : Pattern Γ α := substruct' (randStruct n) p

def stripe (n : Pattern Γ ℤ) (p : Pattern Γ α) : Pattern Γ α := patternify (strict _stripe) n p

end Stripes

end Tidal.Pattern
