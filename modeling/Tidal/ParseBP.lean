import Tidal.UI

/-!
# Mini-notation (`Sound.Tidal.ParseBP`)

The trees of the mini-notation, the pre-processing of feet in a parsed sequence, and what a tree means.
`toPat` is written against an interpretation of the pattern functions it calls, since the same tree is
read in two ways: as a pattern, and as a pattern whose evaluation may fail.
-/

namespace Tidal

/-! ## Trees -/

inductive Modifier where
  | Range (i : ℤ)
  | Drop (i : ℤ)
  | Invert
  | Open
deriving DecidableEq

/-- How a type of values answers to Euclidean rhythms: with rests, or (truth values only) with the
opposite value. -/
inductive DoEuclid : Type → Type 1
  | euclidOff {α : Type} : DoEuclid α
  | euclidOffBool : DoEuclid Bool

/-- Types that can be written in mini-notation. -/
class Parseable (α : Type) where
  doEuclid : DoEuclid α

/-- Types with ranges; the source plays the list in one cycle. -/
class Enumerable (α : Type) where
  fromTo : α → α → List α

mutual

/-- AST representation of patterns -/
inductive TPat : Type → Type 1
  | TPat_Atom {α : Type} (loc : Option ((ℤ × ℤ) × (ℤ × ℤ))) (x : α) : TPat α
  | TPat_Fast {α : Type} (t : TPat ℚ) (x : TPat α) : TPat α
  | TPat_Slow {α : Type} (t : TPat ℚ) (x : TPat α) : TPat α
  | TPat_DegradeBy {α : Type} (seed : ℤ) (amt : ℚ) (x : TPat α) : TPat α
  | TPat_CycleChoose {α : Type} (seed : ℤ) (xs : TPats α) : TPat α
  | TPat_Euclid {α : Type} (n k s : TPat ℤ) (thing : TPat α) : TPat α
  | TPat_Stack {α : Type} (xs : TPats α) : TPat α
  | TPat_Polyrhythm {α : Type} (mSteprate : Option (TPat ℚ)) (ps : TPats α) : TPat α
  | TPat_Seq {α : Type} (xs : TPats α) : TPat α
  | TPat_Silence {α : Type} : TPat α
  | TPat_Foot {α : Type} : TPat α
  | TPat_Elongate {α : Type} (r : ℚ) (x : TPat α) : TPat α
  | TPat_Repeat {α : Type} (n : ℤ) (x : TPat α) : TPat α
  | TPat_EnumFromTo {α : Type} (a b : TPat α) : TPat α
  | TPat_Var {α : Type} (s : String) : TPat α
  | TPat_Chord {α β : Type} [Parseable β] [Enumerable β] (f : β → α) (iP : TPat β) (nP : TPat String)
      (mP : TPats (List Modifier)) : TPat α

/-- Lists of trees. -/
inductive TPats : Type → Type 1
  | nil {α : Type} : TPats α
  | cons {α : Type} (p : TPat α) (ps : TPats α) : TPats α

end

open TPat

namespace TPats

variable {α : Type}

def ofList : List (TPat α) → TPats α
  | [] => nil
  | p :: ps => cons p (ofList ps)

def toList : TPats α → List (TPat α)
  | nil => []
  | cons p ps => p :: toList ps

@[simp] theorem toList_ofList (ps : List (TPat α)) : (ofList ps).toList = ps := by
  induction ps with
  | nil => rfl
  | cons p ps ih => rw [ofList, toList, ih]

@[simp] theorem ofList_toList : ∀ ps : TPats α, ofList ps.toList = ps
  | nil => rfl
  | cons p ps => by rw [toList, ofList, ofList_toList ps]

end TPats

/-! ## What a tree means -/

/-- The pattern functions that trees are made of, for patterns of the kind `P`. -/
structure Interpretation (P : Type → Type) where
  silence {α : Type} : P α
  pure {α : Type} (x : α) : P α
  setContext {α : Type} (c : Context) (p : P α) : P α
  stack {α : Type} (ps : List (P α)) : P α
  timeCat {α : Type} (tps : List (ℚ × P α)) : P α
  fast {α : Type} (t : P ℚ) (p : P α) : P α
  slow {α : Type} (t : P ℚ) (p : P α) : P α
  /-- `(/sz) <$> p` -/
  divideBy (sz : ℚ) (p : P ℚ) : P ℚ
  doEuclid {α : Type} (how : DoEuclid α) (n k s : P ℤ) (p : P α) : P α
  /-- `_degradeByUsing (rotL (0.0001 * fromIntegral seed) rand) amt` -/
  degradeBy {α : Type} (seed : ℤ) (amt : ℚ) (p : P α) : P α
  /-- `unwrap . segment 1 . chooseBy (rotL (0.0001 * fromIntegral seed) rand)` -/
  cycleChoose {α : Type} (seed : ℤ) (ps : List (P α)) : P α
  /-- `unwrap $ fromTo <$> a <*> b` -/
  enumFromTo {α : Type} (fromTo : α → α → List α) (a b : P α) : P α
  getControl {α : Type} (s : String) : P α
  chordToPatSeq {α β : Type} (f : β → α) (iP : P β) (nP : P String) (mP : List (P (List Modifier))) : P α
  error {α : Type} (msg : String) : P α

/-- The list from `a` to `b`, backwards if `a` is the greater. -/
def enumFromTo' {α : Type} [LT α] [DecidableLT α] (enumFromTo : α → α → List α) (a b : α) : List α :=
  if b < a then (enumFromTo b a).reverse else enumFromTo a b

instance : Parseable ℚ := ⟨.euclidOff⟩
instance : Parseable ℤ := ⟨.euclidOff⟩
instance : Parseable String := ⟨.euclidOff⟩
instance : Parseable Bool := ⟨.euclidOffBool⟩
instance : Parseable (List Modifier) := ⟨.euclidOff⟩

instance : Enumerable ℤ :=
  ⟨enumFromTo' fun a b => (List.range (b - a + 1).toNat).map fun i : ℕ => a + i⟩
-- a range of rationals goes on until half a step after its end
instance : Enumerable ℚ :=
  ⟨enumFromTo' fun a b => (List.range (⌊b - a + 1 / 2⌋ + 1).toNat).map fun i : ℕ => a + i⟩
instance : Enumerable String := ⟨fun a b => [a, b]⟩
instance : Enumerable Bool := ⟨fun a b => [a, b]⟩
instance : Enumerable (List Modifier) := ⟨fun a b => [a, b]⟩

section ToPat

variable {P : Type → Type} (I : Interpretation P)

/-- A sequence of weighted patterns, with its total size. -/
def sequencePat {α : Type} (sized_pats : List (ℚ × P α)) : ℚ × P α :=
  ((sized_pats.map Prod.fst).sum, I.timeCat sized_pats)

/-- The layers of a polymeter, each at a rate of `steprate` steps per cycle. -/
def polyrhythm {α : Type} (pats : List (ℚ × P α)) (steprate : P ℚ) : P α :=
  I.stack (pats.map fun x => I.fast (I.divideBy x.1 steprate) x.2)

/-- The rate of a polymeter that is not given one. -/
def base_first {α : Type} : List (ℚ × P α) → P ℚ
  | [] => I.pure 0
  | x :: _ => I.pure x.1

mutual

def toPat : {α : Type} → [Parseable α] → [Enumerable α] → TPat α → P α
  | _, _, _, TPat_Atom (some loc) x => I.setContext ⟨[loc]⟩ (I.pure x)
  | _, _, _, TPat_Atom none x => I.pure x
  | _, _, _, TPat_Fast t x => I.fast (toPat t) (toPat x)
  | _, _, _, TPat_Slow t x => I.slow (toPat t) (toPat x)
  | _, _, _, TPat_DegradeBy seed amt x => I.degradeBy seed amt (toPat x)
  | _, _, _, TPat_CycleChoose seed xs => I.cycleChoose seed (toPats xs)
  | _, _, _, TPat_Euclid n k s thing =>
    I.doEuclid Parseable.doEuclid (toPat n) (toPat k) (toPat s) (toPat thing)
  | _, _, _, TPat_Stack xs => I.stack (toPats xs)
  | _, _, _, TPat_Silence => I.silence
  | _, _, _, TPat_EnumFromTo a b => I.enumFromTo Enumerable.fromTo (toPat a) (toPat b)
  | _, _, _, TPat_Foot => I.error "Can't happen, feet are pre-processed."
  | _, _, _, TPat_Polyrhythm (some r) ps => polyrhythm I (resolve_tpats ps) (toPat r)
  | _, _, _, TPat_Polyrhythm none ps => polyrhythm I (resolve_tpats ps) (base_first I (resolve_tpats ps))
  | _, _, _, TPat_Seq xs => (sequencePat I (sized_pats xs)).2
  | _, _, _, TPat_Var s => I.getControl s
  | _, _, _, TPat_Chord f iP nP mP => I.chordToPatSeq f (toPat iP) (toPat nP) (toPats mP)
  | _, _, _, TPat_Elongate _ _ => I.silence
  | _, _, _, TPat_Repeat _ _ => I.silence

/-- `map toPat` -/
def toPats : {α : Type} → [Parseable α] → [Enumerable α] → TPats α → List (P α)
  | _, _, _, .nil => []
  | _, _, _, .cons p ps => toPat p :: toPats ps

/-- `map resolve_tpat`: only a sequence has a size. -/
def resolve_tpats : {α : Type} → [Parseable α] → [Enumerable α] → TPats α → List (ℚ × P α)
  | _, _, _, .nil => []
  | _, _, _, .cons (TPat_Seq xs) ps => sequencePat I (sized_pats xs) :: resolve_tpats ps
  | _, _, _, .cons p ps => (1, toPat p) :: resolve_tpats ps

/-- `map (toPat <$>) . resolve_size` -/
def sized_pats : {α : Type} → [Parseable α] → [Enumerable α] → TPats α → List (ℚ × P α)
  | _, _, _, .nil => []
  | _, _, _, .cons (TPat_Elongate r p) ps => (r, toPat p) :: sized_pats ps
  | _, _, _, .cons (TPat_Repeat n p) ps => List.replicate n.toNat (1, toPat p) ++ sized_pats ps
  | _, _, _, .cons p ps => (1, toPat p) :: sized_pats ps

end

end ToPat

/-- Trees read as patterns. Random choice, ranges, controls and chords are read as `I` has them; an error
plays nothing. -/
def patterns {Γ : Type} (I : Interpretation (Pattern Γ)) : Interpretation (Pattern Γ) :=
  { I with
    silence := Pattern.silence
    pure := Pattern.pure
    setContext := Pattern.setContext
    stack := Pattern.stack
    timeCat := Pattern.timeCat
    fast := Pattern.fast
    slow := Pattern.slow
    divideBy := fun sz p => Pattern.fmap (· / sz) p
    doEuclid := fun how n k s p => match how, p with
      | .euclidOff, p => Pattern.euclidOff n k s p
      | .euclidOffBool, p => Pattern.euclidOffBool n k s p
    error := fun _ => Pattern.silence }

/-- A reading in which nothing is heard. -/
def mute {P : Type → Type} (s : ∀ α : Type, P α) : Interpretation P where
  silence := s _
  pure _ := s _
  setContext _ _ := s _
  stack _ := s _
  timeCat _ := s _
  fast _ _ := s _
  slow _ _ := s _
  divideBy _ _ := s _
  doEuclid _ _ _ _ _ := s _
  degradeBy _ _ _ := s _
  cycleChoose _ _ := s _
  enumFromTo _ _ _ := s _
  getControl _ := s _
  chordToPatSeq _ _ _ _ := s _
  error _ := s _

/-! The same functions on lists of trees, as the source has them. -/

section Resolve

variable {α : Type} [Parseable α] [Enumerable α] {P : Type → Type} (I : Interpretation P)

def resolve_size : List (TPat α) → List (ℚ × TPat α)
  | [] => []
  | TPat_Elongate r p :: ps => (r, p) :: resolve_size ps
  | TPat_Repeat n p :: ps => List.replicate n.toNat (1, p) ++ resolve_size ps
  | p :: ps => (1, p) :: resolve_size ps

def resolve_seq (xs : List (TPat α)) : ℚ × P α :=
  let sized_pats := (resolve_size xs).map fun x => (x.1, toPat I x.2)
  ((sized_pats.map Prod.fst).sum, I.timeCat sized_pats)

def resolve_tpat : TPat α → ℚ × P α
  | TPat_Seq xs => resolve_seq I xs.toList
  | a => (1, toPat I a)

theorem sized_pats_eq (xs : List (TPat α)) :
    sized_pats I (TPats.ofList xs) = (resolve_size xs).map fun x => (x.1, toPat I x.2) := by
  induction xs with
  | nil => rfl
  | cons p xs ih =>
    cases p with
    | TPat_Repeat n p =>
      rw [TPats.ofList, sized_pats, resolve_size, List.map_append, List.map_replicate, ih]
    | _ => simp only [TPats.ofList, sized_pats, resolve_size, List.map_cons, ih]

theorem sequencePat_eq (xs : TPats α) : sequencePat I (sized_pats I xs) = resolve_seq I xs.toList := by
  rw [← TPats.ofList_toList xs, sized_pats_eq, TPats.ofList_toList]
  rfl

theorem toPat_Seq (xs : TPats α) : toPat I (TPat_Seq xs) = (resolve_seq I xs.toList).2 := by
  rw [toPat, sequencePat_eq]

theorem resolve_tpats_eq (ps : List (TPat α)) :
    resolve_tpats I (TPats.ofList ps) = ps.map (resolve_tpat I) := by
  induction ps with
  | nil => rfl
  | cons p ps ih =>
    cases p with
    | TPat_Seq xs =>
      rw [TPats.ofList, resolve_tpats, List.map_cons, resolve_tpat, ih, sequencePat_eq]
    | _ => simp only [TPats.ofList, resolve_tpats, resolve_tpat, List.map_cons, ih]

theorem toPat_Polyrhythm (r : TPat ℚ) (ps : TPats α) :
    toPat I (TPat_Polyrhythm (some r) ps) =
      I.stack ((ps.toList.map (resolve_tpat I)).map fun x => I.fast (I.divideBy x.1 (toPat I r)) x.2) := by
  rw [toPat, ← resolve_tpats_eq, TPats.ofList_toList]
  rfl

end Resolve

/-! ## Feet -/

section Feet

variable {α : Type}

/-- The steps before the first foot, and those after it. -/
def takeFoot : List (TPat α) → List (TPat α) × List (TPat α)
  | [] => ([], [])
  | TPat_Foot :: pats => ([], pats)
  | pat :: pats => (pat :: (takeFoot pats).1, (takeFoot pats).2)

theorem takeFoot_length_le (pats : List (TPat α)) : (takeFoot pats).2.length ≤ pats.length - 1 := by
  fun_induction takeFoot pats with
  | case1 => simp
  | case2 pats => simp
  | case3 pat pats _ ih => simp only [List.length_cons]; omega

def splitFeet : List (TPat α) → List (List (TPat α))
  | [] => []
  | pat :: pats => (takeFoot (pat :: pats)).1 :: splitFeet (takeFoot (pat :: pats)).2
termination_by pats => pats.length
decreasing_by
  have := takeFoot_length_le (pat :: pats)
  simp only [List.length_cons] at *
  omega

/-- What `pSequence` makes of the steps it has read: dots group them into feet. -/
def resolve_feet (ps : List (TPat α)) : TPat α :=
  let ss := splitFeet ps
  if ss.length > 1 then TPat_Seq (TPats.ofList (ss.map fun s => TPat_Seq (TPats.ofList s)))
  else TPat_Seq (TPats.ofList ps)

end Feet

mutual

/-- The tree contains no foot. -/
def TPat.Footless : {α : Type} → TPat α → Prop
  | _, TPat_Atom _ _ => True
  | _, TPat_Fast t x => t.Footless ∧ x.Footless
  | _, TPat_Slow t x => t.Footless ∧ x.Footless
  | _, TPat_DegradeBy _ _ x => x.Footless
  | _, TPat_CycleChoose _ xs => xs.Footless
  | _, TPat_Euclid n k s thing => n.Footless ∧ k.Footless ∧ s.Footless ∧ thing.Footless
  | _, TPat_Stack xs => xs.Footless
  | _, TPat_Polyrhythm none ps => ps.Footless
  | _, TPat_Polyrhythm (some r) ps => r.Footless ∧ ps.Footless
  | _, TPat_Seq xs => xs.Footless
  | _, TPat_Silence => True
  | _, TPat_Foot => False
  | _, TPat_Elongate _ x => x.Footless
  | _, TPat_Repeat _ x => x.Footless
  | _, TPat_EnumFromTo a b => a.Footless ∧ b.Footless
  | _, TPat_Var _ => True
  | _, TPat_Chord _ iP nP mP => iP.Footless ∧ nP.Footless ∧ mP.Footless

def TPats.Footless : {α : Type} → TPats α → Prop
  | _, .nil => True
  | _, .cons p ps => p.Footless ∧ ps.Footless

end

/-! ## Sizes -/

/-- The size of a layer of a polymeter, as `resolve_tpat` has it. -/
def TPat.size {α : Type} : TPat α → ℚ
  | TPat_Seq xs => ((resolve_size xs.toList).map Prod.fst).sum
  | _ => 1

mutual

/-- The tree has atoms, rests, sequences, stacks, polymeters, factors, Euclidean rhythms, repeats and
elongations only, and no weight is negative. The size of every layer of a polymeter satisfies `Z`. -/
def TPat.Metric (Z : ℚ → Prop) : {α : Type} → TPat α → Prop
  | _, TPat_Atom _ _ => True
  | _, TPat_Fast t x => t.Metric Z ∧ x.Metric Z
  | _, TPat_Slow t x => t.Metric Z ∧ x.Metric Z
  | _, TPat_Euclid n k s thing => n.Metric Z ∧ k.Metric Z ∧ s.Metric Z ∧ thing.Metric Z
  | _, TPat_Stack xs => xs.Metric Z
  | _, TPat_Polyrhythm none ps => (∀ p ∈ ps.toList, Z p.size) ∧ ps.Metric Z
  | _, TPat_Polyrhythm (some r) ps => r.Metric Z ∧ (∀ p ∈ ps.toList, Z p.size) ∧ ps.Metric Z
  | _, TPat_Seq xs => xs.Metric Z
  | _, TPat_Silence => True
  | _, TPat_Elongate r x => 0 ≤ r ∧ x.Metric Z
  | _, TPat_Repeat _ x => x.Metric Z
  | _, _ => False

def TPats.Metric (Z : ℚ → Prop) : {α : Type} → TPats α → Prop
  | _, .nil => True
  | _, .cons p ps => p.Metric Z ∧ ps.Metric Z

end

end Tidal
