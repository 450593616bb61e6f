import Tidal.Core
import Tidal.Lib.HalfOpen
import Tidal.Lib.TaggedBag

/-!
# What a pattern plays at one moment

A query may cut an event into fragments, so two queries of one pattern differ as lists of events. What
they have in common is read off at single moments: the `(whole, value)` pairs of the events whose part
holds the moment. A well-behaved pattern has one such multiset at every moment, whatever query is asked;
this is its behaviour, and the combinators act on behaviours by the operations of `TaggedBag`.
-/

namespace Tidal

variable {Γ α β : Type}

/-- `a` lies inside `b`. -/
def Within (a b : Arc) : Prop := b.start ≤ a.start ∧ a.start ≤ a.stop ∧ a.stop ≤ b.stop

/-- The `(whole, value)` pairs of the events whose part `[s,e)` contains `t`. -/
def activeIn (es : List (Event α)) (t : Time) : Multiset (Option Arc × α) :=
  ((es.filter fun e => isIn e.part t).map fun e => (e.whole, e.value) : List (Option Arc × α))

/-- What `p` plays at `t`, as seen by a query over `a`. -/
def act (p : Pattern Γ α) (m : Γ) (a : Arc) (t : Time) : Multiset (Option Arc × α) :=
  activeIn (p.query ⟨a, m⟩) t

/-- The pair with its whole moved by `f`. -/
def onWhole (f : Arc → Arc) (x : Option Arc × α) : Option Arc × α := (x.1.map f, x.2)

/-- What is played at each moment of time. -/
abbrev Behaviour (α : Type) := Time → Multiset (Option Arc × α)

/-- What `p` plays at each moment, as seen by a query that starts at the moment. -/
def behaviour (p : Pattern Γ α) (m : Γ) : Behaviour α := fun t => act p m ⟨t, t + 1⟩ t

/-- The whole of two events together, for events that share a moment. -/
def meet : Option Arc → Option Arc → Option Arc
  | some a, some b => some (sect a b)
  | _, _ => none

/-- A digital pattern whose parts lie inside their wholes and inside the query arc, and whose answers do
not depend on how the query is cut. -/
structure Coherent (p : Pattern Γ α) : Prop where
  digital : ∀ a m, a.start ≤ a.stop → ∀ e ∈ p.query ⟨a, m⟩, e.isDigital
  inQuery : ∀ a m, a.start ≤ a.stop → ∀ e ∈ p.query ⟨a, m⟩, Within e.part a
  inWhole : ∀ a m, a.start ≤ a.stop → ∀ e ∈ p.query ⟨a, m⟩, ∀ w, e.whole = some w → Within e.part w
  cut : ∀ a b m t, isIn a t → isIn b t → act p m a t = act p m b t

/-- A coherent pattern whose wholes have positive width. -/
structure Regular (p : Pattern Γ α) : Prop extends Coherent p where
  width : ∀ a m, a.start ≤ a.stop → ∀ e ∈ p.query ⟨a, m⟩, ∀ w, e.whole = some w → w.start < w.stop

/-- Every value that `p` plays satisfies `P`. -/
def Values (P : α → Prop) (p : Pattern Γ α) : Prop :=
  ∀ a m, a.start ≤ a.stop → ∀ e ∈ p.query ⟨a, m⟩, P e.value

/-! ## Well-formed answers -/

/-- The part `b` of an answer to the query `a`: inside `a` and, in a strict answer, of positive width if
`a` is. -/
def Fits (strict : Prop) (a b : Arc) : Prop :=
  Within b a ∧ (strict → a.start < a.stop → b.start < b.stop)

/-- An event that may answer the query `a`. -/
structure Answers (strict : Prop) (a : Arc) (w : Option Arc) (p : Arc) : Prop where
  fits : Fits strict a p
  whole : ∃ w', w = some w' ∧ w'.start < w'.stop ∧ Within p w'

/-- Digital events with wholes of positive width and parts inside the whole and the query; strictly,
parts have no zero width unless the query has. -/
def WellFormed (strict : Prop) (p : Pattern Γ α) : Prop :=
  ∀ a m, a.start ≤ a.stop → ∀ e ∈ p.query ⟨a, m⟩, Answers strict a e.whole e.part

/-! ## Answers that do not depend on the cut -/

/-- All queries that hold a moment see the same there. -/
def Steady (p : Pattern Γ α) : Prop :=
  ∀ a b m t, isIn a t → isIn b t → act p m a t = act p m b t

/-- A query sees nothing outside of itself. -/
def Local (p : Pattern Γ α) : Prop :=
  ∀ a m t, a.start < a.stop → ¬ isIn a t → act p m a t = 0

/-- Consecutive query arcs between the given points. -/
def cutArcs (cuts : List Time) : List Arc := cuts.zipWith ArcF.mk cuts.tail

/-- However a span is cut into consecutive queries, their answers together are the behaviour of the
pattern at every moment of the span. -/
def CutFree (p : Pattern Γ α) : Prop :=
  ∀ (m : Γ) (c : Time) (cuts : List Time) (t : Time), (c :: cuts).IsChain (· < ·) → c ≤ t →
    t < (c :: cuts).getLast (by simp) →
      activeIn ((cutArcs (c :: cuts)).flatMap fun b => p.query ⟨b, m⟩) t = behaviour p m t

/-- Digital, with parts inside their wholes, and with answers that do not depend on how the query is
cut. -/
structure Seamless (p : Pattern Γ α) : Prop where
  digital : ∀ a m, a.start ≤ a.stop → ∀ e ∈ p.query ⟨a, m⟩, e.isDigital
  inWhole : ∀ a m, a.start ≤ a.stop → ∀ e ∈ p.query ⟨a, m⟩, ∀ w, e.whole = some w → Within e.part w
  cutFree : CutFree p

/-! ## Queries of no width -/

/-- The `(whole, value)` pairs of the answer to the query of no width at `t`. -/
def sampled (p : Pattern Γ α) (m : Γ) (t : Time) : Multiset (Option Arc × α) :=
  ((p.query ⟨⟨t, t⟩, m⟩).map fun e => (e.whole, e.value) : List (Option Arc × α))

/-- The query of no width at a moment is answered with what any query around the moment sees there, each
event cut down to the moment. -/
structure PointConsistent (p : Pattern Γ α) : Prop where
  part : ∀ m t, ∀ e ∈ p.query ⟨⟨t, t⟩, m⟩, e.part = ⟨t, t⟩
  active : ∀ a m t, isIn a t → sampled p m t = act p m a t

/-- Queries of positive width are answered with parts of positive width only. -/
def Thick (p : Pattern Γ α) : Prop :=
  ∀ a m, a.start < a.stop → ∀ e ∈ p.query ⟨a, m⟩, e.part.start < e.part.stop

/-- Control values as an association list, for patterns that do not look at them. -/
abbrev Controls := List (String × ℚ)

/-- A pattern whose events lie across the cycle boundaries: from half a cycle before to half a cycle
after. -/
def offbeat : Pattern Unit ℕ := Pattern.rotL (1 / 2) (Pattern.pure 0)

end Tidal
