import Tidal.Active

/-!
# Patterns built from the regular operators, and their onsets

The player asks for one short arc after another and starts a note for every event whose part begins
where its whole begins. `onsetsIn` reads these onsets off a list of answers; `cutArcs` is a timespan cut
into consecutive query arcs.
-/

namespace Tidal

open Pattern

variable {Γ : Type}

/-- Patterns made from `pure` and `silence` by the operators that keep patterns regular. -/
inductive Built : {α : Type} → Pattern Γ α → Prop
  | pure {α : Type} (v : α) : Built (Pattern.pure v)
  | silence {α : Type} : Built (silence : Pattern Γ α)
  | stack {α : Type} (ps : List (Pattern Γ α)) : (∀ p ∈ ps, Built p) → Built (stack ps)
  | cat {α : Type} (ps : List (Pattern Γ α)) : (∀ p ∈ ps, Built p) → Built (cat ps)
  | fmap {α β : Type} (f : α → β) {p : Pattern Γ α} : Built p → Built (fmap f p)
  | filterValues {α : Type} (f : α → Bool) {p : Pattern Γ α} : Built p → Built (filterValues f p)
  | fast {α : Type} (r : Time) {p : Pattern Γ α} : Built p → Built (_fast r p)
  | rotL {α : Type} (s : Time) {p : Pattern Γ α} : Built p → Built (rotL s p)
  | rev {α : Type} {p : Pattern Γ α} : Built p → Built (rev p)
  | splitQueries {α : Type} {p : Pattern Γ α} : Built p → Built (splitQueries p)
  | when {α : Type} (test : ℤ → Bool) (f : Pattern Γ α → Pattern Γ α) {p : Pattern Γ α} :
      Built p → Built (f p) → Built (when test f p)
  | ap {α β : Type} {pf : Pattern Γ (α → β)} {px : Pattern Γ α} :
      Built pf → Built px → Built (ap pf px)
  | apLeft {α β : Type} {pf : Pattern Γ (α → β)} {px : Pattern Γ α} :
      Built pf → Built px → Built (apLeft pf px)
  | apRight {α β : Type} {pf : Pattern Γ (α → β)} {px : Pattern Γ α} :
      Built pf → Built px → Built (apRight pf px)
  | unwrap {α : Type} {pp : Pattern Γ (Pattern Γ α)} : Built pp →
      (∀ a m, a.start ≤ a.stop → ∀ e ∈ pp.query ⟨a, m⟩, Built e.value) → Built (unwrap pp)
  | innerJoin {α : Type} {pp : Pattern Γ (Pattern Γ α)} : Built pp →
      (∀ a m, a.start ≤ a.stop → ∀ e ∈ pp.query ⟨a, m⟩, Built e.value) → Built (innerJoin pp)
  | squeezeJoin {α : Type} {pp : Pattern Γ (Pattern Γ α)} : Built pp →
      (∀ a m, a.start ≤ a.stop → ∀ e ∈ pp.query ⟨a, m⟩, Built e.value) → Built (squeezeJoin pp)
  | trigJoin {α : Type} {pp : Pattern Γ (Pattern Γ α)} : Built pp →
      (∀ a m, a.start ≤ a.stop → ∀ e ∈ pp.query ⟨a, m⟩, Built e.value) → Built (trigJoin pp)

/-- The `(whole, value)` pairs of the events that have their onset at `u`. -/
def onsetsIn {α : Type} (es : List (Event α)) (u : Time) : Multiset (Option Arc × α) :=
  ((es.filter fun e => e.eventHasOnset ∧ e.part.start = u).map fun e => (e.whole, e.value) :
    List (Option Arc × α))

/-- The pair has a whole that starts at `u`. -/
def startsAt {α : Type} (u : Time) (x : Option Arc × α) : Prop := x.1.map ArcF.start = some u

instance {α : Type} (u : Time) (x : Option Arc × α) : Decidable (startsAt u x) :=
  inferInstanceAs (Decidable (_ = _))

end Tidal
