import Tidal.UI
import Tidal.Active

/-!
# The cached value of a pattern

`patternify` trusts the cached value of its parameter and does not look at the events. The cache is
truthful if the pattern really plays that value, and nothing else, at every moment. The transformers
below carry the cache along in a record update; each keeps it truthful under a condition of its own.
-/

namespace Tidal

open EventF Pattern

variable {Γ α β : Type}

/-- The values that `p` plays at `t`, as seen by a query over `a`. -/
def playing (p : Pattern Γ α) (m : Γ) (a : Arc) (t : Time) : Multiset α := (act p m a t).map Prod.snd

/-- At every moment exactly one event is active, and its value is `v`. -/
def Constant (v : α) (p : Pattern Γ α) : Prop := ∀ m a t, isIn a t → playing p m a t = {v}

/-- A cached value is defined, and is what the pattern plays. -/
def Truthful (p : Pattern Γ α) : Prop :=
  ∀ c, p.pureValue = some c → ∃ v, c = some v ∧ Constant v p

/-- What is played at a moment is the same for all queries that hold it, and nothing for the others. -/
def Sharp (p : Pattern Γ α) : Prop := Steady p ∧ ∀ a m t, ¬ isIn a t → act p m a t = 0

/-- The short cut of `patternify` is heard as the general path is, for functions into sharp patterns. -/
def ShortCutAgrees (p : Pattern Γ α) : Prop :=
  ∀ {β τ : Type} (f : Lazy α → τ → Pattern Γ β) (x : τ), p.pureValue.isSome →
    (∀ v, Sharp (f (some v) x)) → ∀ m a t, isIn a t →
      playing (patternify f p x) m a t = playing (innerJoin (fmap (fun v => f (some v) x) p)) m a t

/-! ## Transformers -/

/-- The record-updating transformers. -/
inductive Transformer (Γ : Type) : Type → Type → Type 1
  | fmap {α β : Type} (f : α → β) : Transformer Γ α β
  | rotL {α : Type} (s : Time) : Transformer Γ α α
  | fast {α : Type} (r : Time) : Transformer Γ α α
  | splitQueries {α : Type} : Transformer Γ α α
  | fastGap {α : Type} (r : Time) : Transformer Γ α α
  | compressArc {α : Type} (a : Arc) : Transformer Γ α α
  | filterValues {α : Type} (f : α → Bool) : Transformer Γ α α
  | filterJust {α : Type} : Transformer Γ (Option α) α
  | filterWhen {α : Type} (test : Time → Bool) : Transformer Γ α α
  | filterOnsets {α : Type} : Transformer Γ α α
  | when {α : Type} (test : ℤ → Bool) (f : Pattern Γ α → Pattern Γ α) : Transformer Γ α α
  | fit {α : Type} (perCycle : ℤ) (xs : Choices α) : Transformer Γ ℤ α
  | substruct {α : Type} (s : Pattern Γ Bool) : Transformer Γ α α

namespace Transformer

variable [EmptyCollection Γ]

def apply : Transformer Γ α β → Pattern Γ α → Pattern Γ β
  | .fmap f, p => Pattern.fmap f p
  | .rotL s, p => Pattern.rotL s p
  | .fast r, p => _fast r p
  | .splitQueries, p => Pattern.splitQueries p
  | .fastGap r, p => _fastGap r p
  | .compressArc a, p => Pattern.compressArc a p
  | .filterValues f, p => Pattern.filterValues f p
  | .filterJust, p => Pattern.filterJust p
  | .filterWhen test, p => Pattern.filterWhen test p
  | .filterOnsets, p => Pattern.filterOnsets p
  | .when test f, p => Pattern.when test f p
  | .fit n xs, p => _fit n xs p
  | .substruct s, p => Pattern.substruct s p

end Transformer

/-- Every event that is active at a moment of the query passes the test. -/
def AllActive (test : Event α → Prop) (p : Pattern Γ α) : Prop :=
  ∀ a m t, isIn a t → ∀ e ∈ p.query ⟨a, m⟩, isIn e.part t → test e

/-- The event is true and its timespan holds `t`, within one cycle. -/
def covers (t : Time) (e : Event Bool) : Bool :=
  e.value ∧ isIn e.wholeOrPart t ∧ e.wholeOrPart.stop ≤ nextSam e.wholeOrPart.start

/-- When a transformer keeps the cached value `v` of `p` truthful. Where it splits the query at cycle
boundaries, `p` has to be local. -/
def Transformer.Keeps : Transformer Γ α β → Pattern Γ α → α → Prop
  | .fmap _, _, _ => True
  | .rotL _, _, _ => True
  | .fast r, p, _ => r < 0 → Local p
  | .splitQueries, p, _ => Local p
  -- the gap is silent
  | .fastGap r, p, _ => r ≠ 0 → r ≤ 1 ∧ Local p
  | .compressArc a, p, _ =>
    0 ≤ a.start ∧ a.start < a.stop ∧ a.stop ≤ 1 → a.start = 0 ∧ a.stop = 1 ∧ Local p
  -- events that are filtered out leave silence
  | .filterValues f, _, v => f v
  | .filterJust, _, v => v.isSome
  | .filterWhen test, p, _ => AllActive (fun e => test e.wholeStart) p
  | .filterOnsets, p, _ => AllActive (fun e => e.isDigital ∧ e.eventPartStart = e.wholeStart) p
  | .when test f, p, v => Local p ∧ ∀ b m t, b.start < b.stop → b.stop ≤ nextSam b.start →
      test ⌊b.start⌋ → playing (f p) m b t = if isIn b t then {v} else 0
  -- the list is read further on in later cycles
  | .fit n xs, p, v => AllActive (fun e => xs.at (fitAt n v ⌊e.part.start⌋) = xs.at v) p
  | .substruct s, p, _ => Local p ∧ ∀ a m t, isIn a t → (s.query ⟨a, m⟩).countP (covers t) = 1

/-- The transformers that keep a local pattern local: all but `substruct`, which answers with whole
timespans where it was asked about a part of them. -/
def Transformer.KeepsLocal : Transformer Γ α β → Pattern Γ α → Prop
  | .substruct _, _ => False
  | .when _ f, p => Local (f p)
  | _, _ => True

/-! ## Runs -/

section

variable [EmptyCollection Γ]

/-- The patterns that sequences of transformers make from `pure`, each step under the condition `C`. -/
inductive Obtained (C : ∀ {α β : Type}, Transformer Γ α β → Pattern Γ α → Prop) :
    ∀ {α : Type}, Pattern Γ α → Prop
  | pure {α : Type} (v : α) : Obtained C (Pattern.pure v)
  | step {α β : Type} (T : Transformer Γ α β) {p : Pattern Γ α} :
      Obtained C p → C T p → Obtained C (T.apply p)

/-- The step keeps the cached value truthful, if there is one. -/
def Kept {α β : Type} (T : Transformer Γ α β) (p : Pattern Γ α) : Prop :=
  ∀ v, p.pureValue = some (some v) → T.Keeps p v

end

end Tidal
