import Tidal.Pattern

/-!
# Chords (`Sound.Tidal.Pattern`)

Events at the same time are collected into one event, whose value is the list of their values.
-/

namespace Tidal.Pattern

open EventF

variable {Γ α β : Type}

/-- The derived equality of events. -/
abbrev eventBEq [BEq α] : BEq (Event α) where
  beq e e' := e.context = e'.context && (e.whole = e'.whole && (e.part = e'.part && e.value == e'.value))

attribute [local instance] eventBEq

/-- `xs \\ ys`: the first of the elements that equal it is deleted, for every element of `ys`. -/
def without [BEq β] (xs ys : List β) : List β := ys.foldl List.erase xs

theorem length_without_le [BEq β] (xs ys : List β) : (without xs ys).length ≤ xs.length := by
  induction ys generalizing xs with
  | nil => exact le_refl _
  | cons y ys ih => exact le_trans (ih (xs.erase y)) (List.erase_sublist.length_le)

/-! ## Collecting -/

def sameDur (e1 e2 : Event α) : Bool := e1.whole = e2.whole && e1.part = e2.part

def groupEventsBy [BEq α] (f : Event α → Event α → Bool) : List (Event α) → List (List (Event α))
  | [] => []
  | e :: es =>
    let eqs := e :: es.filter (f e)
    eqs :: groupEventsBy f (without es eqs)
termination_by es => es.length
decreasing_by exact Nat.lt_succ_of_le (length_without_le _ _)

def unionC : List Context → Context
  | [] => ⟨[]⟩
  | ⟨is⟩ :: cs => ⟨is ++ (unionC cs).contextPosition⟩

/-- Assumes that all events in the list have same whole/part. -/
def collectEvent : List (Event α) → Option (Event (List α))
  | [] => none
  | e :: es =>
    some ⟨unionC ((e :: es).map context), e.whole, e.part, (e :: es).map value⟩

def collectEventsBy [BEq α] (f : Event α → Event α → Bool) (es : List (Event α)) : List (Event (List α)) :=
  ((groupEventsBy f es).map collectEvent).reduceOption

/-- Collects all events satisfying the same constraint into a list. -/
def collectBy [BEq α] (f : Event α → Event α → Bool) : Pattern Γ α → Pattern Γ (List α) :=
  withEvents (collectEventsBy f)

/-- Collects all events occuring at the exact same time into a list. -/
def collect [BEq α] : Pattern Γ α → Pattern Γ (List α) := collectBy sameDur

/-! ## Uncollecting -/

/-- The source position of the value at `i`, if there are enough of them. -/
def resolveContext (i : ℕ) (c : Context) : Context :=
  match c.contextPosition[i]? with
  | none => ⟨[]⟩
  | some x => ⟨[x]⟩

def uncollectEvent (e : Event (List α)) : List (Event α) :=
  e.value.mapIdx fun i v => ⟨resolveContext i e.context, e.whole, e.part, v⟩

def uncollectEvents (es : List (Event (List α))) : List (Event α) := es.flatMap uncollectEvent

/-- Merges all values in a list into one pattern by stacking the values. -/
def uncollect : Pattern Γ (List α) → Pattern Γ α := withEvents uncollectEvents

end Tidal.Pattern
