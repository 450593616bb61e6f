import Tidal.Pattern

/-!
# The derived orderings

Arcs, contexts and events are ordered field by field, in the order of their fields; no whole comes before
every whole.
-/

namespace Tidal

variable {α κ : Type}

instance : LinearOrder Arc :=
  LinearOrder.lift' (fun a => toLex (a.start, a.stop)) fun a b h => by
    cases a
    cases b
    simpa using h

/-- A position in the source, line and column, as a pair that is compared from the left. -/
abbrev Positions := List ((ℤ ×ₗ ℤ) ×ₗ (ℤ ×ₗ ℤ))

def Context.key (c : Context) : Positions :=
  c.contextPosition.map fun x => toLex (toLex x.1, toLex x.2)

theorem Context.key_injective : Function.Injective Context.key := by
  intro c c' h
  cases c
  cases c'
  simp only [Context.key] at h
  congr 1
  refine List.map_injective_iff.mpr (fun x y hxy => ?_) h
  simpa [Prod.ext_iff] using hxy

instance : LinearOrder Context := LinearOrder.lift' Context.key Context.key_injective

/-- A whole, as it is compared. -/
def wholeKey (w : Option Arc) : WithBot Arc := w

instance [LinearOrder α] : LinearOrder (Event α) :=
  LinearOrder.lift' (fun e => toLex (e.context, toLex (wholeKey e.whole, toLex (e.part, e.value))))
    fun e e' h => by
      cases e
      cases e'
      simp only [toLex_inj, Prod.mk.injEq] at h
      obtain ⟨rfl, hwhole, rfl, rfl⟩ := h
      exact congrArg (EventF.mk _ · _ _) hwhole

/-- Sorts by what `f` gives for the elements; elements with the same keep their order. -/
def sortOn [LinearOrder κ] (f : α → κ) (l : List α) : List α :=
  l.insertionSort fun x y => f x ≤ f y

end Tidal
