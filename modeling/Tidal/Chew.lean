import Tidal.UI
import Tidal.Stream.Values

/-!
# Slices of control patterns (`Sound.Tidal.UI`)

`_chew` slices a control pattern as `_bite` does, and also scales the speed of the sounds. Its control patterns
are evaluated ones: their queries and values do not raise.
-/

namespace Tidal

variable {Γ S α : Type}

namespace Map

/-- The union, in which `f` joins the values that both have for a key. -/
def unionWith (f : α → α → α) (m m' : Map α) : Map α :=
  m'.foldl (fun r k y => r.alter k fun x => some (x.elim y (f · y))) m

def singleton (k : String) (v : α) : Map α := (∅ : Map α).insert k v

end Map

/-! ## Arithmetic of control maps -/

namespace ValueMap

/-- `*` -/
def mul (m m' : ValueMap S) : ValueMap S := m.unionWith (Value.fNum2 MachineInt.mul (· * ·)) m'

def recip (m : ValueMap S) : ValueMap S := m.map fun _ v => v.applyFIS (fun x => 1 / x) id id

/-- `/` -/
def div (m m' : ValueMap S) : ValueMap S := m.mul (recip m')

end ValueMap

namespace Pattern

def pF (name : String) (p : Pattern Γ ℚ) : Pattern Γ (ValueMap S) :=
  fmap (fun v => Map.singleton name (.VF v)) p

def speed (p : Pattern Γ ℚ) : Pattern Γ (ValueMap S) := pF "speed" p

/-- `|*` -/
def mulLeft (a b : Pattern Γ (ValueMap S)) : Pattern Γ (ValueMap S) := apLeft (fmap ValueMap.mul a) b

/-- `|/` -/
def divLeft (a b : Pattern Γ (ValueMap S)) : Pattern Γ (ValueMap S) := apLeft (fmap ValueMap.div a) b

/-! ## Slices -/

def mungeUp (co : Context) (oWhole oPart : Arc) (ie : Event (ValueMap S)) : Option (Event (ValueMap S)) := do
  let iWhole ← ie.whole
  let w' ← subArc oWhole iWhole
  let p' ← subArc oPart ie.part
  return ⟨combineContexts [ie.context, co], some w', p', ie.value⟩

/-- What one outer event contributes to `squeezeJoinUp`. -/
def squeezeUpEvent (st : State Γ) (e : Event (Pattern Γ (ValueMap S))) : List (Event (ValueMap S)) :=
  match e.whole with
  | none => []
  | some w =>
    ((compressArc (cycleArc w) (mulLeft e.value (speed (Pattern.pure (1 / (w.stop - w.start)))))).query
      { st with arc := e.part }).filterMap (mungeUp e.context w e.part)

def squeezeJoinUp (pp : Pattern Γ (Pattern Γ (ValueMap S))) : Pattern Γ (ValueMap S) :=
  { query := fun st => ((filterDigital pp).query st).flatMap (squeezeUpEvent st)
    tactus := pp.tactus
    pureValue := none }

/-- Works the same as `_bite`, but speeds up or slows down the playback of sounds as well. -/
def _chew (n : ℤ) (ipat : Pattern Γ ℤ) (pat : Pattern Γ (ValueMap S)) : Pattern Γ (ValueMap S) :=
  divLeft (squeezeJoinUp (fmap (zoompat n pat) ipat)) (speed (Pattern.pure n))

end Pattern

end Tidal
