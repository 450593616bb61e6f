import Tidal.Chew
import Tidal.Stream.Values

/-!
# Classes of values (`Sound.Tidal.Pattern`)

The sum of control maps, and the instances of `Eq` and `Ord` for values. A table that has no line for a pair
of constructors falls through to its last one.
-/

namespace Tidal

variable {S : Type}

/-- `+` -/
def ValueMap.add (m m' : ValueMap S) : ValueMap S := m.unionWith (Value.fNum2 MachineInt.add (· + ·)) m'

namespace Value

/-- `==` -/
def beq : Value S → Value S → Bool
  | VS x, VS y => x = y
  | VB x, VB y => x = y
  | VF x, VF y => x = y
  | VI x, VI y => x = y
  | VN x, VN y => x = y
  | VR x, VR y => x = y
  | VX x, VX y => x = y
  | VF x, VI y => x = y
  | VI y, VF x => x = y
  | VF x, VR y => x = y
  | VR y, VF x => x = y
  | VI x, VR y => (x : ℚ) = y
  | VR y, VI x => (x : ℚ) = y
  | _, _ => false

/-- A note and an integer are compared as notes, a double and a rational as doubles. -/
def compare : Value S → Value S → Ordering
  | VS x, VS y => Ord.compare x y
  | VB x, VB y => Ord.compare x y
  | VF x, VF y => Ord.compare x y
  | VN x, VN y => Ord.compare x y
  | VI x, VI y => Ord.compare x y
  | VR x, VR y => Ord.compare x y
  | VX x, VX y => Ord.compare x y
  | VS _, _ => .lt
  | _, VS _ => .gt
  | VB _, _ => .lt
  | _, VB _ => .gt
  | VX _, _ => .lt
  | _, VX _ => .gt
  | VF x, VI y => Ord.compare x (y : ℚ)
  | VI x, VF y => Ord.compare (x : ℚ) y
  | VR x, VI y => Ord.compare x (y : ℚ)
  | VI x, VR y => Ord.compare (x : ℚ) y
  | VF x, VR y => Ord.compare x y
  | VR x, VF y => Ord.compare x y
  | VN x, VI y => Ord.compare x (y : ℚ)
  | VI x, VN y => Ord.compare (x : ℚ) y
  | VN x, VR y => Ord.compare x y
  | VR x, VN y => Ord.compare x y
  | VF x, VN y => Ord.compare x y
  | VN x, VF y => Ord.compare x y
  -- you can't really compare patterns, state or lists
  | VPattern _, VPattern _ => .eq
  | VPattern _, _ => .gt
  | _, VPattern _ => .lt
  | VState _, VState _ => .eq
  | VState _, _ => .gt
  | _, VState _ => .lt
  | VList _, VList _ => .eq
  | VList _, _ => .gt
  | _, VList _ => .lt

end Value

end Tidal
