import Tidal.Stream.Process

/-!
# Stateful controls (`Sound.Tidal.Params`)

A stateful control keeps what it has to remember in the state map. `pStateList` remembers the part of its
list that is still to come.
-/

namespace Tidal

variable {S : Type}

namespace Value

mutual

/-- Whether the value is data: no pattern and no function is in it. -/
def plain : Value S → Bool
  | VList vs => allPlain vs
  | VPattern _ => false
  | VState _ => false
  | _ => true

def allPlain : List (Value S) → Bool
  | [] => true
  | v :: vs => v.plain && allPlain vs

end

def getList : Value S → Option (List (Value S))
  | VList vs => some vs
  | _ => none

end Value

/-- A state map that is read, too. It holds data; since a value may be a function on the map, no map holds
all values, and `stored` is what is found where a value was inserted. -/
class StateStore (S : Type) extends StateMap S where
  lookup : String → S → Option (Value S)
  stored : Value S → Option (Value S)
  stored_plain : ∀ v : Value S, v.plain → stored v = some v
  lookup_insert : ∀ (k : String) (v : Value S) (m : S), lookup k (insert k v m) = stored v
  lookup_insert_ne : ∀ (k l : String) (v : Value S) (m : S), k ≠ l → lookup l (insert k v m) = lookup l m

section Lists

variable [StateStore S]

/-- The part of the list that is left. Do this instead of a cycle, so it can get updated with a list. -/
def looped (sName : String) (xs : List (Value S)) (sMap : S) : List (Value S) :=
  let xs' := (StateStore.lookup sName sMap >>= Value.getList).getD xs
  if xs'.isEmpty then xs else xs'

/-- The function that `pStateList` plays. -/
def statefList (sName : String) (xs : List (Value S)) (sMap : Susp S) : Susp (Susp S × Value S) := do
  let m ← sMap
  match looped sName xs m with
  | [] => throw "Prelude.head: empty list"
  | x :: rest => return (.ok (StateMap.insert sName (.VList rest) m), x)

/-- A control that cycles through a list, one value for each onset. `sName` is where it is kept. -/
def pStateList (name sName : String) (xs : List (Value S)) : ControlPattern S :=
  LivePattern.ofPattern
    (Pattern.pure ((∅ : ValueMap S).insert name (.VState (statefList sName xs))))

def pStateListF (name sName : String) (xs : List ℚ) : ControlPattern S :=
  pStateList name sName (xs.map .VF)

def pStateListS (name sName : String) (xs : List String) : ControlPattern S :=
  pStateList name sName (xs.map .VS)

end Lists

end Tidal
