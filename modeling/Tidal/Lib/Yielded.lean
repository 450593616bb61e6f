import Mathlib

/-!
# Lists that are built as they are read

Reading such a list gives its elements one by one, and may raise an exception where a next element or the end
is asked for. Its first constructor may be there although reading on raises.
-/

/-- A list that is built as it is read: the elements, and what reading on after the last one comes to. -/
structure Yielded (ε α : Type) where
  elems : List α
  ending : Except ε Unit

namespace Yielded

variable {ε α β : Type}

/-- A list whose reading raises nothing. -/
def ofList (l : List α) : Yielded ε α := ⟨l, .ok ()⟩

/-- A list that raises an exception at once. -/
def raise (e : ε) : Yielded ε α := ⟨[], .error e⟩

/-- Reads the list to its end. -/
def all (y : Yielded ε α) : Except ε (List α) := y.ending.map fun _ => y.elems

/-- Reads the first constructor only. -/
def first (y : Yielded ε α) : Except ε Unit :=
  match y.elems with
  | [] => y.ending
  | _ :: _ => .ok ()

def map (f : α → β) (y : Yielded ε α) : Yielded ε β := ⟨y.elems.map f, y.ending⟩

def filterMap (f : α → Option β) (y : Yielded ε α) : Yielded ε β := ⟨y.elems.filterMap f, y.ending⟩

/-- The second list is read once the first one has come to its end. -/
def append (y z : Yielded ε α) : Yielded ε α :=
  match y.ending with
  | .ok _ => ⟨y.elems ++ z.elems, z.ending⟩
  | .error e => ⟨y.elems, .error e⟩

/-- The lists of the elements, each read before the next element is. -/
def flatMap (g : α → Yielded ε β) (y : Yielded ε α) : Yielded ε β :=
  y.elems.foldr (fun x z => (g x).append z) ⟨[], y.ending⟩

end Yielded
