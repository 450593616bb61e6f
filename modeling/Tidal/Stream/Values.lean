import Tidal.Stream.Process

/-!
# Arithmetic of values (`Sound.Tidal.Pattern`)

Arithmetic on a stateful value makes a stateful value, whose result is what the arithmetic is done with
in the end. `Term` is the expressions that users write with it.
-/

namespace Tidal

variable {S : Type}

namespace Value

mutual

/-- Applies `g` to a value or, if it is stateful, to what it results in. -/
def throughState (g : Value S → Value S) : Value S → Value S
  | VState x => VState fun cmap => throughResult g (x cmap)
  | v => g v

def throughResult (g : Value S → Value S) : Except SomeException (Except SomeException S × Value S) →
    Except SomeException (Except SomeException S × Value S)
  | .error e => .error e
  | .ok r => .ok (throughPair g r)

def throughPair (g : Value S → Value S) :
    Except SomeException S × Value S → Except SomeException S × Value S
  | (s, v) => (s, throughState g v)

end

/-- Apply one of three functions to a value, depending on its type. -/
def applyFIS (f : ℚ → ℚ) (f' : ℤ → ℤ) (f'' : String → String) : Value S → Value S :=
  throughState fun
    | VF x => VF (f x)
    | VN x => VN (f x)
    | VI i => VI (f' i)
    | VS s => VS (f'' s)
    | v => v

/-- Apply one of two functions to a pair of values, depending on their types (int or float; strings and
rationals are ignored). Of two stateful values the left one is the first to result in a value. -/
def fNum2 (fInt : ℤ → ℤ → ℤ) (fFloat : ℚ → ℚ → ℚ) (x y : Value S) : Value S :=
  throughState (fun x => throughState (fun y => match x, y with
    | VI a, VI b => VI (fInt a b)
    | VF a, VF b => VF (fFloat a b)
    | VN a, VN b => VN (fFloat a b)
    | VF a, VN b => VN (fFloat a b)
    | VN a, VF b => VN (fFloat a b)
    | VI a, VF b => VF (fFloat a b)
    | VF a, VI b => VF (fFloat a b)
    | x, _ => x) y) x

theorem throughResult_eq (g : Value S → Value S)
    (r : Except SomeException (Except SomeException S × Value S)) :
    throughResult g r = r.map fun p => (p.1, throughState g p.2) := by
  cases r with
  | error e => rfl
  | ok p =>
    obtain ⟨s, v⟩ := p
    rfl

theorem applyFIS_VState (f : ℚ → ℚ) (f' : ℤ → ℤ) (f'' : String → String)
    (x : Susp S → Susp (Susp S × Value S)) :
    applyFIS f f' f'' (VState x) =
      VState fun cmap => (x cmap).map fun p => (p.1, applyFIS f f' f'' p.2) :=
  congrArg VState (funext fun _ => throughResult_eq _ _)

theorem fNum2_VState_left (fInt : ℤ → ℤ → ℤ) (fFloat : ℚ → ℚ → ℚ)
    (x : Susp S → Susp (Susp S × Value S)) (b : Value S) :
    fNum2 fInt fFloat (VState x) b =
      VState fun cmap => (x cmap).map fun p => (p.1, fNum2 fInt fFloat p.2 b) :=
  congrArg VState (funext fun _ => throughResult_eq _ _)

theorem fNum2_VState_right (fInt : ℤ → ℤ → ℤ) (fFloat : ℚ → ℚ → ℚ) {a : Value S} (ha : a.notVState)
    (y : Susp S → Susp (Susp S × Value S)) :
    fNum2 fInt fFloat a (VState y) =
      VState fun cmap => (y cmap).map fun p => (p.1, fNum2 fInt fFloat a p.2) := by
  cases a with
  | VState _ => cases ha
  | _ => exact congrArg VState (funext fun _ => throughResult_eq _ _)

end Value

/-! ## Expressions -/

/-- Given a state map, the function returns a state map and a plain value. -/
def ReturnsPlain (f : Susp S → Susp (Susp S × Value S)) : Prop :=
  ∀ s : S, ∃ s' v, f (.ok s) = .ok (.ok s', v) ∧ v.notVState

/-- Plain and stateful values, combined by arithmetic. -/
inductive Term (S : Type) where
  | plain (v : Value S) (h : v.notVState)
  | state (f : Susp S → Susp (Susp S × Value S)) (h : ReturnsPlain f)
  | applyFIS (f : ℚ → ℚ) (f' : ℤ → ℤ) (f'' : String → String) (x : Term S)
  | fNum2 (fInt : ℤ → ℤ → ℤ) (fFloat : ℚ → ℚ → ℚ) (x y : Term S)

namespace Term

def value : Term S → Value S
  | plain v _ => v
  | state f _ => .VState f
  | applyFIS f f' f'' x => Value.applyFIS f f' f'' x.value
  | fNum2 fInt fFloat x y => Value.fNum2 fInt fFloat x.value y.value

/-- The number of stateful operands. -/
def stateful : Term S → ℕ
  | plain _ _ => 0
  | state _ _ => 1
  | applyFIS _ _ _ x => x.stateful
  | fNum2 _ _ x y => x.stateful + y.stateful

end Term

/-- The event with the values of its expressions. -/
def valueEvent (e : Event (Map (Term S))) : Event (Susp (ValueMap S)) :=
  e.map fun m => .ok (m.map fun _ x => x.value)

/-- The event has a value, and no entry of it is stateful. -/
def Resolved (e : Event (Susp (ValueMap S))) : Prop :=
  ∃ vm, e.value = .ok vm ∧ ∀ (k : String) v, vm[k]? = some v → v.notVState

/-- The function that `pStateF` plays (`Sound.Tidal.Params`): the stored number is updated and is the
value. -/
def statef (sName : String) (update : Option ℚ → ℚ) (sMap : Susp (ValueMap Empty)) :
    Susp (Susp (ValueMap Empty) × Value (ValueMap Empty)) := do
  let m ← sMap
  let x := update (m[sName]? >>= Value.getF)
  return (.ok (Std.ExtTreeMap.insert m sName (.VF x)), .VF x)

end Tidal
