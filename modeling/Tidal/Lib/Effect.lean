import Mathlib

/-!
# Actions that raise exceptions and wait for variables

An action runs in a world and returns a value, raises an exception or waits for ever. A variable is a
place of the world that is full or empty: taking empties it and waits while it is empty, putting fills
it and waits while it is full. The rules say what an action leaves alone, and what becomes of a section
that takes a variable and puts it back when its body raises.
-/

/-- What running an action comes to, and the world it leaves. -/
inductive Outcome (W ε α : Type) where
  | returned (a : α) (w : W)
  | raised (e : ε) (w : W)
  | blocked (w : W)

/-- The world an action leaves, however it ends. -/
def Outcome.world {W ε α : Type} : Outcome W ε α → W
  | .returned _ w | .raised _ w | .blocked w => w

/-- An action: it runs in a world, and may return a value, raise an exception or wait for ever. -/
def Effect (W ε α : Type) := W → Outcome W ε α

namespace Effect

variable {W ε α β γ : Type}

/-- What is done with an outcome next: an exception skips it, and nothing follows a wait for ever. -/
def andThen : Outcome W ε α → (α → Effect W ε β) → Outcome W ε β
  | .returned a w, f => f a w
  | .raised e w, _ => .raised e w
  | .blocked w, _ => .blocked w

instance : Monad (Effect W ε) where
  pure a := fun w => .returned a w
  bind x f := fun w => andThen (x w) f

theorem bind_run (x : Effect W ε α) (f : α → Effect W ε β) (w : W) :
    (x >>= f) w = andThen (x w) f := rfl

theorem andThen_assoc (o : Outcome W ε α) (f : α → Effect W ε β) (g : β → Effect W ε γ) :
    andThen (andThen o f) g = andThen o fun a => f a >>= g := by
  cases o <;> rfl

theorem andThen_pure (o : Outcome W ε α) : andThen o pure = o := by
  cases o <;> rfl

instance : LawfulMonad (Effect W ε) :=
  LawfulMonad.mk' _ (fun x => funext fun w => andThen_pure (x w)) (fun _ _ => rfl)
    fun x f g => funext fun w => andThen_assoc (x w) f g

/-- Raises an exception. -/
def throw (e : ε) : Effect W ε α := fun w => .raised e w

/-- Runs the action; the handler takes over where it raises an exception. -/
def handle (h : ε → Effect W ε α) (x : Effect W ε α) : Effect W ε α := fun w =>
  match x w with
  | .raised e w' => h e w'
  | o => o

/-- `handle` with the action first. -/
def catch' (x : Effect W ε α) (h : ε → Effect W ε α) : Effect W ε α := handle h x

/-- Runs an action for every element and collects the results. -/
def mapM (f : α → Effect W ε β) : List α → Effect W ε (List β)
  | [] => pure []
  | x :: xs => do
    let y ← f x
    let ys ← mapM f xs
    return y :: ys

/-- Runs an action for every element. -/
def forM_ (xs : List α) (f : α → Effect W ε Unit) : Effect W ε Unit := do
  let _ ← mapM f xs
  pure ()

theorem forM_cons (x : α) (xs : List α) (f : α → Effect W ε Unit) :
    forM_ (x :: xs) f = (do f x; forM_ xs f) := by
  simp only [forM_, mapM, bind_assoc, pure_bind]

/-! ## What an action leaves alone -/

/-- What `v` sees of the world is the same after the action, however it ends. -/
def Leaves (v : W → γ) (x : Effect W ε α) : Prop := ∀ w, v (x w).world = v w

variable {v : W → γ}

theorem leaves_pure (a : α) : Leaves v (pure a : Effect W ε α) := fun _ => rfl

theorem leaves_throw (e : ε) : Leaves v (throw e : Effect W ε α) := fun _ => rfl

theorem leaves_bind {x : Effect W ε α} {f : α → Effect W ε β} (hx : Leaves v x)
    (hf : ∀ a, Leaves v (f a)) : Leaves v (x >>= f) := by
  intro w
  have hw := hx w
  rw [bind_run]
  cases h : x w with
  | returned a w' => rw [h] at hw; exact (hf a w').trans hw
  | raised e w' => rw [h] at hw; exact hw
  | blocked w' => rw [h] at hw; exact hw

theorem leaves_handle {h : ε → Effect W ε α} {x : Effect W ε α} (hh : ∀ e, Leaves v (h e))
    (hx : Leaves v x) : Leaves v (handle h x) := by
  intro w
  have hw := hx w
  unfold Effect.handle
  cases hr : x w with
  | returned a w' => rw [hr] at hw; exact hw
  | raised e w' => rw [hr] at hw; exact (hh e w').trans hw
  | blocked w' => rw [hr] at hw; exact hw

theorem leaves_mapM {xs : List α} {f : α → Effect W ε β} (hf : ∀ a, Leaves v (f a)) :
    Leaves v (mapM f xs) := by
  induction xs with
  | nil => exact leaves_pure []
  | cons x xs ih => exact leaves_bind (hf x) fun _ => leaves_bind ih fun _ => leaves_pure _

theorem leaves_forM_ {xs : List α} {f : α → Effect W ε Unit} (hf : ∀ a, Leaves v (f a)) :
    Leaves v (forM_ xs f) :=
  leaves_bind (leaves_mapM hf) fun _ => leaves_pure ()

/-! ## What an action does not look at -/

/-- The outcome with its world changed. -/
def mapWorld (f : W → W) : Outcome W ε α → Outcome W ε α
  | .returned a w => .returned a (f w)
  | .raised e w => .raised e (f w)
  | .blocked w => .blocked (f w)

/-- In a world changed by `f` the action does the same, and the change is still there after it. -/
def Blind (f : W → W) (x : Effect W ε α) : Prop := ∀ w, x (f w) = mapWorld f (x w)

section Blind

variable {f : W → W}

theorem blind_pure (a : α) : Blind f (pure a : Effect W ε α) := fun _ => rfl

theorem blind_bind {x : Effect W ε α} {k : α → Effect W ε β} (hx : Blind f x) (hk : ∀ a, Blind f (k a)) :
    Blind f (x >>= k) := by
  intro w
  rw [bind_run, bind_run, hx w]
  cases x w with
  | returned a w' => exact hk a w'
  | raised e w' => rfl
  | blocked w' => rfl

theorem blind_handle {h : ε → Effect W ε α} {x : Effect W ε α} (hh : ∀ e, Blind f (h e))
    (hx : Blind f x) : Blind f (handle h x) := by
  intro w
  unfold Effect.handle
  rw [hx w]
  cases x w with
  | returned a w' => rfl
  | raised e w' => exact hh e w'
  | blocked w' => rfl

theorem blind_mapM {xs : List α} {k : α → Effect W ε β} (hk : ∀ a, Blind f (k a)) :
    Blind f (mapM k xs) := by
  induction xs with
  | nil => exact blind_pure []
  | cons x xs ih => exact blind_bind (hk x) fun _ => blind_bind ih fun _ => blind_pure _

theorem blind_forM_ {xs : List α} {k : α → Effect W ε Unit} (hk : ∀ a, Blind f (k a)) :
    Blind f (forM_ xs k) :=
  blind_bind (blind_mapM hk) fun _ => blind_pure ()

end Blind

/-! ## Whether an action returns -/

/-- From every world the action returns a value with `P`. -/
def Yields (x : Effect W ε α) (P : α → Prop) : Prop := ∀ w, ∃ a w', x w = .returned a w' ∧ P a

/-- From every world the action raises an exception. -/
def Raises (x : Effect W ε α) : Prop := ∀ w, ∃ e w', x w = .raised e w'

/-- Whether the action returns or raises does not depend on the world. -/
def Uniform (x : Effect W ε α) : Prop := (Yields x fun _ => True) ∨ Raises x

variable {P : α → Prop} {Q : β → Prop}

theorem yields_pure {a : α} (h : P a) : Yields (pure a : Effect W ε α) P := fun w => ⟨a, w, rfl, h⟩

theorem Yields.mono {P' : α → Prop} {x : Effect W ε α} (hx : Yields x P) (h : ∀ a, P a → P' a) :
    Yields x P' := by
  intro w
  obtain ⟨a, w', hr, ha⟩ := hx w
  exact ⟨a, w', hr, h a ha⟩

theorem Yields.bind {x : Effect W ε α} {f : α → Effect W ε β} (hx : Yields x P)
    (hf : ∀ a, P a → Yields (f a) Q) : Yields (x >>= f) Q := by
  intro w
  obtain ⟨a, w', hr, ha⟩ := hx w
  rw [bind_run, hr]
  exact hf a ha w'

theorem Raises.bind {x : Effect W ε α} {f : α → Effect W ε β} (hx : Raises x) :
    Raises (x >>= f) := by
  intro w
  obtain ⟨e, w', hr⟩ := hx w
  rw [bind_run, hr]
  exact ⟨e, w', rfl⟩

theorem Yields.bind_raises {x : Effect W ε α} {f : α → Effect W ε β} (hx : Yields x P)
    (hf : ∀ a, P a → Raises (f a)) : Raises (x >>= f) := by
  intro w
  obtain ⟨a, w', hr, ha⟩ := hx w
  rw [bind_run, hr]
  exact hf a ha w'

theorem Yields.not_raises {x : Effect W ε α} (hx : Yields x P) (hr : Raises x) (w : W) : False := by
  obtain ⟨a, w₁, ha, _⟩ := hx w
  obtain ⟨e, w₂, he⟩ := hr w
  rw [ha] at he
  cases he

theorem yields_mapM {xs : List α} {f : α → Effect W ε β} {R : α → β → Prop}
    (hf : ∀ x ∈ xs, Yields (f x) (R x)) : Yields (mapM f xs) (List.Forall₂ R xs) := by
  induction xs with
  | nil => exact yields_pure List.Forall₂.nil
  | cons x xs ih =>
    refine (hf x List.mem_cons_self).bind fun y hy => ?_
    refine (ih fun z hz => hf z (List.mem_cons_of_mem x hz)).bind fun ys hys => ?_
    exact yields_pure (List.Forall₂.cons hy hys)

/-- An action for every element raises if one of them does: the first that does not return. -/
theorem raises_mapM {xs : List α} {f : α → Effect W ε β} (hf : ∀ x ∈ xs, Uniform (f x))
    (h : ∃ x ∈ xs, Raises (f x)) : Raises (mapM f xs) := by
  induction xs with
  | nil =>
    obtain ⟨x, hx, _⟩ := h
    cases hx
  | cons x xs ih =>
    rcases hf x List.mem_cons_self with hx | hx
    · obtain ⟨y, hy, hraise⟩ := h
      rcases List.mem_cons.mp hy with rfl | hy
      · exact fun w => (hx.not_raises hraise w).elim
      · have hxs : Raises (mapM f xs) :=
          ih (fun z hz => hf z (List.mem_cons_of_mem x hz)) ⟨y, hy, hraise⟩
        exact hx.bind_raises fun _ _ => hxs.bind
    · exact hx.bind

theorem yields_forM_ {xs : List α} {f : α → Effect W ε Unit}
    (hf : ∀ x ∈ xs, Yields (f x) fun _ => True) : Yields (forM_ xs f) fun _ => True :=
  (yields_mapM hf).bind fun _ _ => yields_pure trivial

theorem raises_forM_ {xs : List α} {f : α → Effect W ε Unit} (hf : ∀ x ∈ xs, Uniform (f x))
    (h : ∃ x ∈ xs, Raises (f x)) : Raises (forM_ xs f) :=
  (raises_mapM hf h).bind

theorem uniform_forM_ {xs : List α} {f : α → Effect W ε Unit} (hf : ∀ x ∈ xs, Uniform (f x)) :
    Uniform (forM_ xs f) := by
  by_cases h : ∃ x ∈ xs, Raises (f x)
  · exact Or.inr (raises_forM_ hf h)
  · exact Or.inl (yields_forM_ fun x hx => (hf x hx).resolve_right fun hr => h ⟨x, hx, hr⟩)

end Effect

/-! ## Variables -/

/-- A place of the world that holds a value or is empty. -/
structure MVar (W β : Type) where
  get : W → Option β
  set : Option β → W → W
  get_set : ∀ b w, get (set b w) = b

namespace MVar

open Effect

variable {W ε α β γ : Type}

/-- Empties the variable; waits while it is empty. -/
def takeMVar (m : MVar W β) : Effect W ε β := fun w =>
  match m.get w with
  | some b => .returned b (m.set none w)
  | none => .blocked w

/-- Fills the variable; waits while it is full. -/
def putMVar (m : MVar W β) (b : β) : Effect W ε Unit := fun w =>
  match m.get w with
  | none => .returned () (m.set (some b) w)
  | some _ => .blocked w

/-- Reads the variable; waits while it is empty. -/
def readMVar (m : MVar W β) : Effect W ε β := fun w =>
  match m.get w with
  | some b => .returned b w
  | none => .blocked w

/-- Takes the value of the variable and puts another one in its place. -/
def swapMVar (m : MVar W β) (b : β) : Effect W ε β := do
  let old ← takeMVar m
  putMVar m b
  return old

/-- Takes the variable and puts back what `f` makes of it, or the old value if `f` raises. -/
def modifyMVar_ (m : MVar W β) (f : β → Effect W ε β) : Effect W ε Unit := do
  let b ← takeMVar m
  let b' ← handle (fun e => do putMVar m b; throw e) (f b)
  putMVar m b'

/-- A section that takes the variable and puts back what its body returns. Where the body raises,
nothing is put back. -/
def withTaken (m : MVar W β) (body : β → Effect W ε β) : Effect W ε Unit := do
  let b ← takeMVar m
  let b' ← body b
  putMVar m b'

/-- What is done to the variable is not seen by `v`. -/
def Apart (m : MVar W β) (v : W → γ) : Prop := ∀ b w, v (m.set b w) = v w

variable {m : MVar W β} {v : W → γ} {w : W} {b b' : β}

theorem takeMVar_full (h : m.get w = some b) :
    takeMVar m w = (.returned b (m.set none w) : Outcome W ε β) := by rw [takeMVar, h]

theorem takeMVar_empty (h : m.get w = none) : takeMVar m w = (.blocked w : Outcome W ε β) := by
  rw [takeMVar, h]

theorem putMVar_empty (h : m.get w = none) :
    putMVar m b w = (.returned () (m.set (some b) w) : Outcome W ε Unit) := by rw [putMVar, h]

theorem readMVar_full (h : m.get w = some b) :
    readMVar m w = (.returned b w : Outcome W ε β) := by rw [readMVar, h]

theorem leaves_readMVar : Leaves v (readMVar m : Effect W ε β) := by
  intro w
  unfold readMVar
  cases m.get w <;> rfl

theorem leaves_takeMVar (hm : Apart m v) : Leaves v (takeMVar m : Effect W ε β) := by
  intro w
  unfold takeMVar
  cases m.get w with
  | none => rfl
  | some b => exact hm none w

theorem leaves_putMVar (hm : Apart m v) : Leaves v (putMVar m b : Effect W ε Unit) := by
  intro w
  unfold putMVar
  cases m.get w with
  | none => exact hm (some b) w
  | some b => rfl

theorem leaves_modifyMVar_ (hm : Apart m v) {f : β → Effect W ε β} (hf : ∀ b, Leaves v (f b)) :
    Leaves v (modifyMVar_ m f) :=
  leaves_bind (leaves_takeMVar hm) fun b =>
    leaves_bind
      (leaves_handle (fun _ => leaves_bind (leaves_putMVar hm) fun _ => leaves_throw _) (hf b))
      fun _ => leaves_putMVar hm

/-- `modifyMVar_` with a function that does nothing else. -/
theorem modifyMVar_pure (f : β → β) (h : m.get w = some b) :
    ∃ w', modifyMVar_ m (fun x => pure (f x)) w = (.returned () w' : Outcome W ε Unit) ∧
      m.get w' = some (f b) := by
  refine ⟨m.set (some (f b)) (m.set none w), ?_, m.get_set _ _⟩
  rw [modifyMVar_, bind_run, takeMVar_full h]
  exact putMVar_empty (m.get_set none w)

/-! ## Sections that take a variable -/

section WithTaken

variable {body : β → Effect W ε β} {w' : W}

theorem withTaken_run (h : m.get w = some b) :
    withTaken m body w = andThen (body b (m.set none w)) fun b' => putMVar m b' := by
  rw [withTaken, bind_run, takeMVar_full h]
  rfl

/-- While the body runs, and after it, the variable is empty. -/
theorem empty_after_body (hbody : ∀ b, Leaves m.get (body b)) (b : β) (w : W) :
    m.get (body b (m.set none w)).world = none := by
  rw [hbody b, m.get_set]

theorem withTaken_returned (hbody : ∀ b, Leaves m.get (body b)) (h : m.get w = some b)
    (hr : body b (m.set none w) = .returned b' w') :
    withTaken m body w = .returned () (m.set (some b') w') := by
  have hempty := empty_after_body hbody b w
  rw [hr] at hempty
  rw [withTaken_run h, hr]
  exact putMVar_empty hempty

/-- The body raises: the variable stays empty. -/
theorem withTaken_raised {e : ε} (hbody : ∀ b, Leaves m.get (body b)) (h : m.get w = some b)
    (hr : body b (m.set none w) = .raised e w') :
    withTaken m body w = .raised e w' ∧ m.get w' = none := by
  have hempty := empty_after_body hbody b w
  rw [hr] at hempty
  exact ⟨by rw [withTaken_run h, hr]; rfl, hempty⟩

end WithTaken

end MVar
