import Tidal.Lib.Effect

/-!
# Threads that share variables

A program is a sequence of accesses to shared variables and of actions that touch none of them. Threads
run their programs side by side: each step is one access or one action of one thread, in any order, and
between the steps the rest of the world may change. Run alone, a program is an action of the world.
-/

/-- The shared variables of a world, by name; what is done to one is not seen in another. -/
structure Vars (L W : Type) where
  Val : L → Type
  var : (l : L) → MVar W (Val l)
  apart : ∀ l l', l ≠ l' → MVar.Apart (var l) (var l').get

namespace Concurrent

open Effect MVar

variable {L W ε α β : Type}

/-- A program: it returns, raises an exception, takes, puts or reads a variable, or runs an action that is
not about the variables. -/
inductive Prog (V : Vars L W) (ε α : Type) : Type 1 where
  | ret (a : α)
  | fail (e : ε)
  | take (l : L) (k : V.Val l → Prog V ε α)
  | put (l : L) (b : V.Val l) (k : Prog V ε α)
  | read (l : L) (k : V.Val l → Prog V ε α)
  | act {γ : Type} (x : Effect W ε γ) (k : γ → Prog V ε α)

namespace Prog

variable {V : Vars L W}

/-- One program after the other. -/
def bind : Prog V ε α → (α → Prog V ε β) → Prog V ε β
  | ret a, f => f a
  | fail e, _ => fail e
  | take l k, f => take l fun b => (k b).bind f
  | put l b k, f => put l b (k.bind f)
  | read l k, f => read l fun b => (k b).bind f
  | act x k, f => act x fun c => (k c).bind f

instance : Monad (Prog V ε) where
  pure := ret
  bind := bind

theorem bind_eq (p : Prog V ε α) (f : α → Prog V ε β) : p >>= f = p.bind f := rfl

/-! The accesses as programs of their own. -/

def takeVar (l : L) : Prog V ε (V.Val l) := take l ret

def putVar (l : L) (b : V.Val l) : Prog V ε Unit := put l b (ret ())

def readVar (l : L) : Prog V ε (V.Val l) := read l ret

def lift (x : Effect W ε α) : Prog V ε α := act x ret

/-- `swapMVar`: the value is taken, and then the other one is put. -/
def swapVar (l : L) (b : V.Val l) : Prog V ε (V.Val l) := do
  let old ← takeVar l
  putVar l b
  return old

/-- Runs the action and tells how it ended. -/
def attempt (x : Effect W ε α) : Effect W ε (Except ε α) := fun w =>
  match x w with
  | .returned a w' => .returned (.ok a) w'
  | .raised e w' => .returned (.error e) w'
  | .blocked w' => .blocked w'

/-- What comes next after an action that may have raised an exception. -/
def next {δ : Sort*} (h : ε → δ) (k : α → δ) : Except ε α → δ
  | .error e => h e
  | .ok a => k a

/-- The handler takes over where the program raises an exception. -/
def handle (h : ε → Prog V ε α) : Prog V ε α → Prog V ε α
  | ret a => ret a
  | fail e => h e
  | take l k => take l fun b => (k b).handle h
  | put l b k => put l b (k.handle h)
  | read l k => read l fun b => (k b).handle h
  | act x k => act (attempt x) (next h fun c => (k c).handle h)

/-! ## Running alone -/

/-- The program as an action of a world in which no other thread runs. -/
def run : Prog V ε α → Effect W ε α
  | ret a => pure a
  | fail e => throw e
  | take l k => do
    let b ← takeMVar (V.var l)
    (k b).run
  | put l b k => do
    putMVar (V.var l) b
    k.run
  | read l k => do
    let b ← readMVar (V.var l)
    (k b).run
  | act x k => do
    let c ← x
    (k c).run

theorem run_bind (p : Prog V ε α) (f : α → Prog V ε β) :
    (p >>= f).run = p.run >>= fun a => (f a).run := by
  rw [bind_eq]
  induction p with
  | ret a => rfl
  | fail e => rfl
  | take l k ih => simp only [bind, run, ih, bind_assoc]
  | put l b k ih => simp only [bind, run, ih, bind_assoc]
  | read l k ih => simp only [bind, run, ih, bind_assoc]
  | act x k ih => simp only [bind, run, ih, bind_assoc]

@[simp] theorem run_pure (a : α) : (pure a : Prog V ε α).run = pure a := rfl

@[simp] theorem run_fail (e : ε) : (fail e : Prog V ε α).run = throw e := rfl

@[simp] theorem run_takeVar (l : L) : (takeVar l : Prog V ε (V.Val l)).run = takeMVar (V.var l) :=
  bind_pure _

@[simp] theorem run_putVar (l : L) (b : V.Val l) :
    (putVar l b : Prog V ε Unit).run = putMVar (V.var l) b := bind_pure_unit

@[simp] theorem run_readVar (l : L) : (readVar l : Prog V ε (V.Val l)).run = readMVar (V.var l) :=
  bind_pure _

@[simp] theorem run_lift (x : Effect W ε α) : (lift x : Prog V ε α).run = x := bind_pure _

@[simp] theorem run_swapVar (l : L) (b : V.Val l) :
    (swapVar l b : Prog V ε (V.Val l)).run = swapMVar (V.var l) b := by
  simp only [swapVar, run_bind, run_takeVar, run_putVar, run_pure]
  rfl

/-- A handler stays in charge after an action that raises nothing. -/
theorem handle_bind {x : Effect W ε β} {f : β → Effect W ε α} {h : ε → Effect W ε α}
    (hx : ∀ w e w', x w ≠ .raised e w') :
    Effect.handle h (x >>= f) = x >>= fun b => Effect.handle h (f b) := by
  funext w
  rw [bind_run]
  unfold Effect.handle
  rw [bind_run]
  cases hw : x w with
  | returned b w' => rfl
  | raised e w' => exact absurd hw (hx w e w')
  | blocked w' => rfl

theorem handle_attempt {x : Effect W ε β} {f : β → Effect W ε α} {h : ε → Effect W ε α} :
    Effect.handle h (x >>= f) = attempt x >>= next h fun c => Effect.handle h (f c) := by
  funext w
  rw [bind_run]
  unfold Effect.handle attempt
  rw [bind_run]
  cases x w <;> rfl

theorem takeMVar_not_raised (m : MVar W β) (w : W) (e : ε) (w' : W) :
    takeMVar m w ≠ .raised e w' := by
  intro h
  unfold takeMVar at h
  split at h <;> cases h

theorem putMVar_not_raised (m : MVar W β) (b : β) (w : W) (e : ε) (w' : W) :
    putMVar m b w ≠ .raised e w' := by
  intro h
  unfold putMVar at h
  split at h <;> cases h

theorem readMVar_not_raised (m : MVar W β) (w : W) (e : ε) (w' : W) :
    readMVar m w ≠ .raised e w' := by
  intro h
  unfold readMVar at h
  split at h <;> cases h

theorem run_handle (h : ε → Prog V ε α) (p : Prog V ε α) :
    (p.handle h).run = Effect.handle (fun e => (h e).run) p.run := by
  induction p with
  | ret a => rfl
  | fail e => rfl
  | take l k ih =>
    simp only [handle, run, ih]
    exact (handle_bind (takeMVar_not_raised _)).symm
  | put l b k ih =>
    simp only [handle, run, ih]
    exact (handle_bind (putMVar_not_raised _ b)).symm
  | read l k ih =>
    simp only [handle, run, ih]
    exact (handle_bind (readMVar_not_raised _)).symm
  | act x k ih =>
    simp only [handle, run]
    rw [handle_attempt]
    congr 1
    funext r
    cases r with
    | error e => rfl
    | ok c => exact ih c

/-! ## One step -/

/-- One step of a program in a world. -/
inductive Step : W × Prog V ε α → W × Prog V ε α → Prop
  | take {w : W} {l : L} {b : V.Val l} {k : V.Val l → Prog V ε α} : (V.var l).get w = some b →
      Step (w, .take l k) ((V.var l).set none w, k b)
  | put {w : W} {l : L} {b : V.Val l} {k : Prog V ε α} : (V.var l).get w = none →
      Step (w, .put l b k) ((V.var l).set (some b) w, k)
  | read {w : W} {l : L} {b : V.Val l} {k : V.Val l → Prog V ε α} : (V.var l).get w = some b →
      Step (w, .read l k) (w, k b)
  | act {w w' : W} {γ : Type} {x : Effect W ε γ} {c : γ} {k : γ → Prog V ε α} :
      x w = .returned c w' → Step (w, .act x k) (w', k c)
  | raise {w w' : W} {γ : Type} {x : Effect W ε γ} {e : ε} {k : γ → Prog V ε α} :
      x w = .raised e w' → Step (w, .act x k) (w', .fail e)

/-- What a step did: an access with its value, or an action with the worlds before and after it. -/
inductive Label (V : Vars L W) where
  | took (l : L) (b : V.Val l)
  | put (l : L) (b : V.Val l)
  | read (l : L) (b : V.Val l)
  | acted (w w' : W)

/-- One step, and what it did. -/
inductive Does : Label V → W × Prog V ε α → W × Prog V ε α → Prop
  | take {w : W} {l : L} {b : V.Val l} {k : V.Val l → Prog V ε α} : (V.var l).get w = some b →
      Does (.took l b) (w, .take l k) ((V.var l).set none w, k b)
  | put {w : W} {l : L} {b : V.Val l} {k : Prog V ε α} : (V.var l).get w = none →
      Does (.put l b) (w, .put l b k) ((V.var l).set (some b) w, k)
  | read {w : W} {l : L} {b : V.Val l} {k : V.Val l → Prog V ε α} : (V.var l).get w = some b →
      Does (.read l b) (w, .read l k) (w, k b)
  | act {w w' : W} {γ : Type} {x : Effect W ε γ} {c : γ} {k : γ → Prog V ε α} :
      x w = .returned c w' → Does (.acted w w') (w, .act x k) (w', k c)
  | raise {w w' : W} {γ : Type} {x : Effect W ε γ} {e : ε} {k : γ → Prog V ε α} :
      x w = .raised e w' → Does (.acted w w') (w, .act x k) (w', .fail e)

theorem step_iff_does {x y : W × Prog V ε α} : Step x y ↔ ∃ a, Does a x y := by
  constructor
  · intro h
    cases h with
    | take hb => exact ⟨_, .take hb⟩
    | put hb => exact ⟨_, .put hb⟩
    | read hb => exact ⟨_, .read hb⟩
    | act hx => exact ⟨_, .act hx⟩
    | raise hx => exact ⟨_, .raise hx⟩
  · rintro ⟨a, h⟩
    cases h with
    | take hb => exact .take hb
    | put hb => exact .put hb
    | read hb => exact .read hb
    | act hx => exact .act hx
    | raise hx => exact .raise hx

/-- The next access of the program is to this variable, to take it or to read it. -/
def Awaits (l : L) (p : Prog V ε α) : Prop := ∃ k, p = take l k ∨ p = read l k

/-- The program has come to its end. -/
def Ended : Prog V ε α → Prop
  | ret _ | fail _ => True
  | _ => False

/-- A step of a program that runs alone is part of what it does as an action. -/
theorem run_of_step {p p' : Prog V ε α} {w w' : W} (h : Step (w, p) (w', p')) :
    p.run w = p'.run w' := by
  cases h with
  | take hb => rw [run, bind_run, takeMVar_full hb]; rfl
  | put hb => rw [run, bind_run, putMVar_empty hb]; rfl
  | read hb => rw [run, bind_run, readMVar_full hb]; rfl
  | act hx => rw [run, bind_run, hx]; rfl
  | raise hx => simp only [run, bind_run, hx]; rfl

/-- As an action that returns, a program does what its steps do. -/
theorem run_returned_iff {p : Prog V ε α} {w w' : W} {a : α} :
    p.run w = .returned a w' ↔ Relation.ReflTransGen Step (w, p) (w', ret a) := by
  constructor
  · intro h
    induction p generalizing w with
    | ret b => cases h; exact .refl
    | fail e => cases h
    | take l k ih =>
      rw [run, bind_run] at h
      cases hb : (V.var l).get w with
      | none => rw [takeMVar_empty hb] at h; cases h
      | some b => rw [takeMVar_full hb] at h; exact .head (.take hb) (ih b h)
    | put l b k ih =>
      rw [run, bind_run] at h
      cases hb : (V.var l).get w with
      | none => rw [putMVar_empty hb] at h; exact .head (.put hb) (ih h)
      | some b' => rw [putMVar, hb] at h; cases h
    | read l k ih =>
      rw [run, bind_run] at h
      cases hb : (V.var l).get w with
      | none => rw [readMVar, hb] at h; cases h
      | some b => rw [readMVar_full hb] at h; exact .head (.read hb) (ih b h)
    | act x k ih =>
      rw [run, bind_run] at h
      cases hx : x w with
      | returned c w₁ => rw [hx] at h; exact .head (.act hx) (ih c h)
      | raised e w₁ => rw [hx] at h; cases h
      | blocked w₁ => rw [hx] at h; cases h
  · intro h
    have hall : ∀ c : W × Prog V ε α, Relation.ReflTransGen Step c (w', ret a) →
        c.2.run c.1 = .returned a w' := by
      intro c hc
      induction hc using Relation.ReflTransGen.head_induction_on with
      | refl => rfl
      | head hstep _ ih => exact (run_of_step hstep).trans ih
    exact hall _ h

/-- What is left of a program after a step. -/
inductive Rest : Prog V ε α → Prog V ε α → Prop
  | take {l : L} (b : V.Val l) (k : V.Val l → Prog V ε α) : Rest (k b) (.take l k)
  | put {l : L} (b : V.Val l) (k : Prog V ε α) : Rest k (.put l b k)
  | read {l : L} (b : V.Val l) (k : V.Val l → Prog V ε α) : Rest (k b) (.read l k)
  | act {γ : Type} (x : Effect W ε γ) (c : γ) (k : γ → Prog V ε α) : Rest (k c) (.act x k)
  | raise {γ : Type} (x : Effect W ε γ) (e : ε) (k : γ → Prog V ε α) : Rest (.fail e) (.act x k)

theorem rest_of_step {p p' : Prog V ε α} {w w' : W} (h : Step (w, p) (w', p')) : Rest p' p := by
  cases h with
  | take hb => exact .take _ _
  | put hb => exact .put _ _
  | read hb => exact .read _ _
  | act hx => exact .act _ _ _
  | raise hx => exact .raise _ _ _

theorem acc_fail (e : ε) : Acc Rest (fail e : Prog V ε α) := ⟨_, fun _ h => by cases h⟩

/-- Every program is through after finitely many steps. -/
theorem wellFounded_rest : WellFounded (Rest : Prog V ε α → Prog V ε α → Prop) := by
  refine ⟨fun p => ?_⟩
  induction p with
  | ret a => exact ⟨_, fun _ h => by cases h⟩
  | fail e => exact acc_fail e
  | take l k ih => exact ⟨_, fun _ h => by cases h with | take b => exact ih b⟩
  | put l b k ih => exact ⟨_, fun _ h => by cases h with | put => exact ih⟩
  | read l k ih => exact ⟨_, fun _ h => by cases h with | read b => exact ih b⟩
  | act x k ih => exact ⟨_, fun _ h => by
      cases h with
      | act _ c => exact ih c
      | raise _ e => exact acc_fail e⟩

end Prog

/-! ## Threads -/

/-- Threads, what is left of the program of each, and their world. -/
structure Pool (V : Vars L W) (ε ι : Type) where
  world : W
  thread : ι → Prog V ε Unit

namespace Pool

variable {V : Vars L W} {ι : Type} [DecidableEq ι] {c c' : Pool V ε ι}

/-- One of the threads makes a step. -/
inductive ThreadStep (i : ι) : Pool V ε ι → Pool V ε ι → Prop
  | mk {c : Pool V ε ι} {w' : W} {p' : Prog V ε Unit} : Prog.Step (c.world, c.thread i) (w', p') →
      ThreadStep i c ⟨w', Function.update c.thread i p'⟩

/-- A thread makes a step, or the world changes in what is not a variable. -/
inductive Step : Pool V ε ι → Pool V ε ι → Prop
  | thread {c c' : Pool V ε ι} (i : ι) : ThreadStep i c c' → Step c c'
  | outside {c : Pool V ε ι} (w' : W) : (∀ l, (V.var l).get w' = (V.var l).get c.world) →
      Step c ⟨w', c.thread⟩

/-- The thread can make a step now. -/
def CanStep (c : Pool V ε ι) (i : ι) : Prop := ∃ c', ThreadStep i c c'

/-- What the steps lead to, in any order. -/
def Reachable : Pool V ε ι → Pool V ε ι → Prop := Relation.ReflTransGen Step

/-- What the steps lead to, with what each of them did and the thread whose step it was. -/
inductive Path (c : Pool V ε ι) : List (ι × Prog.Label V) → Pool V ε ι → Prop
  | start : Path c [] c
  | thread {T : List (ι × Prog.Label V)} {c' : Pool V ε ι} (i : ι) {a : Prog.Label V} {w' : W}
      {p' : Prog V ε Unit} : Path c T c' → Prog.Does a (c'.world, c'.thread i) (w', p') →
      Path c (T ++ [(i, a)]) ⟨w', Function.update c'.thread i p'⟩
  | outside {T : List (ι × Prog.Label V)} {c' : Pool V ε ι} (w' : W) : Path c T c' →
      (∀ l, (V.var l).get w' = (V.var l).get c'.world) → Path c T ⟨w', c'.thread⟩

theorem reachable_iff_path : Reachable c c' ↔ ∃ T, Path c T c' := by
  constructor
  · intro h
    induction h with
    | refl => exact ⟨[], .start⟩
    | tail _ hstep ih =>
      obtain ⟨T, hT⟩ := ih
      cases hstep with
      | thread i hi =>
        obtain ⟨hstep⟩ := hi
        obtain ⟨a, ha⟩ := Prog.step_iff_does.mp hstep
        exact ⟨_, hT.thread i ha⟩
      | outside w' hget => exact ⟨T, hT.outside w' hget⟩
  · rintro ⟨T, hT⟩
    induction hT with
    | start => exact .refl
    | thread i _ ha ih => exact ih.tail (.thread i ⟨Prog.step_iff_does.mpr ⟨_, ha⟩⟩)
    | outside w' _ hget ih => exact ih.tail (.outside w' hget)

/-- A run that never ends: one step after another, and a thread that can make a step is not kept waiting
for ever by the world outside alone. -/
structure Run (c : Pool V ε ι) (s : ℕ → Pool V ε ι) : Prop where
  start : s 0 = c
  step : ∀ n, Step (s n) (s (n + 1))
  busy : ∀ n i, CanStep (s n) i → ∃ m j, n ≤ m ∧ ThreadStep j (s m) (s (m + 1))

theorem Run.reachable {s : ℕ → Pool V ε ι} (h : Run c s) (n : ℕ) : Reachable c (s n) := by
  induction n with
  | zero => rw [h.start]; exact .refl
  | succ n ih => exact ih.tail (h.step n)

/-- At rest. -/
theorem run_rest (h : ∀ i, ¬ CanStep c i) : Run c fun _ => c where
  start := rfl
  step _ := .outside c.world fun _ => rfl
  busy _ i hi := absurd hi (h i)

/-- The run that begins with `c`. -/
def consRun (c : Pool V ε ι) (s : ℕ → Pool V ε ι) : ℕ → Pool V ε ι
  | 0 => c
  | n + 1 => s n

theorem Run.cons {s : ℕ → Pool V ε ι} {i : ι} (h : Run c' s) (hstep : ThreadStep i c c') :
    Run c (consRun c s) where
  start := rfl
  step n := by
    cases n with
    | zero =>
      change Step c (s 0)
      rw [h.start]
      exact .thread i hstep
    | succ n => exact h.step n
  busy n j hj := by
    cases n with
    | zero =>
      refine ⟨0, i, le_refl 0, ?_⟩
      change ThreadStep i c (s 0)
      rw [h.start]
      exact hstep
    | succ n =>
      obtain ⟨m, k, hnm, hk⟩ := h.busy n j hj
      exact ⟨m + 1, k, Nat.succ_le_succ hnm, hk⟩

section Finite

variable [Fintype ι]

/-- The programs that are left, without their order. -/
def programs (c : Pool V ε ι) : Multiset (Prog V ε Unit) := Finset.univ.val.map c.thread

/-- A step of a thread replaces its program by what is left of it. -/
theorem cutExpand_of_step {i : ι} (h : ThreadStep i c c') :
    Relation.CutExpand Prog.Rest c'.programs c.programs := by
  obtain ⟨hstep⟩ := h
  rename_i w' p'
  refine ⟨{p'}, c.thread i, ?_, ?_⟩
  · intro q hq
    rw [Multiset.mem_singleton.mp hq]
    exact Prog.rest_of_step hstep
  · have hsplit : (Finset.univ : Finset ι).val = i ::ₘ (Finset.univ.erase i).val := by
      rw [← Finset.insert_val_of_notMem (Finset.notMem_erase i _),
        Finset.insert_erase (Finset.mem_univ i)]
    have hothers : ((Finset.univ.erase i).val.map (Function.update c.thread i p')) =
        (Finset.univ.erase i).val.map c.thread := by
      refine Multiset.map_congr rfl fun j hj => ?_
      exact Function.update_of_ne (Finset.ne_of_mem_erase hj) _ _
    simp only [programs, hsplit, Multiset.map_cons, hothers, Function.update_self]
    simp only [← Multiset.singleton_add]
    ac_rfl

/-- In every run the threads come to rest. -/
theorem Run.settles {s : ℕ → Pool V ε ι} (h : Run c s) : ∃ n, ∀ i, ¬ CanStep (s n) i := by
  have hwf := (Prog.wellFounded_rest (V := V) (ε := ε) (α := Unit)).cutExpand
  obtain ⟨m, ⟨n, rfl⟩, hmin⟩ := hwf.has_min (Set.range fun n => (s n).programs) ⟨_, 0, rfl⟩
  have hmoves : ∀ k, (s (n + k)).programs = (s n).programs → ∀ i,
      ¬ ThreadStep i (s (n + k)) (s (n + k + 1)) := by
    intro k hk i hstep
    have hless := cutExpand_of_step hstep
    rw [hk] at hless
    exact hmin _ ⟨n + k + 1, rfl⟩ hless
  have hstays : ∀ k, (s (n + k)).programs = (s n).programs := by
    intro k
    induction k with
    | zero => rfl
    | succ k ih =>
      have hstep := h.step (n + k)
      generalize hc : s (n + k + 1) = c' at hstep
      cases hstep with
      | thread i hi => exact absurd (hc ▸ hi) (hmoves k ih i)
      | outside w' _ => exact ih
  refine ⟨n, fun i hi => ?_⟩
  obtain ⟨m, j, hnm, hstep⟩ := h.busy n i hi
  obtain ⟨k, rfl⟩ := Nat.exists_eq_add_of_le hnm
  exact hmoves k (hstays k) j hstep

end Finite

end Pool

end Concurrent
