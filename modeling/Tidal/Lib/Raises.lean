import Mathlib

/-!
# Computations that may raise an exception

A computation is described exactly, by the condition under which it raises and by what its value is like
otherwise. The rules give the condition of a composed computation from those of its parts.
-/

/-- `r` raises an exception if and only if `A` holds, and otherwise has a value that satisfies `Q`. -/
structure Raises {ε α : Type} (A : Prop) (r : Except ε α) (Q : α → Prop) : Prop where
  raised : A → ∃ e, r = .error e
  returned : ¬A → ∃ v, r = .ok v ∧ Q v

namespace Raises

variable {ε α β γ δ : Type} {A B : Prop} {r : Except ε α} {Q Q' : α → Prop}

theorem of_ok {v : α} (h : Q v) : Raises False (.ok v : Except ε α) Q :=
  ⟨False.elim, fun _ => ⟨v, rfl, h⟩⟩

theorem of_error (e : ε) : Raises True (.error e : Except ε α) Q :=
  ⟨fun _ => ⟨e, rfl⟩, fun h => absurd trivial h⟩

/-- The condition is exact. -/
theorem returns_iff (h : Raises A r Q) : (∃ v, r = .ok v) ↔ ¬A := by
  refine ⟨fun ⟨v, hv⟩ hA => ?_, fun hA => ?_⟩
  · obtain ⟨e, he⟩ := h.raised hA
    rw [hv] at he
    cases he
  · obtain ⟨v, hv, _⟩ := h.returned hA
    exact ⟨v, hv⟩

theorem congr (h : Raises A r Q) (hA : A ↔ B) : Raises B r Q :=
  ⟨fun hB => h.raised (hA.mpr hB), fun hB => h.returned fun h' => hB (hA.mp h')⟩

theorem mono (h : Raises A r Q) (hQ : ∀ v, Q v → Q' v) : Raises A r Q' :=
  ⟨h.raised, fun hA => by
    obtain ⟨v, hv, hQv⟩ := h.returned hA
    exact ⟨v, hv, hQ v hQv⟩⟩

/-- What comes next is evaluated only if the first computation returns. -/
theorem bind {f : α → Except ε β} {Q' : β → Prop} (h : Raises A r Q)
    (hf : ∀ v, Q v → Raises B (f v) Q') : Raises (A ∨ B) (r >>= f) Q' := by
  by_cases hA : A
  · obtain ⟨e, rfl⟩ := h.raised hA
    exact (of_error e).congr (iff_of_true trivial (.inl hA))
  · obtain ⟨v, rfl, hQ⟩ := h.returned hA
    exact (hf v hQ).congr (by rw [or_iff_right hA])

theorem map {f : α → β} {Q' : β → Prop} (h : Raises A r Q) (hf : ∀ v, Q v → Q' (f v)) :
    Raises A (do return f (← r)) Q' :=
  (h.bind fun v hv => of_ok (hf v hv)).congr (by rw [or_false])

/-! ## Lists -/

variable {f : α → Except ε β} {A : γ → Prop} {R : β → δ → Prop} {g : γ → δ}

/-- A list is computed element by element, and related to a list that is computed without exceptions. -/
theorem mapM {S : α → γ → Prop} {xs : List α} {ys : List γ} (hxs : List.Forall₂ S xs ys)
    (hf : ∀ x y, S x y → Raises (A y) (f x) fun v => R v (g y)) :
    Raises (∃ y ∈ ys, A y) (xs.mapM f) fun vs => List.Forall₂ R vs (ys.map g) := by
  induction hxs with
  | nil => exact (of_ok .nil).congr (by simp)
  | @cons x y xs ys hxy _ ih =>
    rw [List.mapM_cons]
    refine ((hf x y hxy).bind fun v hv => ih.map fun vs hvs => ?_).congr (by simp)
    exact .cons hv hvs

end Raises

/-- Computes a list for every element, and joins the lists. -/
def concatMapM {ε α β : Type} (f : α → Except ε (List β)) (xs : List α) : Except ε (List β) := do
  return (← xs.mapM f).flatten

theorem Raises.concatMapM {ε α β γ δ : Type} {f : α → Except ε (List β)} {A : γ → Prop}
    {R : β → δ → Prop} {g : γ → List δ} {S : α → γ → Prop} {xs : List α} {ys : List γ}
    (hxs : List.Forall₂ S xs ys)
    (hf : ∀ x y, S x y → Raises (A y) (f x) fun vs => List.Forall₂ R vs (g y)) :
    Raises (∃ y ∈ ys, A y) (concatMapM f xs) fun vs => List.Forall₂ R vs (ys.flatMap g) :=
  (Raises.mapM hxs hf).map fun _ h => List.rel_flatten h

/-- The lists are computed without an exception, and so is what they are joined to. -/
theorem concatMapM_ok {ε α β : Type} {f : α → Except ε (List β)} {P : β → Prop} {xs : List α}
    (h : ∀ x ∈ xs, ∃ ys, f x = .ok ys ∧ ∀ y ∈ ys, P y) :
    ∃ zs, concatMapM f xs = .ok zs ∧ ∀ z ∈ zs, P z := by
  induction xs with
  | nil => exact ⟨[], rfl, fun z hz => absurd hz List.not_mem_nil⟩
  | cons x xs ih =>
    obtain ⟨ys, hys, hP⟩ := h x (List.mem_cons_self ..)
    obtain ⟨zs, hzs, hQ⟩ := ih fun x' hx' => h x' (List.mem_cons_of_mem _ hx')
    obtain ⟨yss, hyss, rfl⟩ : ∃ yss, xs.mapM f = .ok yss ∧ zs = yss.flatten := by
      unfold concatMapM at hzs
      cases hm : xs.mapM f with
      | error e => rw [hm] at hzs; cases hzs
      | ok yss => rw [hm] at hzs; cases hzs; exact ⟨yss, rfl, rfl⟩
    refine ⟨ys ++ yss.flatten, ?_, fun z hz => (List.mem_append.mp hz).elim (hP z) (hQ z)⟩
    unfold concatMapM
    rw [List.mapM_cons, hys, hyss]
    rfl
