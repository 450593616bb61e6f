import Mathlib

/-!
# Spans as sets, and partial intersections

A span from `s` to `e` is read as the half-open interval `[s, e)`, or as the single point `s` if it has no
width. An operation that computes intersections of such readings, and fails where they are empty, inherits
the laws of the intersection of sets.
-/

namespace Spans

/-! ## Points -/

section Points

variable {T : Type*} [LinearOrder T] {s e s' e' t : T}

/-- The points of a span that does not end before it starts. -/
def points (s e : T) : Set T := if s < e then Set.Ico s e else {s}

theorem points_of_lt (h : s < e) : points s e = Set.Ico s e := if_pos h

@[simp] theorem points_self (s : T) : points s s = {s} := if_neg (lt_irrefl s)

theorem points_nonempty (s e : T) : (points s e).Nonempty := by
  by_cases h : s < e
  · rw [points_of_lt h]
    exact Set.nonempty_Ico.mpr h
  · rw [points, if_neg h]
    exact Set.singleton_nonempty s

/-- In a dense order no interval is a single point, so that the ends of a span can be told from its
points. -/
theorem points_injective [DenselyOrdered T] (h : s ≤ e) (h' : s' ≤ e')
    (heq : points s e = points s' e') : s = s' ∧ e = e' := by
  have hsingle : ∀ {a b c : T}, a < b → Set.Ico a b ≠ {c} := fun hab hc =>
    (Set.Ico_infinite hab) (hc ▸ Set.finite_singleton _)
  rcases h.lt_or_eq with hlt | rfl <;> rcases h'.lt_or_eq with hlt' | rfl
  · rw [points_of_lt hlt, points_of_lt hlt'] at heq
    exact (Set.Ico_eq_Ico_iff (.inl hlt)).mp heq
  · rw [points_of_lt hlt, points_self] at heq
    exact absurd heq (hsingle hlt)
  · rw [points_of_lt hlt', points_self] at heq
    exact absurd heq.symm (hsingle hlt')
  · rw [points_self, points_self, Set.singleton_eq_singleton_iff] at heq
    exact ⟨heq, heq⟩

end Points

/-! ## Partial intersections -/

section Intersects

variable {α T : Type*} {V : α → Prop} {read : α → Set T} {f : α → α → Option α} {a b c : α}

/-- On the elements that satisfy `V`, which are read as different sets that are not empty, `f` computes the
intersection of the sets. -/
structure Intersects (V : α → Prop) (read : α → Set T) (f : α → α → Option α) : Prop where
  nonempty : ∀ a, V a → (read a).Nonempty
  injective : ∀ a b, V a → V b → read a = read b → a = b
  valid : ∀ a b c, V a → V b → f a b = some c → V c
  inter : ∀ a b, V a → V b → (f a b).elim ∅ read = read a ∩ read b

namespace Intersects

variable (h : Intersects V read f)

include h

theorem read_some (ha : V a) (hb : V b) (hc : f a b = some c) : read c = read a ∩ read b := by
  rw [← h.inter a b ha hb, hc, Option.elim_some]

theorem eq_none_iff (ha : V a) (hb : V b) : f a b = none ↔ Disjoint (read a) (read b) := by
  rw [Set.disjoint_iff_inter_eq_empty, ← h.inter a b ha hb]
  cases hab : f a b with
  | none => exact iff_of_true rfl rfl
  | some c => exact iff_of_false (Option.some_ne_none c) (h.nonempty c (h.valid a b c ha hb hab)).ne_empty

theorem eq_some_iff (ha : V a) (hb : V b) : f a b = some c ↔ V c ∧ read c = read a ∩ read b := by
  constructor
  · intro hc
    exact ⟨h.valid a b c ha hb hc, h.read_some ha hb hc⟩
  · rintro ⟨hV, hread⟩
    cases hab : f a b with
    | none =>
      have hdisj := (h.eq_none_iff ha hb).mp hab
      rw [Set.disjoint_iff_inter_eq_empty, ← hread] at hdisj
      exact absurd hdisj (h.nonempty c hV).ne_empty
    | some d =>
      have hd := (h.read_some ha hb hab).trans hread.symm
      rw [h.injective d c (h.valid a b d ha hb hab) hV hd]

/-- Results that are read as the same set are equal, failures included. -/
theorem option_injective {x y : Option α} (hx : ∀ a ∈ x, V a) (hy : ∀ a ∈ y, V a)
    (heq : x.elim ∅ read = y.elim ∅ read) : x = y := by
  cases x with
  | none =>
    cases y with
    | none => rfl
    | some b => exact absurd heq.symm (h.nonempty b (hy b rfl)).ne_empty
  | some a =>
    cases y with
    | none => exact absurd heq (h.nonempty a (hx a rfl)).ne_empty
    | some b => rw [h.injective a b (hx a rfl) (hy b rfl) heq]

theorem comm (ha : V a) (hb : V b) : f a b = f b a := by
  refine h.option_injective (h.valid a b · ha hb) (h.valid b a · hb ha) ?_
  rw [h.inter a b ha hb, h.inter b a hb ha, Set.inter_comm]

theorem self (ha : V a) : f a a = some a := by
  rw [h.eq_some_iff ha ha, Set.inter_self]
  exact ⟨ha, rfl⟩

theorem read_bind_left (ha : V a) (hb : V b) (hc : V c) :
    ((f a b).bind fun d => f d c).elim ∅ read = read a ∩ read b ∩ read c := by
  rw [← h.inter a b ha hb]
  cases hab : f a b with
  | none => exact (Set.empty_inter _).symm
  | some d => exact h.inter d c (h.valid a b d ha hb hab) hc

theorem read_bind_right (ha : V a) (hb : V b) (hc : V c) :
    ((f b c).bind (f a)).elim ∅ read = read a ∩ (read b ∩ read c) := by
  rw [← h.inter b c hb hc]
  cases hbc : f b c with
  | none => exact (Set.inter_empty _).symm
  | some d => exact h.inter a d ha (h.valid b c d hb hc hbc)

/-- Chained, the operation is associative, failures included. -/
theorem assoc (ha : V a) (hb : V b) (hc : V c) :
    ((f a b).bind fun d => f d c) = (f b c).bind (f a) := by
  refine h.option_injective ?_ ?_ ?_
  · intro e he
    obtain ⟨d, hd, he⟩ := Option.bind_eq_some_iff.mp he
    exact h.valid d c e (h.valid a b d ha hb hd) hc he
  · intro e he
    obtain ⟨d, hd, he⟩ := Option.bind_eq_some_iff.mp he
    exact h.valid a d e ha (h.valid b c d hb hc hd) he
  · rw [h.read_bind_left ha hb hc, h.read_bind_right ha hb hc, Set.inter_assoc]

end Intersects

end Intersects

end Spans
