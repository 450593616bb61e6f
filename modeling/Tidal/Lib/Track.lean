import Mathlib

/-!
# Tracks

A track is a list of steps along a line: spans `[s, e)` that are covered and jumps to some other place.
It goes forward if each span starts where the one before it ended, or where the last jump went, and ends
later. Between two jumps such a track covers a point at most once.
-/

namespace Track

variable {T : Type*}

inductive Step (T : Type*) where
  | jump (t : T)
  | span (s e : T)

/-- Where the steps lead from `c`. -/
def position (c : T) : List (Step T) → T
  | [] => c
  | .jump t :: l => position t l
  | .span _ e :: l => position e l

/-- The spans of a track, in order. -/
def spans : List (Step T) → List (T × T)
  | [] => []
  | .jump _ :: l => spans l
  | .span s e :: l => (s, e) :: spans l

/-- The steps only cover ground. -/
def NoJump (l : List (Step T)) : Prop := ∀ t, Step.jump t ∉ l

theorem NoJump.tail {x : Step T} {l : List (Step T)} (h : NoJump (x :: l)) : NoJump l := fun t ht =>
  h t (List.mem_cons_of_mem _ ht)

variable [LinearOrder T]

/-- From `c` on, every span starts where the track is and ends later. -/
def Forward (c : T) : List (Step T) → Prop
  | [] => True
  | .jump t :: l => Forward t l
  | .span s e :: l => s = c ∧ s < e ∧ Forward e l

theorem forward_append (c : T) (l l' : List (Step T)) :
    Forward c (l ++ l') ↔ Forward c l ∧ Forward (position c l) l' := by
  induction l generalizing c with
  | nil => exact ⟨fun h => ⟨trivial, h⟩, And.right⟩
  | cons x l ih =>
    cases x with
    | jump t => exact ih t
    | span s e =>
      rw [List.cons_append, Forward, ih e]
      exact ⟨fun ⟨h1, h2, h3, h4⟩ => ⟨⟨h1, h2, h3⟩, h4⟩, fun ⟨⟨h1, h2, h3⟩, h4⟩ => ⟨h1, h2, h3, h4⟩⟩

section NoJump

variable {c : T} {l : List (Step T)}

/-- Without jumps the spans lie between the ends of the track. -/
theorem Forward.bounds (h : Forward c l) (hl : NoJump l) :
    c ≤ position c l ∧ ∀ x ∈ spans l, c ≤ x.1 ∧ x.1 < x.2 ∧ x.2 ≤ position c l := by
  induction l generalizing c with
  | nil => exact ⟨le_rfl, fun x hx => (List.not_mem_nil hx).elim⟩
  | cons x l ih =>
    cases x with
    | jump t => exact (hl t (List.mem_cons_self ..)).elim
    | span s e =>
      obtain ⟨rfl, hlt, h⟩ := h
      obtain ⟨hle, hin⟩ := ih h hl.tail
      refine ⟨hlt.le.trans hle, fun x hx => ?_⟩
      rcases List.mem_cons.mp hx with rfl | hx
      · exact ⟨le_rfl, hlt, hle⟩
      · obtain ⟨h1, h2, h3⟩ := hin x hx
        exact ⟨hlt.le.trans h1, h2, h3⟩

theorem Forward.head (h : Forward c l) (hl : NoJump l) {x : T × T} (hx : (spans l).head? = some x) :
    x.1 = c := by
  cases l with
  | nil => cases hx
  | cons y l =>
    cases y with
    | jump t => exact (hl t (List.mem_cons_self ..)).elim
    | span s e =>
      obtain rfl := Option.some.inj hx
      exact h.1

/-- Without jumps each span starts where the one before it ended. -/
theorem Forward.isChain (h : Forward c l) (hl : NoJump l) :
    (spans l).IsChain fun x y => x.2 = y.1 := by
  induction l generalizing c with
  | nil => exact List.isChain_nil
  | cons x l ih =>
    cases x with
    | jump t => exact (hl t (List.mem_cons_self ..)).elim
    | span s e =>
      obtain ⟨_, _, h⟩ := h
      refine List.isChain_cons.mpr ⟨fun y hy => ?_, ih h hl.tail⟩
      exact (h.head hl.tail hy).symm

/-- Without jumps a point is covered at most once. -/
theorem Forward.once (h : Forward c l) (hl : NoJump l) (u : T) :
    ((spans l).filter fun x => x.1 ≤ u ∧ u < x.2).length ≤ 1 := by
  induction l generalizing c with
  | nil => exact Nat.zero_le 1
  | cons x l ih =>
    cases x with
    | jump t => exact (hl t (List.mem_cons_self ..)).elim
    | span s e =>
      obtain ⟨_, _, h⟩ := h
      rw [spans, List.filter_cons]
      split_ifs with hu
      · -- all later spans start at the end of this one or after it
        have hnone : ((spans l).filter fun x => x.1 ≤ u ∧ u < x.2) = [] := by
          refine List.filter_eq_nil_iff.mpr fun y hy hyu => ?_
          have hstart := ((h.bounds hl.tail).2 y hy).1
          simp only [decide_eq_true_eq] at hu hyu
          exact absurd (hstart.trans hyu.1) (not_le.mpr hu.2)
        rw [hnone]
        rfl
      · exact ih h hl.tail

/-- Without jumps a point between the ends of the track lies in one span: those before it have ended and
those after it have not begun. -/
theorem Forward.covers (h : Forward c l) (hl : NoJump l) {u : T} (hc : c ≤ u) (hu : u < position c l) :
    ∃ before x after, spans l = before ++ x :: after ∧ (x.1 ≤ u ∧ u < x.2) ∧
      (∀ y ∈ before, y.2 ≤ u) ∧ ∀ y ∈ after, u < y.1 := by
  induction l generalizing c with
  | nil => exact absurd hu (not_lt.mpr hc)
  | cons x l ih =>
    cases x with
    | jump t => exact (hl t (List.mem_cons_self ..)).elim
    | span s e =>
      obtain ⟨rfl, hlt, h⟩ := h
      by_cases hue : u < e
      · refine ⟨[], (s, e), spans l, rfl, ⟨hc, hue⟩, fun y hy => absurd hy List.not_mem_nil, ?_⟩
        intro y hy
        exact hue.trans_le ((h.bounds hl.tail).2 y hy).1
      · obtain ⟨before, x, after, heq, hx, hbefore, hafter⟩ := ih h hl.tail (not_lt.mp hue) hu
        refine ⟨(s, e) :: before, x, after, by rw [spans, heq, List.cons_append], hx, ?_, hafter⟩
        intro y hy
        rcases List.mem_cons.mp hy with rfl | hy
        · exact not_lt.mp hue
        · exact hbefore y hy

end NoJump

end Track
