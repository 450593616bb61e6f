import Tidal.UI
import Tidal.Proofs.BjorklundProofs

/-!
# Distributed rhythms

`_distrib` starts with as many trues as its first number, and spreads what it has over the onsets of one
rhythm after the other. Each rhythm has as many onsets as the list before it is long.
-/

namespace Tidal

open Pattern

/-! ## One layer -/

section Layer

variable (a : List Bool) {b b' : List Bool}

theorem distrib'_true (b : List Bool) : distrib' (true :: a) b = b.headD false :: distrib' a b.tail := by
  cases b <;> rfl

theorem distrib'_false (b : List Bool) : distrib' (false :: a) b = false :: distrib' a b := by
  cases b <;> rfl

@[simp] theorem length_distrib' (b : List Bool) : (distrib' a b).length = a.length := by
  induction a generalizing b with
  | nil => rfl
  | cons x a ih =>
    cases x
    · rw [distrib'_false, List.length_cons, ih, List.length_cons]
    · rw [distrib'_true, List.length_cons, ih, List.length_cons]

/-- A layer with as many onsets as there are elements uses each of them once. -/
theorem count_distrib' (h : a.count true = b.length) : (distrib' a b).count true = b.count true := by
  induction a generalizing b with
  | nil =>
    obtain rfl : b = [] := List.length_eq_zero_iff.mp h.symm
    rfl
  | cons x a ih =>
    cases x
    · rw [List.count_cons_of_ne (by simp)] at h
      rw [distrib'_false, List.count_cons_of_ne (by simp), ih h]
    · rw [List.count_cons_self] at h
      rcases b with _ | ⟨y, b⟩
      · simp at h
      · rw [distrib'_true, List.headD_cons, List.tail_cons, List.count_cons, List.count_cons,
          ih (by simpa using h)]

/-- A layer uses no more elements than it has onsets. -/
theorem distrib'_take (b : List Bool) : distrib' a (b.take (a.count true)) = distrib' a b := by
  induction a generalizing b with
  | nil => rfl
  | cons x a ih =>
    cases x
    · rw [List.count_cons_of_ne (by simp), distrib'_false, distrib'_false, ih]
    · rw [List.count_cons_self, distrib'_true, distrib'_true]
      rcases b with _ | ⟨y, b⟩
      · rfl
      · rw [List.take_succ_cons, List.headD_cons, List.tail_cons, List.headD_cons, List.tail_cons, ih]

/-- The positions that are true in the first list are true in the second. -/
def TrueIn (b b' : List Bool) : Prop := ∀ j : ℕ, b[j]? = some true → b'[j]? = some true

theorem trueIn_cons {x y : Bool} (hxy : x = true → y = true) (h : TrueIn b b') :
    TrueIn (x :: b) (y :: b') := by
  intro j hj
  cases j with
  | zero => simpa using hxy (by simpa using hj)
  | succ j => simpa using h j (by simpa using hj)

theorem TrueIn.head (h : TrueIn b b') (hb : b.headD false = true) : b'.headD false = true := by
  rcases b with _ | ⟨x, b⟩
  · simp at hb
  · have h0 := h 0 (by simpa using hb)
    rcases b' with _ | ⟨y, b'⟩
    · simp at h0
    · simpa using h0

theorem TrueIn.tail (h : TrueIn b b') : TrueIn b.tail b'.tail := by
  intro j hj
  rw [List.getElem?_tail] at hj ⊢
  exact h (j + 1) hj

theorem TrueIn.distrib' (h : TrueIn b b') : TrueIn (distrib' a b) (Pattern.distrib' a b') := by
  induction a generalizing b b' with
  | nil => exact fun j hj => hj
  | cons x a ih =>
    cases x
    · rw [distrib'_false, distrib'_false]
      exact trueIn_cons id (ih h)
    · rw [distrib'_true, distrib'_true]
      exact trueIn_cons h.head (ih h.tail)

theorem trueIn_replicate {n : ℕ} (h : b.length ≤ n) : TrueIn b (List.replicate n true) := by
  intro j hj
  obtain ⟨hlt, -⟩ := List.getElem?_eq_some_iff.mp hj
  rw [List.getElem?_replicate, if_pos (by omega)]

end Layer

/-! ## All layers -/

/-- The list after all layers, if it is `z` before them. -/
def distribFrom (xs : List ℤ) (z : List Bool) : List Bool :=
  (layers xs).foldl (fun b a => distrib' a b) z

section Layers

variable {x y : ℤ} {xs : List ℤ} {z z' : List Bool}

theorem distribFrom_cons (x y : ℤ) (xs : List ℤ) (z : List Bool) :
    distribFrom (x :: y :: xs) z = distribFrom (y :: xs) (distrib' (bjorklund x y) z) := rfl

theorem TrueIn.distribFrom (h : TrueIn z z') : TrueIn (distribFrom xs z) (Tidal.distribFrom xs z') := by
  unfold Tidal.distribFrom
  induction layers xs generalizing z z' with
  | nil => exact h
  | cons a as ih => exact ih (h.distrib' a)

/-- The list grows from one number to the next, and keeps its trues. -/
theorem distribFrom_spec (h : (0 :: x :: xs).IsChain (· ≤ ·)) (hz : z.length = x.toNat) :
    ((distribFrom (x :: xs) z).length : ℤ) = (x :: xs).getLast (List.cons_ne_nil x xs) ∧
      (distribFrom (x :: xs) z).count true = z.count true := by
  induction xs generalizing x z with
  | nil =>
    have hx : 0 ≤ x := List.rel_of_isChain_cons_cons h
    refine ⟨?_, rfl⟩
    show (z.length : ℤ) = x
    omega
  | cons y xs ih =>
    obtain ⟨hx, hrest⟩ := List.isChain_cons_cons.mp h
    obtain ⟨hxy, hxs⟩ := List.isChain_cons_cons.mp hrest
    obtain ⟨hlen, hcount⟩ := bjorklund_counts hx hxy
    obtain ⟨h1, h2⟩ := ih (List.isChain_cons_cons.mpr ⟨hx.trans hxy, hxs⟩)
      (z := distrib' (bjorklund x y) z) (by rw [length_distrib', hlen])
    rw [distribFrom_cons, List.getLast_cons (List.cons_ne_nil y xs)]
    exact ⟨h1, h2.trans (count_distrib' _ (hcount.trans hz.symm))⟩

theorem le_getLast (h : (x :: xs).IsChain (· ≤ ·)) : x ≤ (x :: xs).getLast (List.cons_ne_nil x xs) := by
  rcases List.mem_cons.mp (List.getLast_mem (List.cons_ne_nil x xs)) with hlast | hlast
  · exact hlast.ge
  · exact (List.pairwise_cons.mp (List.isChain_iff_pairwise.mp h)).1 _ hlast

/-- Of the trues at the start as many are used as the first number says. -/
theorem distribBools_eq (h : (0 :: x :: xs).IsChain (· ≤ ·)) :
    distribBools (x :: xs) = distribFrom (x :: xs) (List.replicate x.toNat true) := by
  obtain ⟨hx, hrest⟩ := List.isChain_cons_cons.mp h
  have hlast := le_getLast hrest
  unfold distribBools
  rw [List.foldr_reverse, List.getLast?_eq_some_getLast (List.cons_ne_nil x xs), Option.getD_some]
  show distribFrom (x :: xs) _ = _
  rcases xs with _ | ⟨y, xs⟩
  · rfl
  · have hcount := (bjorklund_counts hx (List.isChain_cons_cons.mp hrest).1).2
    rw [distribFrom_cons, distribFrom_cons, ← distrib'_take, List.take_replicate, hcount,
      min_eq_left (by omega)]

/-- The list is as long as the last number says, with as many trues as the first; and without the first number
it is true wherever it was before. -/
theorem distribBools_spec (x : ℤ) (xs : List ℤ) (h : (0 :: x :: xs).IsChain (· ≤ ·)) :
    ((distribBools (x :: xs)).length : ℤ) = (x :: xs).getLast (List.cons_ne_nil x xs) ∧
    ((distribBools (x :: xs)).count true : ℤ) = x ∧
    (xs ≠ [] → TrueIn (distribBools (x :: xs)) (distribBools xs)) := by
  obtain ⟨hx, hrest⟩ := List.isChain_cons_cons.mp h
  rw [distribBools_eq h]
  obtain ⟨hlen, hcount⟩ := distribFrom_spec h (List.length_replicate (a := true))
  rw [List.count_replicate_self] at hcount
  refine ⟨hlen, by omega, fun hne => ?_⟩
  obtain ⟨y, xs, rfl⟩ := List.exists_cons_of_ne_nil hne
  obtain ⟨hxy, hxs⟩ := List.isChain_cons_cons.mp hrest
  rw [distribBools_eq (List.isChain_cons_cons.mpr ⟨hx.trans hxy, hxs⟩), distribFrom_cons]
  refine TrueIn.distribFrom (trueIn_replicate ?_)
  rw [length_distrib', (bjorklund_counts hx hxy).1]

theorem distribBools_spec_two_five_eight :
    ((distribBools [2, 5, 8]).length : ℤ) = 8 ∧ ((distribBools [2, 5, 8]).count true : ℤ) = 2 ∧
      ([5, 8] ≠ ([] : List ℤ) → TrueIn (distribBools [2, 5, 8]) (distribBools [5, 8])) :=
  distribBools_spec 2 [5, 8] (by decide)

end Layers

end Tidal
