import Tidal.Order

/-!
# Proofs: sorting by a key

Sorting keeps the elements, puts them in order, and keeps the order of those with the same key.
-/

namespace Tidal

open EventF

variable {α κ : Type} [LinearOrder κ]

theorem sortOn_perm (f : α → κ) (l : List α) : (sortOn f l).Perm l := List.perm_insertionSort _ l

@[simp] theorem mem_sortOn {f : α → κ} {l : List α} {x : α} : x ∈ sortOn f l ↔ x ∈ l :=
  (sortOn_perm f l).mem_iff

theorem pairwise_sortOn (f : α → κ) (l : List α) : (sortOn f l).Pairwise fun x y => f x ≤ f y := by
  have : Std.Total fun x y => f x ≤ f y := ⟨fun x y => le_total (f x) (f y)⟩
  have : IsTrans α fun x y => f x ≤ f y := ⟨fun x y z => le_trans⟩
  exact List.pairwise_insertionSort _ l

theorem filter_orderedInsert (f : α → κ) (k : κ) [DecidablePred fun x => f x = k] (x : α) (l : List α) :
    (l.orderedInsert (fun x y => f x ≤ f y) x).filter (fun x => f x = k) =
      (x :: l).filter fun x => f x = k := by
  induction l with
  | nil => rfl
  | cons y l ih =>
    rw [List.orderedInsert]
    split_ifs with hxy
    · rfl
    · -- an element that is passed has a smaller key than `x`
      have hlt : f y < f x := not_le.mp hxy
      rw [List.filter_cons, ih]
      by_cases hx : f x = k
      · have hy : f y ≠ k := by
          intro hy
          rw [hx, hy] at hlt
          exact lt_irrefl _ hlt
        simp [hx, hy]
      · simp [List.filter_cons, hx]

/-- Elements with one key stay in the order in which they were. -/
theorem filter_sortOn (f : α → κ) (k : κ) [DecidablePred fun x => f x = k] (l : List α) :
    (sortOn f l).filter (fun x => f x = k) = l.filter fun x => f x = k := by
  induction l with
  | nil => rfl
  | cons x l ih =>
    have hcons : sortOn f (x :: l) = (sortOn f l).orderedInsert (fun x y => f x ≤ f y) x := rfl
    rw [hcons, filter_orderedInsert, List.filter_cons, List.filter_cons, ih]

section Groups

variable {ι M : Type} [DecidableEq ι] [AddCommMonoid M] {key : α → ι} {f : ι → κ}

theorem splitBy_same {k : ι} {l : List α} (hne : l ≠ []) (h : ∀ x ∈ l, key x = k) :
    (l.splitBy fun x y => key x = key y) = [l] := by
  refine List.splitBy_of_isChain hne (List.Pairwise.isChain ?_)
  refine (List.pairwise_iff_forall_sublist.mpr fun {x y} hxy => ?_)
  have hx : key x = k := h x (hxy.subset (by simp))
  have hy : key y = k := h y (hxy.subset (by simp))
  simp [hx, hy]

/-- Of a list in order, the first group is all that has the first key. -/
theorem splitBy_cons (hf : Function.Injective f) {x : α} {l : List α}
    (h : (x :: l).Pairwise fun x y => f (key x) ≤ f (key y)) :
    ((x :: l).splitBy fun x y => key x = key y) =
      (x :: l).filter (fun y => key y = key x) ::
        ((x :: l).filter fun y => key y ≠ key x).splitBy fun x y => key x = key y := by
  -- in order, those with the first key come first
  have hsplit : ∀ l : List α, (∀ y ∈ l, f (key x) ≤ f (key y)) →
      l.Pairwise (fun x y => f (key x) ≤ f (key y)) →
      l = l.filter (fun y => key y = key x) ++ l.filter fun y => key y ≠ key x := by
    intro l
    induction l with
    | nil => intro _ _; rfl
    | cons y l ih =>
      intro hle hl
      obtain ⟨hy, hl⟩ := List.pairwise_cons.mp hl
      by_cases hyx : key y = key x
      · have hrest := ih (fun z hz => hle z (List.mem_cons_of_mem _ hz)) hl
        rw [List.filter_cons_of_pos (by simpa using hyx), List.filter_cons_of_neg (by simpa using hyx),
          List.cons_append, ← hrest]
      · have hlt : f (key x) < f (key y) :=
          lt_of_le_of_ne (hle y (List.mem_cons_self ..)) fun he => hyx (hf he).symm
        have hall : ∀ z ∈ y :: l, key z ≠ key x := by
          intro z hz hzx
          rcases List.mem_cons.mp hz with rfl | hz
          · exact hyx hzx
          · exact absurd (hzx ▸ hy z hz) (not_le.mpr hlt)
        rw [List.filter_eq_nil_iff.mpr (by simpa using hall), List.nil_append]
        exact (List.filter_eq_self.mpr (by simpa using hall)).symm
  have hall : ∀ y ∈ x :: l, f (key x) ≤ f (key y) := by
    intro y hy
    rcases List.mem_cons.mp hy with rfl | hy
    · exact le_rfl
    · exact List.rel_of_pairwise_cons h hy
  have hne : (x :: l).filter (fun y => key y = key x) ≠ [] := by simp
  conv_lhs => rw [hsplit (x :: l) hall h]
  rw [List.splitBy_append, splitBy_same (k := key x) hne (by simp)]
  · rfl
  · intro y hy z hz
    have hyx := (List.mem_filter.mp (List.mem_of_mem_getLast? hy)).2
    have hzx := (List.mem_filter.mp (List.mem_of_mem_head? hz)).2
    simp only [decide_eq_true_eq, ne_eq, decide_not, Bool.not_eq_true', decide_eq_false_iff_not] at hyx hzx ⊢
    rw [hyx]
    exact fun he => hzx he.symm

/-- The groups of a list in order are its elements by key. -/
theorem sum_splitBy (hf : Function.Injective f) (F : List α → M) {l : List α}
    (h : l.Pairwise fun x y => f (key x) ≤ f (key y)) :
    ((l.splitBy fun x y => key x = key y).map F).sum =
      ∑ k ∈ (l.map key).toFinset, F (l.filter fun x => key x = k) := by
  induction hn : l.length using Nat.strong_induction_on generalizing l with
  | _ n ih =>
    cases l with
    | nil => rfl
    | cons x l =>
      set r := (x :: l).filter fun y => key y ≠ key x with hr
      have hlt : r.length < n := by
        rw [hr, List.filter_cons_of_neg (by simp), ← hn]
        exact Nat.lt_succ_of_le (List.length_filter_le ..)
      have hkeys : ((x :: l).map key).toFinset = insert (key x) (r.map key).toFinset := by
        ext k
        simp only [List.mem_toFinset, List.mem_map, Finset.mem_insert, hr, List.mem_filter, ne_eq,
          decide_not, Bool.not_eq_true', decide_eq_false_iff_not]
        constructor
        · rintro ⟨y, hy, rfl⟩
          by_cases hyx : key y = key x
          · exact Or.inl hyx
          · exact Or.inr ⟨y, ⟨hy, hyx⟩, rfl⟩
        · rintro (rfl | ⟨y, ⟨hy, _⟩, rfl⟩)
          · exact ⟨x, List.mem_cons_self .., rfl⟩
          · exact ⟨y, hy, rfl⟩
      have hnot : key x ∉ (r.map key).toFinset := by simp [hr]
      have hrest : ∀ k ∈ (r.map key).toFinset,
          F (r.filter fun y => key y = k) = F ((x :: l).filter fun y => key y = k) := by
        intro k hk
        obtain ⟨y, hy, rfl⟩ := List.mem_map.mp (List.mem_toFinset.mp hk)
        have hyx : key y ≠ key x := by simpa using (List.mem_filter.mp hy).2
        rw [hr, List.filter_filter]
        congr 1
        refine List.filter_congr fun z _ => ?_
        by_cases hz : key z = key y
        · simp [hz, hyx]
        · simp [hz]
      rw [splitBy_cons hf h, List.map_cons, List.sum_cons, ih _ hlt (h.sublist List.filter_sublist) rfl, hkeys,
        Finset.sum_insert hnot, Finset.sum_congr rfl hrest]

end Groups

theorem wholeKey_injective : Function.Injective wholeKey := fun _ _ h => h

/-- Wholes in order start in order. -/
theorem start_le_of_wholeKey {v w : Arc} (h : wholeKey (some v) ≤ wholeKey (some w)) : v.start ≤ w.start := by
  have hle : v ≤ w := WithBot.coe_le_coe.mp h
  rcases Prod.Lex.toLex_le_toLex.mp (show toLex (v.start, v.stop) ≤ toLex (w.start, w.stop) from hle) with h | h
  · exact le_of_lt h
  · exact le_of_eq h.1

end Tidal
