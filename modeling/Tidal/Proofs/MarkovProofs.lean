import Tidal.Markov

/-!
# Proofs: which transitions a Markov chain takes

The next state is the first one whose cumulated weight is not below the number drawn. If the number is
positive, the state adds to the weight, so the transition is possible. The number 0 is not above any weight,
so it always draws the first state.
-/

namespace Tidal

open Pattern

variable {α : Type}

/-! ## Cumulated weights -/

section Cumulated

/-- The sums of the beginnings of a row, added to `c`. -/
def cumulated (c : ℚ) : List ℚ → List ℚ
  | [] => []
  | x :: xs => (c + x) :: cumulated (c + x) xs

theorem scanl_eq_cumulated (c : ℚ) (xs : List ℚ) : xs.scanl (· + ·) c = c :: cumulated c xs := by
  induction xs generalizing c with
  | nil => rfl
  | cons x xs ih => rw [List.scanl_cons, ih]; rfl

theorem scanl1_eq_cumulated (row : List ℚ) : scanl1 (· + ·) row = cumulated 0 row := by
  cases row with
  | nil => rfl
  | cons x xs => rw [scanl1, scanl_eq_cumulated, cumulated, zero_add]

/-- The first sum that reaches `r` is reached by a positive weight. -/
theorem findIdx_cumulated {c r : ℚ} {row : List ℚ} (hc : c < r) (hr : r ≤ c + row.sum) :
    ∃ i w, (cumulated c row).findIdx? (r ≤ ·) = some i ∧ row[i]? = some w ∧ 0 < w := by
  induction row generalizing c with
  | nil =>
    rw [List.sum_nil] at hr
    linarith only [hc, hr]
  | cons x row ih =>
    rw [List.sum_cons] at hr
    rw [cumulated, List.findIdx?_cons]
    by_cases hx : r ≤ c + x
    · refine ⟨0, x, if_pos (decide_eq_true hx), rfl, ?_⟩
      linarith only [hc, hx]
    · obtain ⟨i, w, hi, hw, hpos⟩ := ih (not_le.mp hx) (by linarith only [hr])
      refine ⟨i + 1, w, ?_, hw, hpos⟩
      rw [if_neg (by simpa using hx), hi]
      rfl

end Cumulated

/-! ## Steps -/

section Steps

variable {rand : Time → ℚ} {n : ℤ} {tp : List (List ℚ)} {seed : Time} {a xi : ℤ}

/-- `tp!!a!!b` -/
def weight (tp : List (List ℚ)) (a b : ℤ) : ℚ := ((elemAt tp a >>= fun row => elemAt row b)).getD 0

/-- A square matrix of weights, whose rows have a positive sum. -/
structure Transitions (tp : List (List ℚ)) : Prop where
  square : ∀ row ∈ tp, row.length = tp.length
  nonneg : ∀ row ∈ tp, ∀ w ∈ row, 0 ≤ w
  sum_pos : ∀ row ∈ tp, 0 < row.sum

/-- The state is one of the matrix. -/
def IsState (tp : List (List ℚ)) (a : ℤ) : Prop := 0 ≤ a ∧ a < tp.length

theorem elemAt_natCast (xs : List α) (i : ℕ) : elemAt xs i = xs[i]? := by
  rw [elemAt, if_neg (by omega), Int.toNat_natCast]

theorem sum_normalized {row : List ℚ} (h : 0 < row.sum) : (row.map (· / row.sum)).sum = 1 := by
  have hdiv : ∀ (s : ℚ) (l : List ℚ), (l.map (· / s)).sum = l.sum / s := by
    intro s l
    induction l with
    | nil => simp
    | cons x l ih => rw [List.map_cons, List.sum_cons, List.sum_cons, ih, add_div]
  rw [hdiv, div_self h.ne']

theorem weight_natCast {k : ℕ} (hk : k < tp.length) (i : ℕ) : weight tp k i = (tp[k][i]?).getD 0 := by
  rw [weight, elemAt_natCast, List.getElem?_eq_getElem hk]
  show ((elemAt tp[k] i)).getD 0 = _
  rw [elemAt_natCast]

/-- The state is found where the cumulated row reaches the random number. -/
theorem markovStep_found {k : ℕ} (hk : k < tp.length) (hist : List (Lazy ℤ)) {i : ℕ}
    (hi : (cumulated 0 (tp[k].map (· / tp[k].sum))).findIdx?
      (rand (seed + (some (k : ℤ) :: hist).length / n) ≤ ·) = some i) :
    markovStep rand n seed (renorm tp) (some (k : ℤ) :: hist) = some (i : ℤ) :: some (k : ℤ) :: hist := by
  have hrow : elemAt (renorm tp) k = some (tp[k].map (· / tp[k].sum)) := by
    rw [elemAt_natCast, renorm, List.getElem?_map, List.getElem?_eq_getElem hk]
    rfl
  simp only [markovStep, List.head?_cons, Option.bind_eq_bind, Option.bind_some, hrow, scanl1_eq_cumulated]
  rw [hi]
  rfl

/-- The next state exists, and the transition to it is possible except if 0 draws the first state and that one
has no weight. -/
theorem markovStep_state (h : Transitions tp) (ha : IsState tp a) (hist : List (Lazy ℤ))
    (hr : 0 ≤ rand (seed + (some a :: hist).length / n) ∧ rand (seed + (some a :: hist).length / n) < 1) :
    ∃ b, markovStep rand n seed (renorm tp) (some a :: hist) = some b :: some a :: hist ∧ IsState tp b ∧
      (0 < weight tp a b ↔ (rand (seed + (some a :: hist).length / n) = 0 → 0 < weight tp a 0)) := by
  obtain ⟨h0, h1⟩ := ha
  obtain ⟨k, rfl⟩ := Int.eq_ofNat_of_zero_le h0
  have hk : k < tp.length := by omega
  have hmem : tp[k] ∈ tp := List.getElem_mem hk
  have hsum := h.sum_pos _ hmem
  have hlen := h.square _ hmem
  by_cases hzero : rand (seed + (some (k : ℤ) :: hist).length / n) = 0
  · -- the first weight is not below 0
    obtain ⟨w, row, hcons⟩ := List.exists_cons_of_length_pos (show 0 < tp[k].length by omega)
    have hw : 0 ≤ w / tp[k].sum := div_nonneg (h.nonneg _ hmem w (by rw [hcons]; exact List.mem_cons_self)) hsum.le
    refine ⟨0, ?_, ⟨le_refl 0, by omega⟩, ?_⟩
    · refine markovStep_found hk hist ?_
      rw [hzero]
      generalize tp[k].sum = s at hw ⊢
      rw [hcons, List.map_cons, cumulated, List.findIdx?_cons, if_pos]
      rw [decide_eq_true_eq, zero_add]
      exact hw
    · exact ⟨fun hpos _ => hpos, fun hpos => hpos hzero⟩
  · have hpos : 0 < rand (seed + (some (k : ℤ) :: hist).length / n) := lt_of_le_of_ne hr.1 (Ne.symm hzero)
    have hle : rand (seed + (some (k : ℤ) :: hist).length / n) ≤ 0 + (tp[k].map (· / tp[k].sum)).sum := by
      rw [sum_normalized hsum, zero_add]
      exact hr.2.le
    obtain ⟨i, w, hi, hw, hwpos⟩ := findIdx_cumulated hpos hle
    rw [List.getElem?_map, Option.map_eq_some_iff] at hw
    obtain ⟨v, hv, rfl⟩ := hw
    have hil : i < tp[k].length := (List.getElem?_eq_some_iff.mp hv).1
    refine ⟨i, markovStep_found hk hist hi, ⟨by omega, by omega⟩, ?_⟩
    refine iff_of_true ?_ fun hc => absurd hc hzero
    rw [weight_natCast hk, hv, Option.getD_some]
    exact (div_pos_iff_of_pos_right hsum).mp hwpos

end Steps

/-! ## Runs -/

section Runs

variable {rand : Time → ℚ} {n : ℤ} {tp : List (List ℚ)} {seed : Time} {xi : ℤ}

/-- Every transition of the chain is possible. The newest state is the first one. -/
def Possible (tp : List (List ℚ)) : List ℤ → Prop
  | b :: a :: hist => 0 < weight tp a b ∧ Possible tp (a :: hist)
  | _ => True

/-- The number 0 is only drawn in states that have a weight for the first one. -/
def ZeroAllowed (rand : Time → ℚ) (n : ℤ) (seed : Time) (tp : List (List ℚ)) : List ℤ → Prop
  | _ :: a :: hist =>
    (rand (seed + (a :: hist).length / n) = 0 → 0 < weight tp a 0) ∧ ZeroAllowed rand n seed tp (a :: hist)
  | _ => True

/-- A run goes from state to state. -/
theorem iterate_markovStep (h : Transitions tp) (hrand : ∀ t, 0 ≤ rand t ∧ rand t < 1) (hxi : IsState tp xi)
    (k : ℕ) :
    ∃ a hist, (markovStep rand n seed (renorm tp))^[k] [some xi] = (a :: hist).map some ∧
      (a :: hist).length = k + 1 ∧ (a :: hist).getLast? = some xi ∧ (∀ b ∈ a :: hist, IsState tp b) ∧
      (Possible tp (a :: hist) ↔ ZeroAllowed rand n seed tp (a :: hist)) := by
  induction k with
  | zero =>
    refine ⟨xi, [], rfl, rfl, rfl, fun b hb => ?_, Iff.rfl⟩
    obtain rfl := List.mem_singleton.mp hb
    exact hxi
  | succ k ih =>
    obtain ⟨a, hist, hrun, hlen, hlast, hstates, hiff⟩ := ih
    obtain ⟨b, hstep, hb, hposs⟩ := markovStep_state h (hstates a List.mem_cons_self) (hist.map some) (hrand _)
    rw [List.length_cons, List.length_map, ← List.length_cons (a := a)] at hposs
    refine ⟨b, a :: hist, ?_, ?_, ?_, fun c hc => ?_, and_congr hposs hiff⟩
    · rw [Function.iterate_succ_apply', hrun, List.map_cons, hstep]
      rfl
    · rw [List.length_cons, hlen]
    · rw [List.getLast?_cons_cons]
      exact hlast
    · rcases List.mem_cons.mp hc with rfl | hc
      · exact hb
      · exact hstates c hc

theorem possible_iff_isChain (hist : List ℤ) :
    Possible tp hist ↔ hist.reverse.IsChain fun a b => 0 < weight tp a b := by
  rw [List.isChain_reverse]
  induction hist with
  | nil => simp [Possible]
  | cons b hist ih =>
    cases hist with
    | nil => simp [Possible]
    | cons a hist => rw [Possible, ih, List.isChain_cons_cons]

/-- The condition on the states in the order in which they are drawn. -/
theorem zeroAllowed_iff (hist : List ℤ) :
    ZeroAllowed rand n seed tp hist ↔
      ∀ i a, i + 1 < hist.length → hist.reverse[i]? = some a →
        rand (seed + (i + 1 : ℕ) / n) = 0 → 0 < weight tp a 0 := by
  induction hist with
  | nil => simp [ZeroAllowed]
  | cons b hist ih =>
    cases hist with
    | nil => simp [ZeroAllowed]
    | cons a hist =>
      rw [ZeroAllowed, ih, List.reverse_cons (a := b)]
      have hlen : (a :: hist).reverse.length = hist.length + 1 := by
        rw [List.length_reverse, List.length_cons]
      have hlast : (a :: hist).reverse[hist.length]? = some a := by
        rw [List.reverse_cons, List.getElem?_append_right (by rw [List.length_reverse]), List.length_reverse,
          Nat.sub_self]
        rfl
      constructor
      · rintro ⟨hnow, hbefore⟩ i c hi hc
        rw [List.length_cons, List.length_cons] at hi
        rw [List.getElem?_append_left (by omega)] at hc
        by_cases hil : i = hist.length
        · subst hil
          obtain rfl := Option.some.inj (hlast.symm.trans hc)
          exact hnow
        · refine hbefore i c ?_ hc
          rw [List.length_cons]
          omega
      · intro hall
        constructor
        · refine hall hist.length a ?_ ?_
          · rw [List.length_cons, List.length_cons]
            omega
          · rw [List.getElem?_append_left (by omega)]
            exact hlast
        · intro i c hi hc
          refine hall i c ?_ ?_
          · rw [List.length_cons]
            omega
          · rw [List.getElem?_append_left ?_]
            · exact hc
            · rw [List.length_cons] at hi
              omega

end Runs

/-- A Markov chain is always defined, has the length asked for, starts with the given state and stays within
the states. All its transitions are possible exactly if 0 is never drawn in a state that has no weight for the
first one. -/
theorem runMarkov_possible_iff (rand : Time → ℚ) (hrand : ∀ t, 0 ≤ rand t ∧ rand t < 1)
    (tp : List (List ℚ)) (htp : Transitions tp) (xi : ℤ) (hxi : IsState tp xi) (n : ℤ) (hn : 1 ≤ n)
    (seed : Time) :
    ∃ states : List ℤ, runMarkovWith rand n tp xi seed = some (states.map some) ∧
      states.length = n ∧ states.head? = some xi ∧ (∀ a ∈ states, IsState tp a) ∧
      (states.IsChain (fun a b => 0 < weight tp a b) ↔
        ∀ (i : ℕ) a, i + 1 < n → states[i]? = some a →
          rand (seed + (i + 1 : ℕ) / n) = 0 → 0 < weight tp a 0) := by
  obtain ⟨a, hist, hrun, hlen, hlast, hstates, hiff⟩ :=
    iterate_markovStep (n := n) htp hrand hxi (n - 1).toNat
  refine ⟨(a :: hist).reverse, ?_, ?_, ?_, fun b hb => hstates b (List.mem_reverse.mp hb), ?_⟩
  · rw [runMarkovWith, if_neg (by omega), hrun, List.map_reverse]
  · rw [List.length_reverse, hlen]
    omega
  · rw [List.head?_reverse]
    exact hlast
  · rw [← possible_iff_isChain, hiff, zeroAllowed_iff]
    refine forall_congr' fun i => forall_congr' fun b => ?_
    have hlt : i + 1 < (a :: hist).length ↔ ((i : ℤ) + 1 < n) := by omega
    rw [hlt]

theorem transitions_two : Transitions [[1, 0], [1, 0]] := by
  constructor
  · simp
  · intro row hrow w hw
    simp only [List.mem_cons, List.not_mem_nil, or_false, or_self] at hrow
    subst hrow
    simp only [List.mem_cons, List.not_mem_nil, or_false] at hw
    rcases hw with rfl | rfl <;> norm_num
  · intro row hrow
    simp only [List.mem_cons, List.not_mem_nil, or_false, or_self] at hrow
    subst hrow
    norm_num

/-- Two states that both lead to the first one, which takes any number. -/
theorem runMarkov_possible_iff_two :
    ∃ states : List ℤ, runMarkov 3 [[1, 0], [1, 0]] 1 0 = some (states.map some) ∧
      states.IsChain fun a b => 0 < weight [[1, 0], [1, 0]] a b := by
  have hrand : ∀ t, 0 ≤ timeToRand t ∧ timeToRand t < 1 := by
    intro t
    rw [timeToRand, intSeedToRand]
    have h0 := Int.emod_nonneg (timeToIntSeed t).toInt (show (536870912 : ℤ) ≠ 0 by decide)
    have h1 := Int.emod_lt_of_pos (timeToIntSeed t).toInt (show (0 : ℤ) < 536870912 by decide)
    constructor
    · exact div_nonneg (by exact_mod_cast h0) (by norm_num)
    · rw [div_lt_one (by norm_num)]
      exact_mod_cast h1
  have hxi : IsState [[1, 0], [1, 0]] 1 := ⟨by norm_num, by norm_num⟩
  obtain ⟨states, hrun, -, -, hall, hiff⟩ :=
    runMarkov_possible_iff timeToRand hrand [[1, 0], [1, 0]] transitions_two 1 hxi 3 (by norm_num) 0
  refine ⟨states, hrun, hiff.mpr fun i a _ ha _ => ?_⟩
  obtain ⟨h0, h1⟩ := hall a (List.mem_of_getElem? ha)
  have hcases : a = 0 ∨ a = 1 := by
    simp only [List.length_cons, List.length_nil] at h1
    omega
  rcases hcases with rfl | rfl <;> decide

/-- At the time 0 the number 0 is drawn, and the chain stays in the first state, which it should leave. -/
theorem runMarkov_stays :
    Transitions [[0, 1], [1, 0]] ∧ IsState [[0, 1], [1, 0]] 0 ∧
      runMarkov 2 [[0, 1], [1, 0]] 0 (-1 / 2) = some [some 0, some 0] ∧ weight [[0, 1], [1, 0]] 0 0 = 0 := by
  refine ⟨⟨by simp, ?_, ?_⟩, ⟨by norm_num, by norm_num⟩, by with_unfolding_all decide, by decide⟩
  · intro row hrow w hw
    simp only [List.mem_cons, List.not_mem_nil, or_false] at hrow
    rcases hrow with rfl | rfl <;>
    · simp only [List.mem_cons, List.not_mem_nil, or_false] at hw
      rcases hw with rfl | rfl <;> norm_num
  · intro row hrow
    simp only [List.mem_cons, List.not_mem_nil, or_false] at hrow
    rcases hrow with rfl | rfl <;> norm_num

end Tidal
