import Mathlib

/-!
# Sampling finite families of half-open intervals

A family of intervals `[lo i, hi i)` with labels `lab i`, kept as a list of indices. `sample` reads off
the labels in force at one point; `sampleLeft` reads them off just before it. Nothing is assumed of the
index type, so a family may hold equal or overlapping intervals, empty ones included.

Both are cases of `pick`, the labels of the indices that satisfy some condition.
-/

namespace HalfOpen

variable {T ι κ β γ : Type*}

/-- The labels of the indices that satisfy `P`. -/
def pick (P : ι → Prop) [DecidablePred P] (lab : ι → β) (l : List ι) : Multiset β :=
  ((l.filter fun i => P i).map lab : List β)

section Pick

variable {P : ι → Prop} [DecidablePred P] {Q : κ → Prop} [DecidablePred Q] {lab : ι → β} {lab' : κ → γ}

theorem pick_cons (i : ι) (l : List ι) :
    pick P lab (i :: l) = (if P i then {lab i} else 0) + pick P lab l := by
  by_cases h : P i <;> simp [pick, h]

@[simp] theorem pick_append (l l' : List ι) : pick P lab (l ++ l') = pick P lab l + pick P lab l' := by
  simp [pick]

theorem mem_pick {l : List ι} {b : β} : b ∈ pick P lab l ↔ ∃ i ∈ l, P i ∧ lab i = b := by
  simp [pick, and_assoc]

theorem pick_eq_zero {l : List ι} (h : ∀ i ∈ l, ¬ P i) : pick P lab l = 0 :=
  Multiset.eq_zero_of_forall_notMem fun _ hb => by
    obtain ⟨i, hi, ht, _⟩ := mem_pick.mp hb
    exact h i hi ht

/-- Indices replaced one by one or dropped, as their labels are. -/
theorem pick_filterMap {f : ι → Option κ} {g : β → Option γ} {l : List ι}
    (hnone : ∀ i ∈ l, f i = none → P i → g (lab i) = none)
    (hsome : ∀ i ∈ l, ∀ k, f i = some k → (Q k ↔ P i) ∧ (P i → g (lab i) = some (lab' k))) :
    pick Q lab' (l.filterMap f) = (pick P lab l).filterMap g := by
  induction l with
  | nil => rfl
  | cons i l ih =>
    have ih' := ih (fun j hj => hnone j (List.mem_cons_of_mem _ hj))
      (fun j hj => hsome j (List.mem_cons_of_mem _ hj))
    have hcons : (pick P lab (i :: l)).filterMap g =
        (if P i then (g (lab i)).elim 0 fun c => {c} else 0) + (pick P lab l).filterMap g := by
      rw [pick_cons]
      by_cases hP : P i
      · rw [if_pos hP, if_pos hP, Multiset.singleton_add]
        cases hg : g (lab i) with
        | none => rw [Multiset.filterMap_cons_none _ _ hg]; simp
        | some c => rw [Multiset.filterMap_cons_some _ _ _ hg]; simp
      · simp [hP]
    rw [hcons, ← ih']
    cases hf : f i with
    | none =>
      rw [List.filterMap_cons_none hf]
      by_cases hP : P i
      · rw [if_pos hP, hnone i (List.mem_cons_self ..) hf hP]; simp
      · simp [hP]
    | some k =>
      obtain ⟨hiff, hlab⟩ := hsome i (List.mem_cons_self ..) k hf
      rw [List.filterMap_cons_some hf, pick_cons]
      by_cases hP : P i
      · rw [if_pos (hiff.mpr hP), if_pos hP, hlab hP]; rfl
      · rw [if_neg (fun hc => hP (hiff.mp hc)), if_neg hP]

/-- Indices replaced one by one. -/
theorem pick_map {f : ι → κ} {g : β → γ} {l : List ι} (h : ∀ i ∈ l, (Q (f i) ↔ P i))
    (hg : ∀ i ∈ l, P i → lab' (f i) = g (lab i)) :
    pick Q lab' (l.map f) = (pick P lab l).map g := by
  rw [← List.filterMap_eq_map, ← Multiset.filterMap_eq_map]
  refine pick_filterMap (fun i _ hn => by cases hn) fun i hi k hk => ?_
  obtain rfl := Option.some.inj hk
  exact ⟨h i hi, fun hP => congrArg some (hg i hi hP).symm⟩

/-- Replacing each index by a family that counts only while the index does: what is picked from the
whole is the bind of what is picked from the parts. -/
theorem pick_flatMap {f : ι → List κ} {G : β → Multiset γ} {l : List ι}
    (h : ∀ i ∈ l, pick Q lab' (f i) = if P i then G (lab i) else 0) :
    pick Q lab' (l.flatMap f) = (pick P lab l).bind G := by
  induction l with
  | nil => rfl
  | cons i l ih =>
    rw [List.flatMap_cons, pick_append, pick_cons, Multiset.add_bind,
      ih fun j hj => h j (List.mem_cons_of_mem _ hj), h i (List.mem_cons_self ..)]
    split <;> simp

theorem pick_filter (q : ι → Bool) (p : β → Bool) {l : List ι} (h : ∀ i ∈ l, P i → q i = p (lab i)) :
    pick P lab (l.filter q) = (pick P lab l).filter fun b => p b := by
  induction l with
  | nil => rfl
  | cons i l ih =>
    have ih' := ih fun j hj => h j (List.mem_cons_of_mem _ hj)
    have hcons : pick P lab ((i :: l).filter q) =
        (if P i ∧ q i then {lab i} else 0) + pick P lab (l.filter q) := by
      by_cases hq : q i
      · rw [List.filter_cons_of_pos hq, pick_cons]; simp [hq]
      · rw [List.filter_cons_of_neg hq]; simp [hq]
    rw [hcons, pick_cons, Multiset.filter_add, ih']
    by_cases hP : P i
    · rw [h i (List.mem_cons_self ..) hP, if_pos hP, Multiset.filter_singleton]
      simp [hP]
    · rw [if_neg hP, if_neg fun hc => hP hc.1, Multiset.filter_zero]

end Pick

variable [LinearOrder T]

/-- The labels of the intervals `[lo i, hi i)` that hold `t`. -/
def sample (lo hi : ι → T) (lab : ι → β) (l : List ι) (t : T) : Multiset β :=
  pick (fun i => lo i ≤ t ∧ t < hi i) lab l

/-- The labels of the intervals `(lo i, hi i]` that hold `u`. -/
def sampleLeft (lo hi : ι → T) (lab : ι → β) (l : List ι) (u : T) : Multiset β :=
  pick (fun i => lo i < u ∧ u ≤ hi i) lab l

/-- A finite family does not change just before a point: from some `b < u` on, what is in force at `t`
is what is in force just before `u`. -/
theorem exists_sampleLeft_eq (lo hi : ι → T) (lab : ι → β) (l : List ι) {a u : T} (ha : a < u) :
    ∃ b, a ≤ b ∧ b < u ∧ ∀ t, b < t → t < u → sampleLeft lo hi lab l u = sample lo hi lab l t := by
  induction l with
  | nil => exact ⟨a, le_rfl, ha, fun _ _ _ => rfl⟩
  | cons i l ih =>
    obtain ⟨b, hab, hbu, hb⟩ := ih
    -- the last endpoint of the new interval before `u`, if there is one
    set b' := max b (max (if lo i < u then lo i else a) (if hi i < u then hi i else a)) with hb'
    have hlo : lo i < u → lo i ≤ b' := by
      intro h
      rw [hb', if_pos h]; exact le_max_of_le_right (le_max_left _ _)
    have hhi : hi i < u → hi i ≤ b' := by
      intro h
      rw [hb', if_pos h]; exact le_max_of_le_right (le_max_right _ _)
    refine ⟨b', hab.trans (le_max_left _ _), ?_, fun t hbt htu => ?_⟩
    · refine max_lt hbu (max_lt ?_ ?_) <;> split <;> assumption
    · have hiff : (lo i < u ∧ u ≤ hi i) ↔ (lo i ≤ t ∧ t < hi i) := by
        constructor
        · rintro ⟨h1, h2⟩
          exact ⟨(hlo h1).trans hbt.le, htu.trans_le h2⟩
        · rintro ⟨h1, h2⟩
          refine ⟨h1.trans_lt htu, ?_⟩
          by_contra h
          exact absurd (h2.trans_le (hhi (not_le.mp h))) (not_lt.mpr hbt.le)
      have hrest := hb t ((le_max_left _ _).trans_lt hbt) htu
      unfold sampleLeft sample at hrest ⊢
      rw [pick_cons, pick_cons, hrest]
      simp only [hiff]

/-- Two finite families that agree at every point shortly before `u` agree just before `u`. -/
theorem sampleLeft_congr [DenselyOrdered T] {lo hi : ι → T} {lab : ι → β} {lo' hi' : κ → T}
    {lab' : κ → β} {l : List ι} {l' : List κ} {a u : T} (ha : a < u)
    (h : ∀ t, a < t → t < u → sample lo hi lab l t = sample lo' hi' lab' l' t) :
    sampleLeft lo hi lab l u = sampleLeft lo' hi' lab' l' u := by
  obtain ⟨b, hab, hbu, hb⟩ := exists_sampleLeft_eq lo hi lab l ha
  obtain ⟨b', _, hbu', hb'⟩ := exists_sampleLeft_eq lo' hi' lab' l' ha
  obtain ⟨t, ht, htu⟩ := exists_between (max_lt hbu hbu')
  have hbt := (le_max_left _ _).trans_lt ht
  rw [hb t hbt htu, hb' t ((le_max_right _ _).trans_lt ht) htu, h t (hab.trans_lt hbt) htu]

end HalfOpen
