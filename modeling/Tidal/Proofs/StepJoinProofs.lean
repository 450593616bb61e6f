import Tidal.StepJoin
import Tidal.Proofs.BehaviourProofs
import Tidal.Proofs.DivisionProofs
import Tidal.Proofs.StepwiseProofs

/-!
# Joining patterns without a tactus

A slice of a cycle without a tactus gets its share of the tactus of the others. Several slices without any
tactus among them are a division of zero by zero.
-/

namespace Tidal

open EventF

variable {Γ α β : Type}

/-! ## The slices of a cycle -/

theorem pos_of_mem_pairs {l : List Time} (hl : l.Pairwise (· < ·)) {x : Time × Time} (hx : x ∈ Pattern.pairs l) :
    x.1 < x.2 := by
  induction l with
  | nil => cases hx
  | cons s l ih =>
    cases l with
    | nil => cases hx
    | cons e l =>
      rcases List.mem_cons.mp hx with rfl | hx
      · exact List.rel_of_pairwise_cons hl (List.mem_cons_self ..)
      · exact ih hl.of_cons hx

theorem nodup_eraseDups (l : List Time) : l.eraseDups.Nodup := by
  induction hn : l.length using Nat.strong_induction_on generalizing l with
  | _ n ih =>
    cases l with
    | nil => simp
    | cons y l =>
      have hlt : (l.filter fun b => !b == y).length < n := by
        rw [← hn]
        exact Nat.lt_succ_of_le (List.length_filter_le ..)
      rw [List.eraseDups_cons]
      exact List.nodup_cons.mpr ⟨by simp [List.mem_eraseDups], ih _ hlt _ rfl⟩

/-- The points of a cycle in order. -/
theorem points_ordered (l : List Time) : (l.eraseDups.insertionSort (· ≤ ·)).Pairwise (· < ·) := by
  have hle := List.pairwise_insertionSort (α := Time) (· ≤ ·) l.eraseDups
  have hne : (l.eraseDups.insertionSort (· ≤ ·)).Nodup :=
    (List.perm_insertionSort _ _).nodup_iff.mpr (nodup_eraseDups l)
  exact (hle.and hne).imp fun h => lt_of_le_of_ne h.1 h.2

/-- The slices lie between consecutive points, of which the start and the end of the cycle are two. -/
theorem slices_between (evs : List (Event (Pattern Γ α))) :
    ∃ points : List Time, 0 ∈ points ∧ 1 ∈ points ∧ points.Pairwise (· < ·) ∧
      Pattern.slices evs = (Pattern.pairs points).map fun s =>
        (s.2 - s.1, Pattern.stack ((Pattern.fit s.1 s.2 evs).map EventF.value)) := by
  set points := (0 :: 1 :: evs.flatMap fun ev => [ev.part.start, ev.part.stop] : List Time) with hpoints
  have hmem : ∀ x ∈ points, x ∈ points.eraseDups.insertionSort (· ≤ ·) := by
    intro x hx
    exact (List.perm_insertionSort _ _).mem_iff.mpr (List.mem_eraseDups.mpr hx)
  exact ⟨points.eraseDups.insertionSort (· ≤ ·), hmem 0 (by simp [hpoints]), hmem 1 (by simp [hpoints]),
    points_ordered points, rfl⟩

/-- Every slice has a duration. -/
theorem slices_pos {evs : List (Event (Pattern Γ α))} {x : Time × Pattern Γ α} (hx : x ∈ Pattern.slices evs) :
    0 < x.1 := by
  obtain ⟨points, _, _, hlt, hslices⟩ := slices_between evs
  rw [hslices] at hx
  obtain ⟨s, hs, rfl⟩ := List.mem_map.mp hx
  exact sub_pos.mpr (pos_of_mem_pairs hlt hs)

/-- A cycle has at least one slice. -/
theorem slices_ne_nil (evs : List (Event (Pattern Γ α))) : Pattern.slices evs ≠ [] := by
  obtain ⟨points, h0, h1, _, hslices⟩ := slices_between evs
  intro hnil
  rw [hslices, List.map_eq_nil_iff] at hnil
  rcases points with _ | ⟨x, _ | ⟨y, l⟩⟩
  · cases h0
  · rw [List.mem_singleton] at h0 h1
    exact zero_ne_one (h0.trans h1.symm)
  · simp [Pattern.pairs] at hnil

/-! ## The weights -/

/-- Some slice has a tactus. -/
def Timed (xs : List (Time × Pattern Γ α)) : Prop := ∃ x ∈ xs, x.2.tactus.isSome

/-- The time of the slices with a tactus. -/
def occupied (xs : List (Time × Pattern Γ α)) : Time :=
  ((xs.filter fun x => x.2.tactus.isSome).map Prod.fst).sum

/-- The tactus of the slices together. -/
def steps (xs : List (Time × Pattern Γ α)) : ℚ := (xs.filterMap fun x => x.2.tactus).sum

variable {xs : List (Time × Pattern Γ α)}

theorem occupied_pos (hpos : ∀ x ∈ xs, 0 < x.1) (h : Timed xs) : 0 < occupied xs := by
  obtain ⟨x, hx, hsome⟩ := h
  refine List.sum_pos _ (fun d hd => ?_) ?_
  · obtain ⟨y, hy, rfl⟩ := List.mem_map.mp hd
    exact hpos y (List.mem_filter.mp hy).1
  · have hmem : x ∈ xs.filter fun x => x.2.tactus.isSome := List.mem_filter.mpr ⟨hx, hsome⟩
    simpa using List.ne_nil_of_mem hmem

theorem occupied_eq_zero (h : ¬ Timed xs) : occupied xs = 0 := by
  have hnil : (xs.filter fun x => x.2.tactus.isSome) = [] :=
    List.filter_eq_nil_iff.mpr fun x hx hsome => h ⟨x, hx, hsome⟩
  rw [occupied, hnil]
  rfl

/-- All weights are evaluated if some slice has a tactus. -/
theorem retime_timed (hpos : ∀ x ∈ xs, 0 < x.1) (h : Timed xs) :
    Checked.retime xs = (Pattern.retime xs).map fun x => (.ok x.1, x.2) := by
  have hne : occupied xs ≠ 0 := (occupied_pos hpos h).ne'
  have hratio : ratio (steps xs) (occupied xs) = .ok (steps xs / occupied xs) := ratio_of_ne hne
  rw [Checked.retime, Pattern.retime, List.map_map]
  refine List.map_congr_left fun x _ => ?_
  rw [Function.comp_apply]
  cases x.2.tactus with
  | none =>
    show ((do return x.1 * (← ratio (steps xs) (occupied xs))), x.2) = _
    rw [hratio]
    rfl
  | some t => rfl

/-- No weight is evaluated if no slice has a tactus. -/
theorem retime_untimed (h : ¬ Timed xs) :
    Checked.retime xs = xs.map fun x => (.error .RatioZeroDenominator, x.2) := by
  have hratio : ratio (steps xs) (occupied xs) = .error .RatioZeroDenominator := if_pos (occupied_eq_zero h)
  rw [Checked.retime]
  refine List.map_congr_left fun x hx => ?_
  have hnone : x.2.tactus = none := by
    by_contra hsome
    exact h ⟨x, hx, Option.isSome_iff_ne_none.mpr hsome⟩
  simp only [hnone]
  show ((do return x.1 * (← ratio (steps xs) (occupied xs))), x.2) = _
  rw [hratio]
  rfl

theorem sum_weights (c : ℚ) (xs : List (Time × Pattern Γ α)) :
    (xs.map fun x => match x.2.tactus with
      | some t => t
      | none => x.1 * c).sum = steps xs + ((xs.map Prod.fst).sum - occupied xs) * c := by
  induction xs with
  | nil => simp [steps, occupied]
  | cons x xs ih =>
    rw [List.map_cons, List.sum_cons, ih]
    cases h : x.2.tactus with
    | none => simp [steps, occupied, h]; ring
    | some t => simp [steps, occupied, h]; ring

/-- The slices without a tactus weigh as much as the others in proportion to their time. -/
theorem sum_retime (hpos : ∀ x ∈ xs, 0 < x.1) (h : Timed xs) :
    ((Pattern.retime xs).map Prod.fst).sum = (xs.map Prod.fst).sum * (steps xs / occupied xs) := by
  have hne := (occupied_pos hpos h).ne'
  have hweights : (Pattern.retime xs).map Prod.fst = xs.map fun x => match x.2.tactus with
      | some t => t
      | none => x.1 * (steps xs / occupied xs) := by
    rw [Pattern.retime, List.map_map]
    refine List.map_congr_left fun x _ => ?_
    rw [Function.comp_apply]
    cases x.2.tactus <;> rfl
  rw [hweights, sum_weights]
  field_simp
  ring

theorem mem_retime {w : Time} {p : Pattern Γ α} (h : (w, p) ∈ Pattern.retime xs) :
    p.tactus = some w ∨ ∃ d, w = d * (steps xs / occupied xs) := by
  obtain ⟨x, _, hx⟩ := List.mem_map.mp h
  cases ht : x.2.tactus with
  | none =>
    simp only [ht] at hx
    obtain ⟨rfl, rfl⟩ := Prod.mk.inj hx
    exact Or.inr ⟨x.1, rfl⟩
  | some t =>
    simp only [ht] at hx
    obtain ⟨rfl, rfl⟩ := Prod.mk.inj hx
    exact Or.inl ht

/-- Numbers that are not positive and add up to zero are zero. -/
theorem eq_zero_of_nonpos {l : List ℚ} (hl : ∀ t ∈ l, t ≤ 0) (hsum : l.sum = 0) : ∀ t ∈ l, t = 0 := by
  induction l with
  | nil => intro t ht; cases ht
  | cons s l ih =>
    obtain ⟨hs, hl⟩ := List.forall_mem_cons.mp hl
    have hle : l.sum ≤ 0 := by simpa using List.sum_le_card_nsmul l 0 hl
    rw [List.sum_cons] at hsum
    have hs0 : s = 0 := le_antisymm hs (by linarith)
    intro t ht
    rcases List.mem_cons.mp ht with rfl | ht
    · exact hs0
    · exact ih hl (by linarith) t ht

/-- A slice of positive weight, of no weight altogether: the tactus add up to zero without being zero. -/
theorem retime_divides_iff (hpos : ∀ x ∈ xs, 0 < x.1) (h : Timed xs) :
    ((∃ x ∈ Pattern.retime xs, 0 < x.1) ∧ ((Pattern.retime xs).map Prod.fst).sum = 0) ↔
      steps xs = 0 ∧ ∃ x ∈ xs, ∃ t, x.2.tactus = some t ∧ t ≠ 0 := by
  have hocc := occupied_pos hpos h
  have htime : 0 < (xs.map Prod.fst).sum := by
    obtain ⟨x, hx, _⟩ := h
    refine List.sum_pos _ (fun d hd => ?_) (by simpa using List.ne_nil_of_mem hx)
    obtain ⟨y, hy, rfl⟩ := List.mem_map.mp hd
    exact hpos y hy
  have hzero : ((Pattern.retime xs).map Prod.fst).sum = 0 ↔ steps xs = 0 := by
    rw [sum_retime hpos h, mul_eq_zero, div_eq_zero_iff, or_iff_right htime.ne', or_iff_left hocc.ne']
  rw [hzero, and_comm]
  refine and_congr_right fun hsteps => ⟨?_, ?_⟩
  · rintro ⟨⟨w, p⟩, hx, hw⟩
    obtain ⟨y, hy, hyx⟩ := List.mem_map.mp hx
    rcases mem_retime hx with ht | ⟨d, rfl⟩
    · refine ⟨y, hy, w, ?_, hw.ne'⟩
      cases hty : y.2.tactus with
      | none => simp only [hty] at hyx; rw [← hty, (Prod.mk.inj hyx).2, ht]
      | some s => simp only [hty] at hyx; rw [← hty, (Prod.mk.inj hyx).2, ht]
    · rw [hsteps, zero_div, mul_zero] at hw
      exact absurd hw (lt_irrefl _)
  · rintro ⟨x, hx, t, ht, hne⟩
    by_contra hnone
    refine hne (eq_zero_of_nonpos (fun s hs => ?_) hsteps t (List.mem_filterMap.mpr ⟨x, hx, ht⟩))
    obtain ⟨y, hy, hys⟩ := List.mem_filterMap.mp hs
    by_contra hpos
    refine hnone ⟨(s, y.2), List.mem_map.mpr ⟨y, hy, ?_⟩, not_le.mp hpos⟩
    simp only [hys]

/-! ## The slices, laid out -/

/-- The pattern is evaluated without an exception, and so is every answer of it, which is that of `q`. -/
def Performs (p : Result (Checked Γ α)) (q : Pattern Γ α) : Prop :=
  ∃ c, p = .ok c ∧ ∀ st, c.query st = .ok ((q.query st).map (EventF.map .ok))

theorem performs_ofPattern (q : Pattern Γ α) : Performs (Checked.ofPattern q) q := ⟨_, rfl, fun _ => rfl⟩

theorem Performs.congr {p : Result (Checked Γ α)} {q q' : Pattern Γ α} (h : Performs p q)
    (hq : q.query = q'.query) : Performs p q' := by
  obtain ⟨c, rfl, hc⟩ := h
  exact ⟨c, rfl, fun st => by rw [hc, hq]⟩

/-- A pattern that does not raise, read as one that does not come to a division by zero. -/
def undemanding (q : Pattern Γ α) : Demanding Γ α := ⟨Pattern.pattern q.query, False, fun _ => False, False⟩

theorem quiet_undemanding (q : Pattern Γ α) : Quiet (undemanding q) := ⟨id, fun _ => id⟩

theorem eq_of_sameEvents {es : List (Event (Result α))} {es' : List (Event α)}
    (h : SameEvents Returns es es') : es = es'.map (EventF.map .ok) := by
  induction h with
  | nil => rfl
  | cons he _ ih =>
    cases he with
    | mk c w p hv => rw [ih, List.map_cons, hv]; rfl

theorem agrees_ofPattern (q : Pattern Γ α) : Agrees Returns (Checked.ofPattern q) (undemanding q) := by
  refine Raises.of_ok ⟨fun st => Raises.of_ok ?_, none, rfl, .none⟩
  show List.Forall₂ _ ((q.query st).map _) (q.query st)
  rw [List.forall₂_map_left_iff]
  exact List.forall₂_same.mpr fun e _ => Same.mk e.context e.whole e.part rfl

theorem Agrees.performs {p : Result (Checked Γ α)} {d : Demanding Γ α} (h : Agrees Returns p d)
    (hd : Quiet d) : Performs p d.pattern := by
  obtain ⟨c, rfl, hc⟩ := h.returned hd.opens
  refine ⟨c, rfl, fun st => ?_⟩
  obtain ⟨es, hes, hsame⟩ := (hc.answers st).returned (hd.asks st)
  rw [hes, eq_of_sameEvents hsame]

/-- A stack is not evaluated if one of its patterns is not. -/
theorem stack_raises {ps : List (Result (Checked Γ α))} {e : ArithException} (h : .error e ∈ ps) :
    ∃ e', Checked.stack ps = .error e' := by
  induction ps with
  | nil => cases h
  | cons p ps ih =>
    show ∃ e', Checked.overlay p (Checked.stack ps) = .error e'
    cases p with
    | error e' => exact ⟨e', rfl⟩
    | ok c =>
      rcases List.mem_cons.mp h with h | h
      · cases h
      · obtain ⟨e', he'⟩ := ih h
        exact ⟨e', by rw [he']; rfl⟩

theorem compressArc_query_congr {p q : Pattern Γ α} (h : p.query = q.query) (a : Arc) :
    (Pattern.compressArc a p).query = (Pattern.compressArc a q).query := by
  unfold Pattern.compressArc
  split_ifs
  · rfl
  · rfl
  · rfl
  · unfold Pattern._fastGap
    split_ifs
    · rfl
    · simp only [h]
      rfl

/-- The slots of a total that is not zero. -/
theorem performs_slots {T : Time} (hT : T ≠ 0) {l : List (Time × Time × Pattern Γ α)}
    (hl : ∀ x ∈ l, x.1 < x.2.1) :
    Performs (Checked.stack (l.map fun x => do
        Checked.compressArc ⟨← ratio x.1 T, ← ratio x.2.1 T⟩ (Checked.ofPattern x.2.2)))
      (Pattern.stack (l.map fun x => Pattern.compressArc ⟨x.1 / T, x.2.1 / T⟩ x.2.2)) := by
  set ds := l.map fun x => Demanding.compressArc ⟨x.1 / T, x.2.1 / T⟩ (undemanding x.2.2) with hds
  have hagrees : List.Forall₂ (Agrees Returns) (l.map fun x => do
      Checked.compressArc ⟨← ratio x.1 T, ← ratio x.2.1 T⟩ (Checked.ofPattern x.2.2)) ds := by
    rw [hds, List.forall₂_map_left_iff, List.forall₂_map_right_iff]
    refine List.forall₂_same.mpr fun x hx => ?_
    simp only [ratio_of_ne hT, ok_bind]
    refine (agrees_ofPattern _).compressArc fun heq => (hl x hx).ne ?_
    exact (div_left_inj' hT).mp heq
  have hquiet : Quiet (Demanding.stack ds) := by
    refine Quiet.stack fun d hd => ?_
    obtain ⟨x, _, rfl⟩ := List.mem_map.mp hd
    exact (quiet_undemanding _).compressArc _
  refine ((Agrees.stack hagrees).performs hquiet).congr (funext fun st => ?_)
  show (Pattern.stack (ds.map Demanding.pattern)).query st = _
  rw [stack_query, stack_query, hds, List.map_map, List.flatMap_map, List.flatMap_map]
  refine List.flatMap_congr fun x _ => ?_
  have hquery : (undemanding x.2.2).pattern.query = x.2.2.query := rfl
  rw [Function.comp_apply, compressArc_pattern]
  exact congrFun (compressArc_query_congr hquery _) st

section TimeCat

variable {ws : List (Time × Pattern Γ α)}

theorem checked_timeCat (hlen : ws.length ≠ 1) :
    Checked.timeCat (ws.map fun x => (x.1, Checked.ofPattern x.2)) =
      Checked.stack ((arrange 0 (ws.filter fun x => x.1 > 0)).map fun x => do
        Checked.compressArc ⟨← ratio x.1 (ws.map Prod.fst).sum, ← ratio x.2.1 (ws.map Prod.fst).sum⟩
          (Checked.ofPattern x.2.2)) := by
  have hfst : ((ws.map fun x => (x.1, Checked.ofPattern x.2)).map Prod.fst) = ws.map Prod.fst := by
    rw [List.map_map]
    rfl
  have hslots : arrange 0 ((ws.map fun x => (x.1, Checked.ofPattern x.2)).filter fun x => x.1 > 0) =
      (arrange 0 (ws.filter fun x => x.1 > 0)).map fun z => (z.1, z.2.1, Checked.ofPattern z.2.2) := by
    rw [List.filter_map, ← arrange_map]
    rfl
  have hunfold : ∀ tps : List (Time × Result (Checked Γ α)), tps.length ≠ 1 → Checked.timeCat tps =
      Checked.stack ((arrange 0 (tps.filter fun x => x.1 > 0)).map fun x => do
        Checked.compressArc ⟨← ratio x.1 (tps.map Prod.fst).sum, ← ratio x.2.1 (tps.map Prod.fst).sum⟩
          x.2.2) := by
    intro tps htps
    match tps, htps with
    | [], _ => rfl
    | [_], h => exact absurd rfl h
    | _ :: _ :: _, _ => rfl
  rw [hunfold _ (by rwa [List.length_map]), hfst, hslots, List.map_map]
  rfl

theorem timeCat_query (hlen : ws.length ≠ 1) :
    (Pattern.timeCat ws).query =
      (Pattern.stack ((arrange 0 (ws.filter fun x => x.1 > 0)).map fun x =>
        Pattern.compressArc ⟨x.1 / (ws.map Prod.fst).sum, x.2.1 / (ws.map Prod.fst).sum⟩ x.2.2)).query := by
  rw [← arrange_eq]
  match ws, hlen with
  | [], _ => rfl
  | [_], h => exact absurd rfl h
  | _ :: _ :: _, _ => rfl

/-- Several patterns are laid out, unless something weighs more than zero and all of them weigh zero. -/
theorem timeCat_performs (hlen : ws.length ≠ 1)
    (h : ¬ ((∃ x ∈ ws, 0 < x.1) ∧ (ws.map Prod.fst).sum = 0)) :
    Performs (Checked.timeCat (ws.map fun x => (x.1, Checked.ofPattern x.2))) (Pattern.timeCat ws) := by
  rw [checked_timeCat hlen]
  by_cases hsum : (ws.map Prod.fst).sum = 0
  · have hnil : (ws.filter fun x => x.1 > 0) = [] := by
      refine List.filter_eq_nil_iff.mpr fun x hx hpos => h ⟨⟨x, hx, ?_⟩, hsum⟩
      simpa using hpos
    rw [hnil]
    refine ⟨_, rfl, fun st => ?_⟩
    rw [timeCat_query hlen, hnil]
    rfl
  · have hlt : ∀ x ∈ arrange 0 (ws.filter fun x => x.1 > 0), x.1 < x.2.1 := by
      intro z hz
      obtain ⟨x, hx, heq, _⟩ := of_mem_arrange hz
      have hpos : 0 < x.1 := by simpa using (List.mem_filter.mp hx).2
      rw [heq]
      exact lt_add_of_pos_right _ hpos
    exact (performs_slots hsum hlt).congr (timeCat_query hlen).symm

theorem timeCat_raises (hlen : ws.length ≠ 1) (hpos : ∃ x ∈ ws, 0 < x.1)
    (hsum : (ws.map Prod.fst).sum = 0) :
    ∃ e, Checked.timeCat (ws.map fun x => (x.1, Checked.ofPattern x.2)) = .error e := by
  rw [checked_timeCat hlen, hsum]
  obtain ⟨x, hx, hpos⟩ := hpos
  have hmem : x ∈ ws.filter fun x => x.1 > 0 := List.mem_filter.mpr ⟨hx, by simpa using hpos⟩
  cases hl : ws.filter fun x => x.1 > 0 with
  | nil =>
    rw [hl] at hmem
    cases hmem
  | cons y l => exact stack_raises (e := .RatioZeroDenominator) (List.mem_map.mpr ⟨_, List.mem_cons_self .., rfl⟩)

end TimeCat

/-! ## The join -/

/-- Slices that can be weighed: there is only one, or one has a tactus. -/
def Weighed (xs : List (Time × Pattern Γ α)) : Prop := xs.length = 1 ∨ Timed xs

/-- Slices that can be laid out: there is only one, or one has a tactus and the tactus of all of them do not
add up to zero without being zero. -/
def LaidOut (xs : List (Time × Pattern Γ α)) : Prop :=
  xs.length = 1 ∨ Timed xs ∧ ¬ (steps xs = 0 ∧ ∃ x ∈ xs, ∃ t, x.2.tactus = some t ∧ t ≠ 0)

theorem timeCatRetimed_one (x : Time × Pattern Γ α) :
    Performs (Checked.timeCatRetimed (Checked.retime [x])) (Pattern.timeCat (Pattern.retime [x])) := by
  rw [Checked.retime, Pattern.retime, List.map_singleton, List.map_singleton]
  cases x.2.tactus <;> exact performs_ofPattern x.2

theorem timeCatRetimed_ne_one {l : List (Result Time × Pattern Γ α)} (hlen : l.length ≠ 1) :
    Checked.timeCatRetimed l =
      (do Checked.timeCat (← l.mapM fun x => do return (← x.1, Checked.ofPattern x.2))) := by
  match l, hlen with
  | [], _ => rfl
  | [_], h => exact absurd rfl h
  | _ :: _ :: _, _ => rfl

theorem mapM_ok (ws : List (Time × Pattern Γ α)) :
    ((ws.map fun x => ((.ok x.1 : Result Time), x.2)).mapM fun x => do
      return (← x.1, Checked.ofPattern x.2)) =
        (.ok (ws.map fun x => (x.1, Checked.ofPattern x.2)) : Result _) := by
  induction ws with
  | nil => rfl
  | cons x ws ih => rw [List.map_cons, List.mapM_cons, ih]; rfl

/-- Slices that can be laid out play as they do without the checks. -/
theorem timeCatRetimed_performs (hpos : ∀ x ∈ xs, 0 < x.1) (h : LaidOut xs) :
    Performs (Checked.timeCatRetimed (Checked.retime xs)) (Pattern.timeCat (Pattern.retime xs)) := by
  by_cases hlen : xs.length = 1
  · obtain ⟨x, rfl⟩ := List.length_eq_one_iff.mp hlen
    exact timeCatRetimed_one x
  · obtain ⟨htimed, hdiv⟩ := h.resolve_left hlen
    have hlen' : (Pattern.retime xs).length ≠ 1 := by rwa [Pattern.retime, List.length_map]
    rw [retime_timed hpos htimed, timeCatRetimed_ne_one (by rwa [List.length_map]), mapM_ok, ok_bind]
    exact timeCat_performs hlen' fun hd => hdiv ((retime_divides_iff hpos htimed).mp hd)

theorem timeCatRetimed_raises (hne : xs ≠ []) (hpos : ∀ x ∈ xs, 0 < x.1) (h : ¬ LaidOut xs) :
    ∃ e, Checked.timeCatRetimed (Checked.retime xs) = .error e := by
  rw [LaidOut, not_or] at h
  obtain ⟨hlen, hdiv⟩ := h
  by_cases htimed : Timed xs
  · have hdiv' := (retime_divides_iff hpos htimed).mpr (not_not.mp fun hd => hdiv ⟨htimed, hd⟩)
    have hlen' : (Pattern.retime xs).length ≠ 1 := by rwa [Pattern.retime, List.length_map]
    rw [retime_timed hpos htimed, timeCatRetimed_ne_one (by rwa [List.length_map]), mapM_ok, ok_bind]
    exact timeCat_raises hlen' hdiv'.1 hdiv'.2
  · rw [retime_untimed htimed, timeCatRetimed_ne_one (by rwa [List.length_map])]
    cases xs with
    | nil => exact absurd rfl hne
    | cons x xs => exact ⟨_, rfl⟩

/-- The tactus needs the weights, not their proportions. -/
theorem tactusRetimed_eq (hpos : ∀ x ∈ xs, 0 < x.1) (h : Weighed xs) :
    Checked.tactusRetimed (Checked.retime xs) = (Pattern.timeCat (Pattern.retime xs)).tactus.map .ok := by
  by_cases hlen : xs.length = 1
  · obtain ⟨x, rfl⟩ := List.length_eq_one_iff.mp hlen
    rw [Checked.retime, Pattern.retime, List.map_singleton, List.map_singleton]
    cases hx : x.2.tactus <;> simp [Checked.tactusRetimed, Pattern.timeCat, hx]
  · have hmapM : ∀ ws : List (Time × Pattern Γ α),
        (ws.map fun x => ((.ok x.1 : Result Time), x.2)).mapM Prod.fst = .ok (ws.map Prod.fst) := by
      intro ws
      induction ws with
      | nil => rfl
      | cons x ws ih => rw [List.map_cons, List.mapM_cons, ih]; rfl
    have hlen' : (Pattern.retime xs).length ≠ 1 := by rwa [Pattern.retime, List.length_map]
    rw [retime_timed hpos (h.resolve_left hlen)]
    generalize Pattern.retime xs = ws at hlen'
    have htactus : Checked.tactusRetimed (ws.map fun x => ((.ok x.1 : Result Time), x.2)) =
        some (do return (← (ws.map fun x => ((.ok x.1 : Result Time), x.2)).mapM Prod.fst).sum) := by
      rcases ws with _ | ⟨w, _ | ⟨w', ws⟩⟩
      · rfl
      · exact absurd rfl hlen'
      · rfl
    rw [htactus, hmapM]
    rcases ws with _ | ⟨w, _ | ⟨w', ws⟩⟩
    · rfl
    · exact absurd rfl hlen'
    · rfl

theorem tactusRetimed_raises (hne : xs ≠ []) (h : ¬ Weighed xs) :
    ∃ e, Checked.tactusRetimed (Checked.retime xs) = some (.error e) := by
  rw [Weighed, not_or] at h
  rw [retime_untimed h.2]
  match xs, hne, h.1 with
  | [_], _, h => exact absurd rfl h
  | _ :: _ :: _, _, _ => exact ⟨_, rfl⟩

/-- The events of the cycle in which the query starts. -/
def cycleEvents (p : Pattern Γ α) (st : State Γ) : List (Event α) :=
  (Pattern.rotL (sam st.arc.start) p).query ⟨⟨0, 1⟩, st.controls⟩

section Join

variable [EmptyCollection Γ]

theorem stepJoin_returns (pp : Pattern Γ (Pattern Γ α)) (st : State Γ)
    (h : LaidOut (Pattern.slices (cycleEvents pp st))) :
    (Checked.stepJoin pp).query st = .ok (((Pattern.stepJoin pp).query st).map (EventF.map .ok)) := by
  obtain ⟨c, hc, hquery⟩ := timeCatRetimed_performs (fun _ => slices_pos) h
  show (do (← Checked.timeCatRetimed (Checked.retime (Pattern.slices (cycleEvents pp st)))).query st) = _
  rw [hc, ok_bind, hquery]
  rfl

theorem stepJoin_raises (pp : Pattern Γ (Pattern Γ α)) (st : State Γ)
    (h : ¬ LaidOut (Pattern.slices (cycleEvents pp st))) :
    ∃ e, (Checked.stepJoin pp).query st = .error e := by
  obtain ⟨e, he⟩ := timeCatRetimed_raises (slices_ne_nil _) (fun _ => slices_pos) h
  refine ⟨e, ?_⟩
  show (do (← Checked.timeCatRetimed (Checked.retime (Pattern.slices (cycleEvents pp st)))).query st) = _
  rw [he]
  rfl

theorem stepJoin_returns_iff (pp : Pattern Γ (Pattern Γ α)) (st : State Γ) :
    (∃ es, (Checked.stepJoin pp).query st = .ok es) ↔ LaidOut (Pattern.slices (cycleEvents pp st)) := by
  constructor
  · rintro ⟨es, hes⟩
    by_contra h
    obtain ⟨e, he⟩ := stepJoin_raises pp st h
    rw [he] at hes
    cases hes
  · intro h
    exact ⟨_, stepJoin_returns pp st h⟩

theorem tactus_returns_iff (pp : Pattern Γ (Pattern Γ α)) :
    (∀ r ∈ (Checked.stepJoin pp).tactus, ∃ t, r = .ok t) ↔
      Weighed (Pattern.slices (Pattern.queryArc pp ⟨0, 1⟩)) := by
  constructor
  · intro hok
    by_contra h
    obtain ⟨e, he⟩ := tactusRetimed_raises (slices_ne_nil _) h
    obtain ⟨t, ht⟩ := hok (.error e) he
    cases ht
  · intro h r hr
    rw [Checked.stepJoin, tactusRetimed_eq (fun _ => slices_pos) h] at hr
    obtain ⟨t, _, rfl⟩ := Option.mem_map.mp hr
    exact ⟨t, rfl⟩

end Join

/-! ## Patterns without a tactus -/

/-- A cycle of one slice is not broken up. -/
theorem slices_of_length_one {evs : List (Event (Pattern Γ α))} (h : (Pattern.slices evs).length = 1) :
    Pattern.slices evs = [(1, Pattern.stack ((Pattern.fit 0 1 evs).map EventF.value))] := by
  obtain ⟨points, h0, h1, hlt, hslices⟩ := slices_between evs
  rw [hslices] at h ⊢
  rw [List.length_map] at h
  match points, h with
  | [x, y], _ =>
    have hxy : x < y := List.rel_of_pairwise_cons hlt (List.mem_singleton_self y)
    rw [List.mem_cons, List.mem_singleton] at h0 h1
    obtain ⟨rfl, rfl⟩ : 0 = x ∧ 1 = y := by
      rcases h0 with rfl | rfl
      · rcases h1 with h1 | h1
        · exact absurd h1 one_ne_zero
        · exact ⟨rfl, h1⟩
      · rcases h1 with rfl | h1
        · exact absurd hxy (by norm_num)
        · exact absurd h1 one_ne_zero
    simp [Pattern.pairs]

theorem fit_map (f : α → β) (s e : Time) (es : List (Event α)) :
    Pattern.fit s e (es.map (EventF.map f)) = (Pattern.fit s e es).map (EventF.map f) := by
  rw [Pattern.fit, Pattern.fit, List.filterMap_map, List.map_filterMap]
  refine List.filterMap_congr fun ev _ => ?_
  rw [Function.comp_apply, Pattern.match', Pattern.match']
  show (subArc ⟨s, e⟩ ev.part).bind _ = ((subArc ⟨s, e⟩ ev.part).bind _).map _
  cases subArc ⟨s, e⟩ ev.part <;> rfl

theorem cycleEvents_fmap (f : α → β) (pa : Pattern Γ α) (st : State Γ) :
    cycleEvents (Pattern.fmap f pa) st = (cycleEvents pa st).map (EventF.map f) := by
  show ((pa.query _).map _).map _ = ((pa.query _).map _).map _
  rw [List.map_map, List.map_map]
  rfl

/-- Copies of a pattern without a tactus have none. -/
theorem not_timed_const {p : Pattern Γ α} (hp : p.tactus = none) (evs : List (Event β)) :
    ¬ Timed (Pattern.slices (evs.map (EventF.map fun _ => p))) := by
  rintro ⟨x, hx, hsome⟩
  obtain ⟨s, _, rfl⟩ := List.mem_map.mp hx
  rw [fit_map, List.map_map] at hsome
  have hcopies : ∀ l : List (Event β), Pattern.lcmTactus (l.map (EventF.value ∘ EventF.map fun _ => p)) = none := by
    intro l
    cases l with
    | nil => rfl
    | cons e l =>
      have hmapM : ((e :: l).map (EventF.value ∘ EventF.map fun _ => p)).mapM Pattern.tactus = none := by
        rw [List.map_cons, List.mapM_cons]
        show (p.tactus >>= _) = none
        rw [hp]
        rfl
      rw [Pattern.lcmTactus, hmapM]
  have hnone := hcopies (Pattern.fit s.1 s.2 evs)
  simp only [Pattern.stack, hnone, Option.isSome_none, Bool.false_eq_true] at hsome

/-- The plain functions return a pattern without a tactus as it is. -/
theorem plain_untimed {f : ℚ → Pattern Γ α → Pattern Γ α}
    (hf : f ∈ [Pattern._s_add, Pattern._s_sub, Pattern._s_expand, Pattern._s_contract]) (r : ℚ)
    {p : Pattern Γ α} (hp : p.tactus = none) : f r p = p := by
  simp only [List.mem_cons, List.not_mem_nil, or_false] at hf
  obtain ⟨q, tactus, v⟩ := p
  obtain rfl : tactus = none := hp
  rcases hf with rfl | rfl | rfl | rfl <;> rfl

theorem stepJoin_query [EmptyCollection Γ] (pp : Pattern Γ (Pattern Γ α)) (st : State Γ) :
    (Pattern.stepJoin pp).query st =
      (Pattern.timeCat (Pattern.retime (Pattern.slices (cycleEvents pp st)))).query st := rfl

/-- One slice plays the pattern once for each of its events. -/
theorem stepJoin_const_query [EmptyCollection Γ] {pa : Pattern Γ β} {p : Pattern Γ α} {st : State Γ}
    (h : (Pattern.slices (cycleEvents (Pattern.fmap (fun _ => p) pa) st)).length = 1) :
    (Pattern.stepJoin (Pattern.fmap (fun _ => p) pa)).query st =
      (List.replicate (Pattern.fit 0 1 (cycleEvents pa st)).length (p.query st)).flatten := by
  rw [stepJoin_query, slices_of_length_one h, timeCat_retime_one, stack_query, cycleEvents_fmap, fit_map,
    List.map_map, List.flatMap_map, List.flatMap_def]
  congr 1
  rw [← List.map_const']
  rfl

/-- A pattern without a tactus is passed through a patterned argument that has one event in the cycle, which
lasts for the cycle. -/
theorem pass_through_iff [EmptyCollection Γ] {f : ℚ → Pattern Γ α → Pattern Γ α}
    (hf : f ∈ [Pattern._s_add, Pattern._s_sub, Pattern._s_expand, Pattern._s_contract])
    {pa : Pattern Γ ℚ} (hpa : pa.pureValue = none) {p : Pattern Γ α} (hp : p.tactus = none) (st : State Γ) :
    (Checked.s_patternify (Pattern.strict f) pa p).query st = .ok ((p.query st).map (EventF.map .ok)) ↔
      (Pattern.slices (cycleEvents (Pattern.fmap (fun _ => p) pa) st)).length = 1 ∧
        ((Pattern.fit 0 1 (cycleEvents pa st)).length = 1 ∨ p.query st = []) := by
  have hconst : (fun a => Pattern.strict f (some a) p) = fun _ => p := funext fun r => plain_untimed hf r hp
  have hjoin : Checked.s_patternify (Pattern.strict f) pa p =
      Checked.stepJoin (Pattern.fmap (fun _ => p) pa) := by
    rw [Checked.s_patternify, hpa]
    simp only [hconst]
  have hlaid : LaidOut (Pattern.slices (cycleEvents (Pattern.fmap (fun _ => p) pa) st)) ↔
      (Pattern.slices (cycleEvents (Pattern.fmap (fun _ => p) pa) st)).length = 1 := by
    rw [cycleEvents_fmap]
    exact or_iff_left fun h => not_timed_const hp _ h.1
  rw [hjoin]
  constructor
  · intro h
    have hone := hlaid.mp ((stepJoin_returns_iff _ _).mp ⟨_, h⟩)
    refine ⟨hone, ?_⟩
    rw [stepJoin_returns _ _ (hlaid.mpr hone), stepJoin_const_query hone] at h
    have hlen := congrArg List.length (Except.ok.inj h)
    rw [List.length_map, List.length_map, List.length_flatten, List.map_replicate, List.sum_replicate,
      smul_eq_mul] at hlen
    rcases Nat.eq_zero_or_pos (p.query st).length with h0 | hpos
    · exact Or.inr (List.length_eq_zero_iff.mp h0)
    · exact Or.inl (Nat.eq_of_mul_eq_mul_right hpos (hlen.trans (Nat.one_mul _).symm))
  · rintro ⟨hone, h⟩
    rw [stepJoin_returns _ _ (hlaid.mpr hone), stepJoin_const_query hone]
    rcases h with h | h
    · rw [h]
      simp
    · rw [h]
      simp

/-- A stepwise join divides by zero exactly if the cycle has several slices, and none of them has a tactus or
their tactus add up to zero without being zero; its tactus, if there are several slices and none has a tactus.
Otherwise it plays what it plays without the checks. A pattern without a tactus is passed through a patterned
argument of a stepwise function exactly if the cycle has one slice, with one event, or if the pattern is
silent. -/
theorem stepJoin_divides_iff [EmptyCollection Γ] (pp : Pattern Γ (Pattern Γ α)) (st : State Γ) :
    ((∃ es, (Checked.stepJoin pp).query st = .ok es) ↔ LaidOut (Pattern.slices (cycleEvents pp st))) ∧
    (LaidOut (Pattern.slices (cycleEvents pp st)) →
      (Checked.stepJoin pp).query st = .ok (((Pattern.stepJoin pp).query st).map (EventF.map .ok))) ∧
    ((∀ r ∈ (Checked.stepJoin pp).tactus, ∃ t, r = .ok t) ↔
      Weighed (Pattern.slices (Pattern.queryArc pp ⟨0, 1⟩))) ∧
    (Weighed (Pattern.slices (Pattern.queryArc pp ⟨0, 1⟩)) →
      (Checked.stepJoin pp).tactus = (Pattern.stepJoin pp).tactus.map .ok) ∧
    ∀ f ∈ ([Pattern._s_add, Pattern._s_sub, Pattern._s_expand, Pattern._s_contract] :
        List (ℚ → Pattern Γ α → Pattern Γ α)), ∀ (pa : Pattern Γ ℚ) (p : Pattern Γ α),
      pa.pureValue = none → p.tactus = none → (∀ r, f r p = p) ∧
        ((Checked.s_patternify (Pattern.strict f) pa p).query st = .ok ((p.query st).map (EventF.map .ok)) ↔
          (Pattern.slices (cycleEvents (Pattern.fmap (fun _ => p) pa) st)).length = 1 ∧
            ((Pattern.fit 0 1 (cycleEvents pa st)).length = 1 ∨ p.query st = [])) := by
  refine ⟨stepJoin_returns_iff pp st, stepJoin_returns pp st, tactus_returns_iff pp, fun h => ?_,
    fun f hf pa p hpa hp => ⟨fun r => plain_untimed hf r hp, pass_through_iff hf hpa hp st⟩⟩
  exact tactusRetimed_eq (fun _ => slices_pos) h

/-- Two numbers to a cycle. -/
def oneTwo : Pattern Controls ℚ := Pattern.fastCat [Pattern.pure 1, Pattern.pure 2]

/-- Two voices, without a tactus. -/
def untimed : Pattern Controls ℕ := Pattern.overlay (Pattern.pure 0) (Pattern.pure 1)

/-- A patterned number of steps of a pattern without a tactus is a division by zero, a plain number of steps
is not. -/
theorem s_add_untimed_raises :
    oneTwo.pureValue = none ∧ untimed.tactus = none ∧ Pattern._s_add 1 untimed = untimed ∧
    (∃ e, (Checked.s_patternify (Pattern.strict Pattern._s_add) oneTwo untimed).query ⟨⟨0, 1⟩, ∅⟩ =
      .error e) ∧
    ∃ e, (Checked.s_patternify (Pattern.strict Pattern._s_add) oneTwo untimed).tactus = some (.error e) := by
  refine ⟨rfl, rfl, rfl, ⟨.RatioZeroDenominator, ?_⟩, ⟨.RatioZeroDenominator, ?_⟩⟩
  · with_unfolding_all decide
  · with_unfolding_all decide

end Tidal
