import Tidal.Proofs.StepJoinProofs
import Tidal.Proofs.TimeCatProofs

/-!
# Proofs: steps with weights of any sign

`timeCat` leaves out the steps whose weight is not positive, but measures the slots of the others by the sum
of all weights. The steps are laid end to end on a line all the same. What is heard of the line is its part
up to that sum, without the step that the end of this part cuts.
-/

namespace Tidal

open EventF

variable {Γ α : Type} {p : Pattern Γ α} {m : Γ} {a : Arc}

/-! ## The line of steps -/

/-- The values at `y` of steps laid end to end from `S` on, in cycle `c`. Those that end after `T` are not
played. -/
def lineValues (m : Γ) (c : ℤ) (T : Time) : Time → List (Time × Pattern Γ α) → Time → Multiset α
  | _, [], _ => 0
  | S, (w, p) :: l, y =>
    (if S + w ≤ T ∧ S ≤ y ∧ y < S + w then (behaviour p m (c + (y - S) / w)).map Prod.snd else 0) +
      lineValues m c T (S + w) l y

/-- Nothing is compressed into a slot that ends after the total, or that a negative total turns around. -/
theorem compressArc_slot {S w T : Time} (hw : 0 < w) (hT : T ≠ 0) (hfit : ¬S + w ≤ T) :
    Pattern.compressArc ⟨S / T, (S + w) / T⟩ p = Pattern.empty := by
  unfold Pattern.compressArc
  rcases lt_or_gt_of_ne hT with hneg | hpos
  · have hrev : (S + w) / T < S / T := by
      rw [div_lt_div_right_of_neg hneg]
      linarith
    rw [if_pos hrev]
  · have hlate : 1 < (S + w) / T := by
      rw [one_lt_div hpos]
      exact not_le.mp hfit
    have hlt : S / T < (S + w) / T := by
      rw [div_lt_div_iff_of_pos_right hpos]
      linarith
    rw [if_neg hlt.not_gt, if_pos (.inr hlate)]

/-- A slot is measured by a total, and is empty unless it lies within the cycle. -/
theorem playing_slot (hp : CutFree p) {S w T : Time} (hS : 0 ≤ S) (hw : 0 < w) (hT : T ≠ 0) {c : ℤ} {x : Time}
    (hx0 : 0 ≤ x) (hx1 : x < 1) (hat : isIn a (c + x)) :
    playing (Pattern.compressArc ⟨S / T, (S + w) / T⟩ p) m a (c + x) =
      if S + w ≤ T ∧ S ≤ x * T ∧ x * T < S + w then
        (behaviour p m (c + (x * T - S) / w)).map Prod.snd else 0 := by
  by_cases hfit : S + w ≤ T
  · have hT0 : 0 < T := by linarith
    have hlt : S / T < (S + w) / T := by
      rw [div_lt_div_iff_of_pos_right hT0]
      linarith
    have hstop : (S + w) / T ≤ 1 := by rwa [div_le_one hT0]
    have hiff : S / T ≤ x ∧ x < (S + w) / T ↔ S + w ≤ T ∧ S ≤ x * T ∧ x * T < S + w := by
      rw [div_le_iff₀ hT0, lt_div_iff₀ hT0, and_iff_right hfit]
    obtain ⟨q, hq, hact⟩ := act_compressArc (m := m) hp.isLocal (div_nonneg hS hT0.le) hlt hstop hx0 hx1 hat
    rw [playing, hact, if_congr hiff rfl rfl]
    split_ifs with hin
    · have hwidth : (S + w) / T - S / T = w / T := by ring
      have htime : (x - S / T) / ((S + w) / T - S / T) = (x * T - S) / w := by
        rw [hwidth]
        field_simp
      rw [hp.steady.act_eq m (hq (hiff.mpr hin)), htime, Multiset.map_map]
      rfl
    · rfl
  · rw [compressArc_slot hw hT hfit, if_neg fun h => hfit h.1]
    rfl

section Line

variable {T : Time} (hT : T ≠ 0) {c : ℤ} {x : Time} (hx0 : 0 ≤ x) (hx1 : x < 1) (hat : isIn a (c + x))
include hT hx0 hx1 hat

/-- The slots together play what the line has at the scaled position. -/
theorem playing_slots {l : List (Time × Pattern Γ α)} (hl : ∀ x ∈ l, 0 < x.1 ∧ CutFree x.2) {S : Time}
    (hS : 0 ≤ S) :
    ((arrange S l).map fun z => playing (Pattern.compressArc ⟨z.1 / T, z.2.1 / T⟩ z.2.2) m a (c + x)).sum =
      lineValues m c T S l (x * T) := by
  induction l generalizing S with
  | nil => rfl
  | cons y l ih =>
    obtain ⟨hw, hp⟩ := hl y (List.mem_cons_self ..)
    have hrest := ih (fun z hz => hl z (List.mem_cons_of_mem _ hz)) (S := S + y.1) (by linarith)
    rw [arrange, List.map_cons, List.sum_cons, playing_slot hp hS hw hT hx0 hx1 hat, hrest]
    rfl

theorem playing_timeCat {tps : List (Time × Pattern Γ α)} (hlen : tps.length ≠ 1)
    (hp : ∀ x ∈ tps, CutFree x.2) (hsum : (tps.map Prod.fst).sum = T) :
    playing (Pattern.timeCat tps) m a (c + x) =
      lineValues m c T 0 (tps.filter fun x => x.1 > 0) (x * T) := by
  have hl : ∀ x ∈ tps.filter fun x => x.1 > 0, 0 < x.1 ∧ CutFree x.2 := by
    intro y hy
    obtain ⟨hmem, hpos⟩ := List.mem_filter.mp hy
    exact ⟨by simpa using hpos, hp y hmem⟩
  rw [← playing_slots hT hx0 hx1 hat hl le_rfl, playing, act, timeCat_query hlen, hsum]
  show (act (Pattern.stack _) m a (c + x)).map Prod.snd = _
  rw [act_stack, List.map_map, ← Multiset.coe_mapAddMonoidHom, map_list_sum, List.map_map]
  rfl

end Line

/-- Steps of positive weight that are measured by their own sum. -/
theorem playing_timeCat_pos {l : List (Time × Pattern Γ α)} (hne : l ≠ []) (hl : ∀ x ∈ l, 0 < x.1)
    (hp : ∀ x ∈ l, CutFree x.2) {c : ℤ} {x : Time} (hx0 : 0 ≤ x) (hx1 : x < 1) (hat : isIn a (c + x)) :
    playing (Pattern.timeCat l) m a (c + x) =
      lineValues m c (l.map Prod.fst).sum 0 l (x * (l.map Prod.fst).sum) := by
  by_cases hlen : l.length = 1
  · obtain ⟨⟨w, p⟩, rfl⟩ := List.length_eq_one_iff.mp hlen
    have hw : 0 < w := hl _ (List.mem_singleton_self _)
    have hsteady := (hp _ (List.mem_singleton_self _)).steady
    have htime : (x * (w + 0) - 0) / w = x := by
      rw [add_zero, sub_zero, mul_div_cancel_right₀ _ hw.ne']
    have hin : 0 + w ≤ w + 0 ∧ 0 ≤ x * (w + 0) ∧ x * (w + 0) < 0 + w := by
      refine ⟨by linarith, by positivity, ?_⟩
      nlinarith
    show (act p m a (c + x)).map Prod.snd = (if _ then _ else _) + 0
    rw [add_zero, hsteady.act_eq m hat]
    simp only [List.map_cons, List.map_nil, List.sum_cons, List.sum_nil]
    rw [if_pos hin, htime]
  · have hsum : 0 < (l.map Prod.fst).sum := by
      refine List.sum_pos _ (fun w hw => ?_) (by simpa using hne)
      obtain ⟨y, hy, rfl⟩ := List.mem_map.mp hw
      exact hl y hy
    rw [playing_timeCat hsum.ne' hx0 hx1 hat hlen hp rfl,
      List.filter_eq_self.mpr fun y hy => by simpa using hl y hy]

/-! ## Steps that are ignored -/

/-- The steps of positive weight. -/
def positives (tps : List (Time × Pattern Γ α)) : List (Time × Pattern Γ α) := tps.filter fun x => x.1 > 0

/-- No division by zero, and the same values at every instant as without the steps that have no positive
weight. -/
structure StepsIgnored (tps : List (Time × Pattern Γ α)) : Prop where
  performs : Performs (Checked.timeCat (tps.map fun x => (x.1, Checked.ofPattern x.2))) (Pattern.timeCat tps)
  plays : ∀ m a t, isIn a t →
    playing (Pattern.timeCat tps) m a t = playing (Pattern.timeCat (positives tps)) m a t

variable {tps : List (Time × Pattern Γ α)}

theorem stepsIgnored_one (hlen : tps.length = 1) (hpos : ∃ x ∈ tps, 0 < x.1) : StepsIgnored tps := by
  obtain ⟨⟨w, p⟩, rfl⟩ := List.length_eq_one_iff.mp hlen
  obtain ⟨x, hx, hw⟩ := hpos
  obtain rfl := List.mem_singleton.mp hx
  have hfilter : positives [(w, p)] = [(w, p)] := List.filter_cons_of_pos (by simpa using hw)
  exact ⟨performs_ofPattern p, fun m a t _ => by rw [hfilter]⟩

/-- At every position `x` of a cycle, the line of steps has the same at `x` times the sum of all weights, if
no step is played that ends after it, as at `x` times the sum of the positive ones. -/
def SameLine (tps : List (Time × Pattern Γ α)) : Prop :=
  ∀ (m : Γ) (c : ℤ) (x : Time), 0 ≤ x → x < 1 →
    lineValues m c (tps.map Prod.fst).sum 0 (positives tps) (x * (tps.map Prod.fst).sum) =
      lineValues m c ((positives tps).map Prod.fst).sum 0 (positives tps)
        (x * ((positives tps).map Prod.fst).sum)

theorem stepsIgnored_several (hlen : tps.length ≠ 1) (hp : ∀ x ∈ tps, CutFree x.2) (hpos : ∃ x ∈ tps, 0 < x.1) :
    StepsIgnored tps ↔ (tps.map Prod.fst).sum ≠ 0 ∧ SameLine tps := by
  have hne : positives tps ≠ [] := by
    obtain ⟨x, hx, hw⟩ := hpos
    exact List.ne_nil_of_mem (List.mem_filter.mpr ⟨hx, by simpa using hw⟩)
  have hweight : ∀ x ∈ positives tps, 0 < x.1 := fun x hx => by simpa using (List.mem_filter.mp hx).2
  have hfree : ∀ x ∈ positives tps, CutFree x.2 := fun x hx => hp x (List.mem_filter.mp hx).1
  constructor
  · rintro ⟨hperforms, hplays⟩
    have hsum : (tps.map Prod.fst).sum ≠ 0 := by
      intro hzero
      obtain ⟨e, he⟩ := timeCat_raises hlen hpos hzero
      obtain ⟨c, hc, _⟩ := hperforms
      rw [he] at hc
      cases hc
    refine ⟨hsum, fun m c x hx0 hx1 => ?_⟩
    have hat : isIn (⟨c + x, c + x + 1⟩ : Arc) (c + x) := ⟨le_rfl, lt_add_one _⟩
    rw [← playing_timeCat_pos hne hweight hfree hx0 hx1 hat, ← hplays m _ _ hat,
      playing_timeCat hsum hx0 hx1 hat hlen hp rfl]
    rfl
  · rintro ⟨hsum, hline⟩
    refine ⟨timeCat_performs hlen fun h => hsum h.2, fun m a t hat => ?_⟩
    have ht : (⌊t⌋ : Time) + cyclePos t = t := sam_add_cyclePos t
    rw [← ht] at hat ⊢
    have h0 := cyclePos_nonneg t
    have h1 := cyclePos_lt_one t
    rw [playing_timeCat_pos hne hweight hfree h0 h1 hat, playing_timeCat hsum h0 h1 hat hlen hp rfl]
    exact hline m ⌊t⌋ (cyclePos t) h0 h1

theorem sum_positives {l : List (Time × Pattern Γ α)} (hl : ∀ x ∈ l, 0 ≤ x.1) :
    ((positives l).map Prod.fst).sum = (l.map Prod.fst).sum := by
  induction l with
  | nil => rfl
  | cons y l ih =>
    have hrest := ih fun z hz => hl z (List.mem_cons_of_mem _ hz)
    have hy := hl y (List.mem_cons_self ..)
    by_cases hpos : 0 < y.1
    · rw [positives, List.filter_cons_of_pos (by simpa using hpos), List.map_cons, List.map_cons,
        List.sum_cons, List.sum_cons]
      exact congrArg _ hrest
    · have hzero : y.1 = 0 := le_antisymm (not_lt.mp hpos) hy
      rw [positives, List.filter_cons_of_neg (by simpa using hpos), List.map_cons, List.sum_cons, hzero,
        zero_add]
      exact hrest

theorem stepsIgnored_of_nonneg (hp : ∀ x ∈ tps, CutFree x.2) (hpos : ∃ x ∈ tps, 0 < x.1)
    (hnonneg : ∀ x ∈ tps, 0 ≤ x.1) : StepsIgnored tps := by
  by_cases hlen : tps.length = 1
  · exact stepsIgnored_one hlen hpos
  · have hsum := sum_positives hnonneg
    refine (stepsIgnored_several hlen hp hpos).mpr ⟨?_, fun m c x _ _ => by rw [hsum]⟩
    obtain ⟨x, hx, hw⟩ := hpos
    have hle : x.1 ≤ (tps.map Prod.fst).sum :=
      List.single_le_sum (weights_nonneg hnonneg) _ (List.mem_map_of_mem hx)
    exact (hw.trans_le hle).ne'

/-- 'a@-1 b c': the total is 1, so that b takes the whole cycle and c is lost. -/
theorem not_stepsIgnored_negative : ¬StepsIgnored
    ([(-1, Pattern.pure 0), (1, Pattern.pure 1), (1, Pattern.pure 2)] : List (Time × Pattern Unit ℕ)) := by
  intro h
  exact absurd (h.plays () ⟨1 / 2, 1⟩ (1 / 2) (by norm_num [isIn])) (by with_unfolding_all decide)

/-! ## Weights alone -/

theorem sum_le_positives (l : List (Time × Pattern Γ α)) :
    (l.map Prod.fst).sum ≤ ((positives l).map Prod.fst).sum := by
  induction l with
  | nil => rfl
  | cons y l ih =>
    by_cases hpos : 0 < y.1
    · rw [positives, List.filter_cons_of_pos (by simpa using hpos)]
      exact add_le_add_right ih y.1
    · rw [positives, List.filter_cons_of_neg (by simpa using hpos), List.map_cons, List.sum_cons]
      have hy := not_lt.mp hpos
      unfold positives at ih
      linarith

theorem sum_lt_positives {l : List (Time × Pattern Γ α)} (hneg : ∃ x ∈ l, x.1 < 0) :
    (l.map Prod.fst).sum < ((positives l).map Prod.fst).sum := by
  obtain ⟨y, hy, hneg⟩ := hneg
  obtain ⟨l₁, l₂, rfl⟩ := List.append_of_mem hy
  have h₁ := sum_le_positives l₁
  have h₂ := sum_le_positives l₂
  rw [positives, List.filter_append, List.filter_cons_of_neg (by simpa using hneg.le), List.map_append,
    List.map_append, List.sum_append, List.sum_append, List.map_cons, List.sum_cons]
  unfold positives at h₁ h₂
  linarith

theorem lineValues_append (m : Γ) (c : ℤ) (T y : Time) (l l' : List (Time × Pattern Γ α)) (S : Time) :
    lineValues m c T S (l ++ l') y =
      lineValues m c T S l y + lineValues m c T (S + (l.map Prod.fst).sum) l' y := by
  induction l generalizing S with
  | nil => simp [lineValues]
  | cons z l ih =>
    simp only [List.cons_append, lineValues, ih, List.map_cons, List.sum_cons, add_assoc]

theorem lineValues_silence (m : Γ) (c : ℤ) (T y : Time) {l : List (Time × Pattern Γ α)}
    (hl : ∀ x ∈ l, x.2 = Pattern.silence) (S : Time) : lineValues m c T S l y = 0 := by
  induction l generalizing S with
  | nil => rfl
  | cons z l ih =>
    obtain ⟨w, p⟩ := z
    obtain rfl := hl _ (List.mem_cons_self ..)
    have hsilence : ∀ t, (behaviour Pattern.silence m t).map Prod.snd = (0 : Multiset α) := fun _ => rfl
    rw [lineValues, hsilence, ite_self, zero_add]
    exact ih (fun x hx => hl x (List.mem_cons_of_mem _ hx)) _

/-- The last weight that is positive. -/
theorem exists_last_pos {ws : List Time} (h : ∃ w ∈ ws, 0 < w) :
    ∃ l₁ w l₂, ws = l₁ ++ w :: l₂ ∧ 0 < w ∧ ∀ z ∈ l₂, z ≤ 0 := by
  induction ws using List.reverseRecOn with
  | nil =>
    obtain ⟨w, hw, _⟩ := h
    cases hw
  | append_singleton ws z ih =>
    by_cases hz : 0 < z
    · exact ⟨ws, z, [], rfl, hz, fun _ h => absurd h List.not_mem_nil⟩
    · obtain ⟨w, hw, hpos⟩ := h
      have hmem : w ∈ ws := by
        rcases List.mem_append.mp hw with hw | hw
        · exact hw
        · exact absurd (List.mem_singleton.mp hw ▸ hpos) hz
      obtain ⟨l₁, w', l₂, rfl, hw', hl₂⟩ := ih ⟨w, hmem, hpos⟩
      refine ⟨l₁, w', l₂ ++ [z], by simp, hw', fun y hy => ?_⟩
      rcases List.mem_append.mp hy with hy | hy
      · exact hl₂ y hy
      · exact (List.mem_singleton.mp hy).le.trans (not_lt.mp hz)

/-- Steps that play nothing. -/
def rests (ws : List Time) : List (Time × Pattern Γ α) := ws.map fun w => (w, Pattern.silence)

theorem weights_rests (ws : List Time) : (rests ws : List (Time × Pattern Γ α)).map Prod.fst = ws := by
  rw [rests, List.map_map]
  exact List.map_id ws

theorem of_mem_rests {ws : List Time} {x : Time × Pattern Γ α} (hx : x ∈ rests ws) :
    x.1 ∈ ws ∧ x.2 = Pattern.silence := by
  obtain ⟨w, hw, rfl⟩ := List.mem_map.mp hx
  exact ⟨hw, rfl⟩

/-- Only the last step of positive weight plays. -/
def solo (l₁ : List Time) (w : Time) (v : α) (l₂ : List Time) : List (Time × Pattern Γ α) :=
  rests l₁ ++ (w, Pattern.pure v) :: rests l₂

theorem weights_solo (l₁ : List Time) (w : Time) (v : α) (l₂ : List Time) :
    (solo l₁ w v l₂ : List (Time × Pattern Γ α)).map Prod.fst = l₁ ++ w :: l₂ := by
  rw [solo, List.map_append, List.map_cons, weights_rests, weights_rests]

theorem cutFree_solo (l₁ : List Time) (w : Time) (v : α) (l₂ : List Time) :
    ∀ x ∈ (solo l₁ w v l₂ : List (Time × Pattern Γ α)), CutFree x.2 := by
  have hsilence : CutFree (Pattern.silence : Pattern Γ α) :=
    cutFree_iff.mpr ⟨fun _ _ _ _ _ _ => rfl, fun _ _ _ _ _ => rfl⟩
  intro x hx
  rcases List.mem_append.mp hx with hx | hx
  · exact (of_mem_rests hx).2 ▸ hsilence
  · rcases List.mem_cons.mp hx with rfl | hx
    · exact (cyclewise_pure v).cutFree
    · exact (of_mem_rests hx).2 ▸ hsilence

theorem positives_solo (l₁ : List Time) {w : Time} (hw : 0 < w) (v : α) {l₂ : List Time}
    (hl₂ : ∀ z ∈ l₂, z ≤ 0) : (positives (solo l₁ w v l₂) : List (Time × Pattern Γ α)) =
      positives (rests l₁) ++ [(w, Pattern.pure v)] := by
  have hlast : (rests l₂ : List (Time × Pattern Γ α)).filter (fun x => x.1 > 0) = [] := by
    refine List.filter_eq_nil_iff.mpr fun x hx => ?_
    simpa using hl₂ _ (of_mem_rests hx).1
  rw [positives, solo, List.filter_append, List.filter_cons_of_pos (by simpa using hw), hlast]
  rfl

theorem lineValues_solo (m : Γ) (c : ℤ) (T y : Time) (l₁ : List Time) {w : Time} (hw : 0 < w) (v : α)
    {l₂ : List Time} (hl₂ : ∀ z ∈ l₂, z ≤ 0) {W : Time}
    (hW : W = ((positives (rests l₁) : List (Time × Pattern Γ α)).map Prod.fst).sum) :
    lineValues m c T 0 (positives (solo l₁ w v l₂)) y =
      if W + w ≤ T ∧ W ≤ y ∧ y < W + w then {v} else 0 := by
  have hsilent : lineValues m c T 0 (positives (rests l₁) : List (Time × Pattern Γ α)) y = 0 :=
    lineValues_silence m c T y (fun x hx => (of_mem_rests (List.mem_filter.mp hx).1).2) 0
  rw [positives_solo l₁ hw v hl₂, lineValues_append, hsilent, ← hW, zero_add, zero_add, lineValues, lineValues,
    add_zero, behaviour, act_pure v (isIn_now _), Multiset.map_singleton]

/-- With a negative weight among them, it is the last step of positive weight that is lost. -/
theorem not_stepsIgnored_solo (m : Γ) (l₁ : List Time) {w : Time} (hw : 0 < w) (v : α) {l₂ : List Time}
    (hl₂ : ∀ z ∈ l₂, z ≤ 0) (hneg : ∃ z ∈ l₁ ++ w :: l₂, z < 0) :
    ¬StepsIgnored (solo l₁ w v l₂ : List (Time × Pattern Γ α)) := by
  intro h
  have hmem : (w, Pattern.pure v) ∈ (solo l₁ w v l₂ : List (Time × Pattern Γ α)) := by
    rw [solo]
    exact List.mem_append_right _ (List.mem_cons_self ..)
  obtain ⟨z, hz, hneg⟩ := hneg
  rw [← weights_solo (Γ := Γ) l₁ w v l₂] at hz
  obtain ⟨y, hy, rfl⟩ := List.mem_map.mp hz
  have hlost := sum_lt_positives ⟨y, hy, hneg⟩
  have hlen : (solo l₁ w v l₂ : List (Time × Pattern Γ α)).length ≠ 1 := by
    intro hone
    obtain ⟨u, hu⟩ := List.length_eq_one_iff.mp hone
    rw [hu, List.mem_singleton] at hmem hy
    rw [hy, ← hmem] at hneg
    exact absurd hw hneg.not_gt
  obtain ⟨_, hline⟩ := (stepsIgnored_several hlen (cutFree_solo l₁ w v l₂) ⟨_, hmem, hw⟩).mp h
  set T := ((solo l₁ w v l₂ : List (Time × Pattern Γ α)).map Prod.fst).sum with hT
  set W := ((positives (rests l₁) : List (Time × Pattern Γ α)).map Prod.fst).sum with hW
  have hW0 : 0 ≤ W := by
    refine List.sum_nonneg fun z hz => ?_
    obtain ⟨x, hx, rfl⟩ := List.mem_map.mp hz
    have hpos : 0 < x.1 := by simpa using (List.mem_filter.mp hx).2
    exact hpos.le
  have hP : ((positives (solo l₁ w v l₂) : List (Time × Pattern Γ α)).map Prod.fst).sum = W + w := by
    rw [positives_solo l₁ hw v hl₂, List.map_append, List.sum_append]
    simp [hW]
  have hvalues (U y : Time) : lineValues m 0 U 0 (positives (solo l₁ w v l₂)) y =
      if W + w ≤ U ∧ W ≤ y ∧ y < W + w then {v} else 0 := lineValues_solo m 0 U y l₁ hw v hl₂ hW
  have hx : W / (W + w) * (W + w) = W := div_mul_cancel₀ _ (by linarith)
  have hat := hline m 0 (W / (W + w)) (by positivity) (by rw [div_lt_one (by linarith)]; linarith)
  rw [hP] at hat hlost
  rw [hvalues, hvalues, hx, if_neg fun h => absurd hlost h.1.not_gt, if_pos ⟨le_rfl, le_rfl, by linarith⟩] at hat
  exact absurd hat.symm (Multiset.singleton_ne_zero v)

/-- Whatever the steps play, those without a positive weight are ignored if and only if no weight is
negative. -/
theorem forall_stepsIgnored_iff [Nonempty Γ] [Nonempty α] {ws : List Time} (hpos : ∃ w ∈ ws, 0 < w) :
    (∀ tps : List (Time × Pattern Γ α), tps.map Prod.fst = ws → (∀ x ∈ tps, CutFree x.2) → StepsIgnored tps) ↔
      ∀ w ∈ ws, 0 ≤ w := by
  constructor
  · intro h
    by_contra hneg
    push Not at hneg
    obtain ⟨v⟩ := ‹Nonempty α›
    obtain ⟨m⟩ := ‹Nonempty Γ›
    obtain ⟨l₁, w, l₂, rfl, hw, hl₂⟩ := exists_last_pos hpos
    exact not_stepsIgnored_solo m l₁ hw v hl₂ hneg (h _ (weights_solo l₁ w v l₂) (cutFree_solo l₁ w v l₂))
  · rintro hnonneg tps rfl hp
    refine stepsIgnored_of_nonneg hp ?_ fun x hx => hnonneg _ (List.mem_map_of_mem hx)
    obtain ⟨w, hw, hwpos⟩ := hpos
    obtain ⟨x, hx, rfl⟩ := List.mem_map.mp hw
    exact ⟨x, hx, hwpos⟩

/-- A negative weight makes the total smaller than what is laid out by it: the last steps are lost and the
others are stretched. Whatever the steps play, they come out right exactly if there is none. Where there is one,
they do only if they still add up to something and what happens to them is not heard. -/
theorem stepsIgnored_iff (hp : ∀ x ∈ tps, CutFree x.2) (hpos : ∃ x ∈ tps, 0 < x.1) :
    (Nonempty Γ → Nonempty α →
      ((∀ tps' : List (Time × Pattern Γ α), tps'.map Prod.fst = tps.map Prod.fst → (∀ x ∈ tps', CutFree x.2) →
        StepsIgnored tps') ↔ ∀ x ∈ tps, 0 ≤ x.1)) ∧
    (StepsIgnored tps ↔ (∀ x ∈ tps, 0 ≤ x.1) ∨ (tps.map Prod.fst).sum ≠ 0 ∧ SameLine tps) := by
  constructor
  · intro _ _
    obtain ⟨x, hx, hw⟩ := hpos
    rw [forall_stepsIgnored_iff ⟨_, List.mem_map_of_mem hx, hw⟩, List.forall_mem_map]
  · by_cases hnonneg : ∀ x ∈ tps, 0 ≤ x.1
    · exact iff_of_true (stepsIgnored_of_nonneg hp hpos hnonneg) (.inl hnonneg)
    · rw [or_iff_right hnonneg]
      refine stepsIgnored_several (fun hlen => hnonneg fun x hx => ?_) hp hpos
      -- a step alone is the one of positive weight
      obtain ⟨u, rfl⟩ := List.length_eq_one_iff.mp hlen
      obtain ⟨y, hy, hw⟩ := hpos
      rw [List.mem_singleton.mp hx, ← List.mem_singleton.mp hy]
      exact hw.le

/-- 'a b@0 c', and the weights of 'a@-1 b c' -/
theorem stepsIgnored_zero :
    StepsIgnored
      ([(1, Pattern.pure 0), (0, Pattern.pure 1), (2, Pattern.pure 2)] : List (Time × Pattern Unit ℕ)) ∧
    ¬ ∀ tps : List (Time × Pattern Unit ℕ), tps.map Prod.fst = [-1, 1, 1] → (∀ x ∈ tps, CutFree x.2) →
      StepsIgnored tps := by
  have hpure (n : ℕ) : CutFree (Pattern.pure n : Pattern Unit ℕ) := (cyclewise_pure n).cutFree
  constructor
  · refine (stepsIgnored_iff ?_ ⟨_, List.mem_cons_self .., by norm_num⟩).2.mpr (.inl ?_)
    · simp [hpure]
    · simp
  · intro h
    have hfree : ∀ x ∈ ([(-1, Pattern.pure 0), (1, Pattern.pure 1), (1, Pattern.pure 2)] :
        List (Time × Pattern Unit ℕ)), CutFree x.2 := by simp [hpure]
    have hnonneg := ((stepsIgnored_iff hfree ⟨(1, Pattern.pure 1), by simp, by norm_num⟩).1 ⟨()⟩ ⟨0⟩).mp h
    exact absurd (hnonneg _ (List.mem_cons_self ..)) (by norm_num)

end Tidal
