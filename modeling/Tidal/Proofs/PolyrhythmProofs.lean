import Tidal.ParseBP
import Tidal.Proofs.TimeCatProofs

/-!
# Proofs: polymetric sequences

The steps of a polymeter are a `timeCat` of one cycle, sped up so that `r` of its weight go by in every
cycle. One cycle of the steps is `W / r` cycles long, and within it every step has its slot.
-/

namespace Tidal

open TPat

variable {Γ α : Type} {m : Γ} {a : Arc} {t : Time}

/-! ## Steps -/

/-- A value, and where it is written. -/
structure Atom (α : Type) where
  loc : Option ((ℤ × ℤ) × (ℤ × ℤ))
  x : α

/-- An atom, perhaps held for some weight or repeated. -/
inductive Step (α : Type) where
  | once (x : Atom α)
  | elongated (r : ℚ) (hr : 0 < r) (x : Atom α)
  | repeated (n : ℤ) (hn : 0 < n) (x : Atom α)

def Atom.tree (x : Atom α) : TPat α := TPat_Atom x.loc x.x

namespace Step

def tree : Step α → TPat α
  | once x => x.tree
  | elongated r _ x => TPat_Elongate r x.tree
  | repeated n _ x => TPat_Repeat n x.tree

/-- The weighted atoms that the step stands for. -/
def expand : Step α → List (ℚ × Atom α)
  | once x => [(1, x)]
  | elongated r _ x => [(r, x)]
  | repeated n _ x => List.replicate n.toNat (1, x)

theorem expand_pos (s : Step α) : ∀ z ∈ s.expand, 0 < z.1 := by
  intro z hz
  cases s with
  | once x =>
    obtain rfl := List.mem_singleton.mp hz
    exact one_pos
  | elongated r hr x =>
    obtain rfl := List.mem_singleton.mp hz
    exact hr
  | repeated n hn x =>
    obtain rfl := List.eq_of_mem_replicate hz
    exact one_pos

theorem expand_ne_nil (s : Step α) : s.expand ≠ [] := by
  cases s with
  | once x => exact List.cons_ne_nil _ _
  | elongated r hr x => exact List.cons_ne_nil _ _
  | repeated n hn x => simp only [expand, ne_eq, List.replicate_eq_nil_iff]; omega

end Step

/-- The weighted atoms of a sequence of steps. -/
def atoms (steps : List (Step α)) : List (ℚ × Atom α) := steps.flatMap Step.expand

theorem atoms_pos (steps : List (Step α)) : ∀ z ∈ atoms steps, 0 < z.1 := by
  intro z hz
  obtain ⟨s, _, hz⟩ := List.mem_flatMap.mp hz
  exact s.expand_pos z hz

theorem atoms_ne_nil {steps : List (Step α)} (hne : steps ≠ []) : atoms steps ≠ [] := by
  intro h
  obtain ⟨s, steps, rfl⟩ := List.exists_cons_of_ne_nil hne
  exact s.expand_ne_nil (List.flatMap_eq_nil_iff.mp h s (List.mem_cons_self ..))

section Weights

/-- The weights of the atoms. -/
def weights (steps : List (Step α)) : List ℚ := (atoms steps).map Prod.fst

theorem weights_pos {steps : List (Step α)} : ∀ w ∈ weights steps, 0 < w := by
  intro w hw
  obtain ⟨z, hz, rfl⟩ := List.mem_map.mp hw
  exact atoms_pos steps z hz

theorem sum_weights_pos {steps : List (Step α)} (hne : steps ≠ []) : 0 < (weights steps).sum :=
  List.sum_pos _ weights_pos (by simpa [weights] using atoms_ne_nil hne)

end Weights

/-! ## Their patterns -/

theorem act_setContext (c : Context) (p : Pattern Γ α) :
    act (Pattern.setContext c p) m a t = act p m a t := by
  have h : activeIn ((p.query ⟨a, m⟩).map fun e => { e with context := c }) t =
      (activeIn (p.query ⟨a, m⟩) t).map id := HalfOpen.pick_map (fun _ _ => Iff.rfl) fun _ _ _ => rfl
  exact h.trans (Multiset.map_id _)

theorem cyclewise_setContext (c : Context) {p : Pattern Γ α} (h : Cyclewise p) :
    Cyclewise (Pattern.setContext c p) where
  digital a m ha e he := by
    obtain ⟨e', he', rfl⟩ := List.mem_map.mp he
    exact h.digital a m ha e' he'
  inWhole a m ha e he := by
    obtain ⟨e', he', rfl⟩ := List.mem_map.mp he
    exact h.inWhole a m ha e' he'
  single a m ha e he := by
    obtain ⟨e', he', rfl⟩ := List.mem_map.mp he
    exact h.single a m ha e' he'
  cutFree := by
    refine cutFree_iff.mpr ⟨fun a b m t ha hb => ?_, fun a m t ha ht => ?_⟩
    · rw [act_setContext, act_setContext, h.cutFree.steady a b m t ha hb]
    · rw [act_setContext, h.cutFree.isLocal a m t ha ht]

section Patterns

variable [Parseable α] [Enumerable α] (I : Interpretation (Pattern Γ))

/-- The patterns of the atoms, with their weights. -/
def atomPats (steps : List (Step α)) : List (ℚ × Pattern Γ α) :=
  (atoms steps).map fun z => (z.1, toPat (patterns I) z.2.tree)

theorem sized_pats_steps (steps : List (Step α)) :
    sized_pats (patterns I) (TPats.ofList (steps.map Step.tree)) = atomPats I steps := by
  rw [sized_pats_eq, atomPats]
  induction steps with
  | nil => rfl
  | cons s steps ih =>
    rw [atoms, List.flatMap_cons, ← atoms, List.map_append, ← ih, List.map_cons]
    cases s with
    | once x => rfl
    | elongated r hr x => rfl
    | repeated n hn x =>
      rw [Step.tree, resolve_size, List.map_append, List.map_replicate, Step.expand, List.map_replicate]

theorem act_atom (x : Atom α) (hat : isIn a t) :
    act (toPat (patterns I) x.tree) m a t = {(some (timeToCycleArc t), x.x)} := by
  obtain ⟨loc, v⟩ := x
  cases loc with
  | none => exact act_pure v hat
  | some loc => exact (act_setContext _ _).trans (act_pure v hat)

theorem cyclewise_atom (x : Atom α) : Cyclewise (toPat (patterns I) x.tree) := by
  obtain ⟨loc, v⟩ := x
  cases loc with
  | none => exact cyclewise_pure v
  | some loc => exact cyclewise_setContext _ (cyclewise_pure v)

/-- The polymeter of a single sequence plays the sequence at a rate that fits its weight. -/
theorem act_polyrhythm {r : ℚ} (hr : 0 < r) {steps : List (Step α)} (hne : steps ≠ []) :
    act (toPat (patterns I) (TPat_Polyrhythm (some (TPat_Atom none r))
        (TPats.ofList [TPat_Seq (TPats.ofList (steps.map Step.tree))]))) m a t =
      act (Pattern._fastForward (r / (weights steps).sum) (Pattern.timeCat (atomPats I steps))) m a t := by
  have hrate : 0 < r / (weights steps).sum := div_pos hr (sum_weights_pos hne)
  have hfast := fast_of_pos hrate (Pattern.timeCat (atomPats I steps))
  have hseq : sequencePat (patterns I) (sized_pats (patterns I) (TPats.ofList (steps.map Step.tree))) =
      ((weights steps).sum, Pattern.timeCat (atomPats I steps)) := by
    rw [sized_pats_steps, sequencePat, atomPats, List.map_map]
    rfl
  rw [toPat, TPats.ofList, resolve_tpats, hseq, ← hfast]
  exact (act_stack _).trans (add_zero _)

end Patterns

/-! ## Polymeters -/

section Polymeter

variable [Parseable α] [Enumerable α]

/-- **Polymetric sequences play their steps in order at the given rate.** -/
theorem polyrhythm_plays (I : Interpretation (Pattern Γ)) (r : ℚ) (hr : 0 < r) (steps : List (Step α))
    (hne : steps ≠ []) (m : Γ) (t : Time) :
    let W := (weights steps).sum
    let k := ⌊t * r / W⌋
    (∃! i, Slots.InSlot (weights steps) (t * r - k * W) i) ∧
      ∀ i, ∀ hi : i < (atoms steps).length, Slots.InSlot (weights steps) (t * r - k * W) i →
        ∀ a, isIn a t →
          act (toPat (patterns I) (TPat_Polyrhythm (some (TPat_Atom none r))
              (TPats.ofList [TPat_Seq (TPats.ofList (steps.map Step.tree))]))) m a t =
            {(some ⟨(k * W + Slots.before (weights steps) i) / r,
              (k * W + Slots.before (weights steps) (i + 1)) / r⟩, (atoms steps)[i].2.x)} := by
  intro W k
  have hW : 0 < W := sum_weights_pos hne
  have hx0 : 0 ≤ Int.fract (t * r / W) := Int.fract_nonneg _
  have hx1 : Int.fract (t * r / W) < 1 := Int.fract_lt_one _
  have hpos : t * r - k * W = Int.fract (t * r / W) * W := by
    rw [Int.fract, sub_mul, div_mul_cancel₀ _ hW.ne']
  have htime : t * (r / W) = k + Int.fract (t * r / W) := by
    rw [← mul_div_assoc]
    exact (Int.floor_add_fract _).symm
  have hfst : (atomPats I steps).map Prod.fst = weights steps := by
    rw [atomPats, List.map_map]
    rfl
  rw [hpos]
  refine ⟨Slots.existsUnique_slot (fun w hw => (weights_pos w hw).le) (mul_nonneg hx0 hW.le)
    (by simpa using mul_lt_mul_of_pos_right hx1 hW), fun i hi hslot a hat => ?_⟩
  have hlen : i < (atomPats I steps).length := by rwa [atomPats, List.length_map]
  have hat' : isIn (a.map (· * (r / W))) (k + Int.fract (t * r / W)) := by
    rw [← htime]
    exact isIn_map_mul (div_pos hr hW) hat
  have hweights : ∀ z ∈ atomPats I steps, 0 ≤ z.1 := by
    intro z hz
    obtain ⟨y, hy, rfl⟩ := List.mem_map.mp hz
    exact (atoms_pos steps y hy).le
  have hcyc : ∀ z ∈ atomPats I steps, Cyclewise z.2 := by
    intro z hz
    obtain ⟨y, _, rfl⟩ := List.mem_map.mp hz
    exact cyclewise_atom I y.2
  have hget : (atomPats I steps)[i].2 = toPat (patterns I) (atoms steps)[i].2.tree := by
    simp only [atomPats, List.getElem_map]
  rw [act_polyrhythm I hr hne, act_fastForward (div_pos hr hW), htime,
    act_timeCat hweights (by rwa [hfst]) hcyc hx0 hx1 hat' hlen (by rwa [hfst]), hfst, hget, behaviour,
    act_atom I _ (isIn_now _), timeToCycleArc, sam_slotTime hslot, Multiset.map_singleton,
    Multiset.map_singleton]
  have hdiv : ∀ b : Time, (k + b / (weights steps).sum) / (r / W) = (k * W + b) / r := by
    intro b
    show (k + b / W) / (r / W) = _
    rw [div_div_eq_mul_div, add_mul, div_mul_cancel₀ _ hW.ne']
  simp only [onWhole, Option.map_some, ArcF.map, intoSlot_start, intoSlot_stop, hdiv]

theorem polyrhythm_plays_three :
    let I : Interpretation (Pattern Unit) := mute fun _ => Pattern.silence
    let steps : List (Step ℚ) := [.once ⟨none, 0⟩, .elongated (3 / 2) (by norm_num) ⟨none, 1⟩,
      .repeated 2 (by norm_num) ⟨none, 2⟩]
    let W := (weights steps).sum
    let k := ⌊(-1 : Time) * 1 / W⌋
    (∃! i, Slots.InSlot (weights steps) (-1 * 1 - k * W) i) ∧
      ∀ i, ∀ hi : i < (atoms steps).length, Slots.InSlot (weights steps) (-1 * 1 - k * W) i →
        ∀ a, isIn a (-1) →
          act (toPat (patterns I) (TPat_Polyrhythm (some (TPat_Atom none 1))
              (TPats.ofList [TPat_Seq (TPats.ofList (steps.map Step.tree))]))) () a (-1) =
            {(some ⟨(k * W + Slots.before (weights steps) i) / 1,
              (k * W + Slots.before (weights steps) (i + 1)) / 1⟩, (atoms steps)[i].2.x)} :=
  polyrhythm_plays _ 1 one_pos _ (List.cons_ne_nil _ _) () (-1)

end Polymeter

end Tidal
