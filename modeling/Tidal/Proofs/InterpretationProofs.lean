import Tidal.ParseBP

/-!
# Proofs: two readings of mini-notation

A relation that the pattern functions of two interpretations keep holds between the two readings of every
tree. This is the induction over trees; what is proved with it is said function by function.
-/

namespace Tidal

open TPat

variable {P Q : Type → Type} {Z : ℚ → Prop} {I : Interpretation P} {J : Interpretation Q}
  {R : ∀ α : Type, P α → Q α → Prop}

/-- The same weight, and related patterns. -/
def Sized (R : ∀ α : Type, P α → Q α → Prop) (α : Type) (x : ℚ × P α) (y : ℚ × Q α) : Prop :=
  x.1 = y.1 ∧ R α x.2 y.2

/-- The pattern functions keep the relation; the rate of a layer is only divided by a size that `Z`
allows. -/
structure Simulates (Z : ℚ → Prop) (I : Interpretation P) (J : Interpretation Q)
    (R : ∀ α : Type, P α → Q α → Prop) : Prop where
  silence {α : Type} : R α I.silence J.silence
  pure {α : Type} (x : α) : R α (I.pure x) (J.pure x)
  setContext {α : Type} {p : P α} {q : Q α} (c : Context) :
    R α p q → R α (I.setContext c p) (J.setContext c q)
  stack {α : Type} {ps : List (P α)} {qs : List (Q α)} :
    List.Forall₂ (R α) ps qs → R α (I.stack ps) (J.stack qs)
  timeCat {α : Type} {ps : List (ℚ × P α)} {qs : List (ℚ × Q α)} :
    List.Forall₂ (Sized R α) ps qs → (∀ y ∈ qs, 0 ≤ y.1) → R α (I.timeCat ps) (J.timeCat qs)
  fast {α : Type} {t : P ℚ} {t' : Q ℚ} {p : P α} {q : Q α} :
    R ℚ t t' → R α p q → R α (I.fast t p) (J.fast t' q)
  slow {α : Type} {t : P ℚ} {t' : Q ℚ} {p : P α} {q : Q α} :
    R ℚ t t' → R α p q → R α (I.slow t p) (J.slow t' q)
  layer {α : Type} {sz : ℚ} {t : P ℚ} {t' : Q ℚ} {p : P α} {q : Q α} :
    Z sz → R ℚ t t' → R α p q → R α (I.fast (I.divideBy sz t) p) (J.fast (J.divideBy sz t') q)
  doEuclid {α : Type} {n k s : P ℤ} {n' k' s' : Q ℤ} {p : P α} {q : Q α} (how : DoEuclid α) :
    R ℤ n n' → R ℤ k k' → R ℤ s s' → R α p q →
      R α (I.doEuclid how n k s p) (J.doEuclid how n' k' s' q)

/-! ## Weights and sizes -/

theorem metric_toList {α : Type} : ∀ {ps : TPats α}, ps.Metric Z → ∀ p ∈ ps.toList, p.Metric Z
  | .nil, _, _, hp => absurd hp List.not_mem_nil
  | .cons p ps, h, q, hq => by
    rcases List.mem_cons.mp hq with rfl | hq
    · exact h.1
    · exact metric_toList h.2 q hq

theorem resolve_size_nonneg {α : Type} {ps : List (TPat α)} (h : ∀ p ∈ ps, p.Metric Z) :
    ∀ x ∈ resolve_size ps, 0 ≤ x.1 := by
  induction ps with
  | nil => exact fun x hx => absurd hx List.not_mem_nil
  | cons p ps ih =>
    obtain ⟨hp, hps⟩ := List.forall_mem_cons.mp h
    cases p with
    | TPat_Elongate r p => exact List.forall_mem_cons.mpr ⟨hp.1, ih hps⟩
    | TPat_Repeat n p =>
      refine List.forall_mem_append.mpr ⟨fun x hx => ?_, ih hps⟩
      rw [List.eq_of_mem_replicate hx]
      exact zero_le_one
    | _ => exact List.forall_mem_cons.mpr ⟨zero_le_one, ih hps⟩

section Sizes

variable {α : Type} [Parseable α] [Enumerable α]

theorem sized_pats_nonneg {ps : TPats α} (h : ps.Metric Z) : ∀ x ∈ sized_pats I ps, 0 ≤ x.1 := by
  rw [← TPats.ofList_toList ps, sized_pats_eq]
  intro x hx
  obtain ⟨y, hy, rfl⟩ := List.mem_map.mp hx
  exact resolve_size_nonneg (metric_toList h) y hy

theorem resolve_tpat_size (p : TPat α) : (resolve_tpat I p).1 = p.size := by
  cases p with
  | TPat_Seq xs => rw [resolve_tpat, resolve_seq, TPat.size, List.map_map, Function.comp_def]
  | _ => rfl

/-- The sizes of the layers are those of the trees. -/
theorem resolve_tpats_size {ps : TPats α} (h : ∀ p ∈ ps.toList, Z p.size) :
    ∀ x ∈ resolve_tpats I ps, Z x.1 := by
  rw [← TPats.ofList_toList ps, resolve_tpats_eq]
  intro x hx
  obtain ⟨p, hp, rfl⟩ := List.mem_map.mp hx
  rw [resolve_tpat_size]
  exact h p hp

end Sizes

/-! ## Trees -/

theorem Simulates.sequencePat (h : Simulates Z I J R) {α : Type} {ps : List (ℚ × P α)}
    {qs : List (ℚ × Q α)} (hps : List.Forall₂ (Sized R α) ps qs) (hw : ∀ y ∈ qs, 0 ≤ y.1) :
    Sized R α (sequencePat I ps) (sequencePat J qs) := by
  refine ⟨?_, h.timeCat hps hw⟩
  have hmap : ps.map Prod.fst = qs.map Prod.fst :=
    List.forall₂_eq_eq_eq ▸ List.rel_map (fun _ _ hxy => hxy.1) hps
  rw [Tidal.sequencePat, Tidal.sequencePat, hmap]

theorem Simulates.polyrhythm (h : Simulates Z I J R) {α : Type} {ps : List (ℚ × P α)}
    {qs : List (ℚ × Q α)} (hps : List.Forall₂ (Sized R α) ps qs) (hz : ∀ y ∈ qs, Z y.1) {t : P ℚ}
    {t' : Q ℚ} (ht : R ℚ t t') : R α (polyrhythm I ps t) (polyrhythm J qs t') := by
  refine h.stack ?_
  induction hps with
  | nil => exact .nil
  | @cons x y ps qs hxy _ ih =>
    obtain ⟨hy, hqs⟩ := List.forall_mem_cons.mp hz
    refine .cons ?_ (ih hqs)
    show R α (I.fast (I.divideBy x.1 t) x.2) (J.fast (J.divideBy y.1 t') y.2)
    rw [hxy.1]
    exact h.layer hy ht hxy.2

theorem Simulates.base_first (h : Simulates Z I J R) {α : Type} {ps : List (ℚ × P α)}
    {qs : List (ℚ × Q α)} (hps : List.Forall₂ (Sized R α) ps qs) :
    R ℚ (base_first I ps) (base_first J qs) := by
  cases hps with
  | nil => exact h.pure 0
  | @cons x y ps qs hxy _ =>
    rw [Tidal.base_first, Tidal.base_first, hxy.1]
    exact h.pure y.1

mutual

theorem Simulates.toPat (h : Simulates Z I J R) : ∀ {α : Type} [Parseable α] [Enumerable α]
    (t : TPat α), t.Metric Z → R α (toPat I t) (toPat J t)
  | _, _, _, TPat_Atom (some loc) x, _ => h.setContext _ (h.pure x)
  | _, _, _, TPat_Atom none x, _ => h.pure x
  | _, _, _, TPat_Fast t x, ht => h.fast (h.toPat t ht.1) (h.toPat x ht.2)
  | _, _, _, TPat_Slow t x, ht => h.slow (h.toPat t ht.1) (h.toPat x ht.2)
  | _, _, _, TPat_Euclid n k s thing, ht =>
    h.doEuclid _ (h.toPat n ht.1) (h.toPat k ht.2.1) (h.toPat s ht.2.2.1) (h.toPat thing ht.2.2.2)
  | _, _, _, TPat_Stack xs, ht => h.stack (h.toPats xs ht)
  | _, _, _, TPat_Silence, _ => h.silence
  | _, _, _, TPat_Polyrhythm (some r) ps, ht =>
    h.polyrhythm (h.resolve_tpats ps ht.2.2) (resolve_tpats_size ht.2.1) (h.toPat r ht.1)
  | _, _, _, TPat_Polyrhythm none ps, ht =>
    h.polyrhythm (h.resolve_tpats ps ht.2) (resolve_tpats_size ht.1)
      (h.base_first (h.resolve_tpats ps ht.2))
  | _, _, _, TPat_Seq xs, ht => (h.sequencePat (h.sized_pats xs ht) (sized_pats_nonneg ht)).2
  | _, _, _, TPat_Elongate _ _, _ => h.silence
  | _, _, _, TPat_Repeat _ _, _ => h.silence

theorem Simulates.toPats (h : Simulates Z I J R) : ∀ {α : Type} [Parseable α] [Enumerable α]
    (ps : TPats α), ps.Metric Z → List.Forall₂ (R α) (toPats I ps) (toPats J ps)
  | _, _, _, .nil, _ => .nil
  | _, _, _, .cons p ps, ht => .cons (h.toPat p ht.1) (h.toPats ps ht.2)

theorem Simulates.resolve_tpats (h : Simulates Z I J R) : ∀ {α : Type} [Parseable α] [Enumerable α]
    (ps : TPats α), ps.Metric Z → List.Forall₂ (Sized R α) (resolve_tpats I ps) (resolve_tpats J ps)
  | _, _, _, .nil, _ => .nil
  | _, _, _, .cons p ps, ht => by
    have hp := h.toPat p ht.1
    have hps := h.resolve_tpats ps ht.2
    cases p with
    | TPat_Seq xs => exact .cons (h.sequencePat (h.sized_pats xs ht.1) (sized_pats_nonneg ht.1)) hps
    | _ => exact .cons ⟨rfl, hp⟩ hps

theorem Simulates.sized_pats (h : Simulates Z I J R) : ∀ {α : Type} [Parseable α] [Enumerable α]
    (ps : TPats α), ps.Metric Z → List.Forall₂ (Sized R α) (sized_pats I ps) (sized_pats J ps)
  | _, _, _, .nil, _ => .nil
  | _, _, _, .cons p ps, ht => by
    have hp := h.toPat p ht.1
    have hps := h.sized_pats ps ht.2
    cases p with
    | TPat_Elongate r p => exact .cons ⟨rfl, h.toPat p ht.1.2⟩ hps
    | TPat_Repeat n p =>
      refine List.rel_append ?_ hps
      exact List.forall₂_iff_get.mpr ⟨by simp, fun i _ _ => by simpa using ⟨rfl, h.toPat p ht.1⟩⟩
    | _ => exact .cons ⟨rfl, hp⟩ hps

end

end Tidal
