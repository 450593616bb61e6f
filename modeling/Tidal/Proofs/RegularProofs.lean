import Tidal.Regular
import Tidal.Proofs.SteadyProofs

/-!
# Proofs: regular patterns, and onsets under any cut

Regularity of each operator, from its well-formedness and steadiness. A built pattern moreover answers
strictly, so an onset is the start of a whole that is active there: of the consecutive queries exactly
the one that holds the moment returns it.
-/

namespace Tidal

open EventF Pattern

variable {Γ α β : Type}

/-! ## The strict form -/

/-- Strictly well-formed and steady: what every built pattern is. -/
def StrictlyRegular (p : Pattern Γ α) : Prop := WellFormed True p ∧ Steady p

theorem StrictlyRegular.regular {p : Pattern Γ α} (h : StrictlyRegular p) : Regular p :=
  h.1.regular h.2

theorem StrictlyRegular.coherent {p : Pattern Γ α} (h : StrictlyRegular p) : Coherent p :=
  h.regular.toCoherent

theorem Built.strictlyRegular {p : Pattern Γ α} (h : Built p) : StrictlyRegular p := by
  induction h with
  | pure v => exact ⟨wellFormed_pure v, steady_pure v⟩
  | silence => exact ⟨wellFormed_silence, steady_silence⟩
  | stack ps _ ih =>
    exact ⟨wellFormed_stack fun p hp => (ih p hp).1, steady_stack fun p hp => (ih p hp).2⟩
  | cat ps _ ih =>
    exact ⟨wellFormed_cat fun p hp => (ih p hp).1,
      steady_cat (fun p hp => (ih p hp).1) fun p hp => (ih p hp).2⟩
  | fmap f _ ih => exact ⟨wellFormed_fmap f ih.1, steady_fmap f ih.2⟩
  | filterValues f _ ih => exact ⟨wellFormed_filterValues f ih.1, steady_filterValues f ih.2⟩
  | fast r _ ih => exact ⟨wellFormed_fast r ih.1, steady_fast r ih.1 ih.2⟩
  | rotL s _ ih => exact ⟨wellFormed_rotL s ih.1, steady_rotL s ih.2⟩
  | rev _ ih => exact ⟨wellFormed_rev ih.1, steady_rev ih.1 ih.2⟩
  | splitQueries _ ih => exact ⟨wellFormed_splitQueries ih.1, steady_splitQueries ih.1 ih.2⟩
  | when test f _ _ ih ihf =>
    exact ⟨wellFormed_when test ih.1 ihf.1, steady_when test ih.1 ihf.1 ih.2 ihf.2⟩
  | ap _ _ ihf ihx =>
    exact ⟨wellFormed_ap ihf.1 ihx.1 ihf.2 ihx.2, steady_ap ihf.coherent ihx.coherent⟩
  | apLeft _ _ ihf ihx =>
    exact ⟨wellFormed_apLeft ihf.1 ihx.1, steady_apLeft ihf.coherent ihx.coherent⟩
  | apRight _ _ ihf ihx =>
    exact ⟨wellFormed_apRight ihf.1 ihx.1, steady_apRight ihf.coherent ihx.coherent⟩
  | unwrap _ _ ih ihv =>
    exact ⟨wellFormed_unwrap ih.1 fun a m ha e he => (ihv a m ha e he).1,
      steady_unwrap ih.coherent fun a m ha e he => (ihv a m ha e he).coherent⟩
  | innerJoin _ _ ih ihv =>
    exact ⟨wellFormed_innerJoin ih.1 fun a m ha e he => (ihv a m ha e he).1,
      steady_innerJoin ih.coherent fun a m ha e he => (ihv a m ha e he).coherent⟩
  | squeezeJoin _ _ ih ihv =>
    exact ⟨wellFormed_squeezeJoin ih.1 fun a m ha e he => (ihv a m ha e he).1,
      steady_squeezeJoin ih.coherent fun a m ha e he => (ihv a m ha e he).regular⟩
  | trigJoin _ _ ih ihv =>
    exact ⟨wellFormed_trigJoin ih.1 ih.2 fun a m ha e he => (ihv a m ha e he).1,
      steady_trigJoin ih.coherent fun a m ha e he => (ihv a m ha e he).regular⟩

/-! ## Onsets -/

theorem onsetsIn_append (es es' : List (Event α)) (u : Time) :
    onsetsIn (es ++ es') u = onsetsIn es u + onsetsIn es' u := by
  simp [onsetsIn]

/-- In a strict answer the onsets at `u` are the wholes that start at `u` and are active there. -/
theorem onset_iff {a : Arc} {e : Event α} (h : Answers True a e.whole e.part) (ha : a.start < a.stop)
    (u : Time) :
    (e.eventHasOnset ∧ e.part.start = u) ↔ isIn e.part u ∧ startsAt u (e.whole, e.value) := by
  obtain ⟨w, hw, _, hin⟩ := h.whole
  have hpos := h.fits.2 trivial ha
  simp only [eventHasOnset, startsAt, hw, Option.map_some, Option.some.injEq, decide_eq_true_eq]
  constructor
  · rintro ⟨hwp, rfl⟩
    exact ⟨⟨le_rfl, hpos⟩, hwp⟩
  · rintro ⟨ht, hwu⟩
    have : e.part.start = u := le_antisymm ht.1 (hwu ▸ hin.1)
    exact ⟨hwu.trans this.symm, this⟩

theorem onsetsIn_query {p : Pattern Γ α} (hp : StrictlyRegular p) {a : Arc} (ha : a.start < a.stop)
    (m : Γ) (u : Time) :
    onsetsIn (p.query ⟨a, m⟩) u =
      if isIn a u then (behaviour p m u).filter (startsAt u) else 0 := by
  have hfilter : onsetsIn (p.query ⟨a, m⟩) u = (act p m a u).filter (startsAt u) := by
    have h : (p.query ⟨a, m⟩).filter (fun e => e.eventHasOnset ∧ e.part.start = u) =
        ((p.query ⟨a, m⟩).filter fun e => isIn e.part u).filter
          fun e => startsAt u (e.whole, e.value) := by
      rw [List.filter_filter]
      refine List.filter_congr fun e he => ?_
      rw [decide_eq_decide.mpr (onset_iff (hp.1 a m ha.le e he) ha u), Bool.decide_and, Bool.and_comm]
    simp only [onsetsIn, act, activeIn, Multiset.filter_coe, List.filter_map, h]
    rfl
  rw [hfilter]
  split_ifs with hu
  · rw [hp.coherent.act_eq m hu]
  · rw [act, activeIn_eq_zero_of_within (hp.1.within a m ha.le) hu, Multiset.filter_zero]

/-- Over any cut of a timespan the onsets at `u` are those of the pattern at `u`, each once. -/
theorem onsetsIn_cut {p : Pattern Γ α} (hp : StrictlyRegular p) (m : Γ) (u : Time) :
    ∀ (a : Time) (cuts : List Time), (a :: cuts).IsChain (· < ·) →
      onsetsIn ((cutArcs (a :: cuts)).flatMap fun b => p.query ⟨b, m⟩) u =
        if a ≤ u ∧ u < (a :: cuts).getLast (by simp) then (behaviour p m u).filter (startsAt u)
        else 0 := by
  intro a cuts
  induction cuts generalizing a with
  | nil =>
    intro _
    rw [if_neg fun h => absurd h.2 (not_lt.mpr h.1)]
    rfl
  | cons b cuts ih =>
    intro hlt
    obtain ⟨hab, hrest⟩ := List.isChain_cons_cons.mp hlt
    have hlast : b ≤ (b :: cuts).getLast (by simp) := by
      have hpw := List.isChain_iff_pairwise.mp hrest
      rcases List.mem_cons.mp (List.getLast_mem (List.cons_ne_nil b cuts)) with heq | hmem
      · exact heq.ge
      · exact ((List.pairwise_cons.mp hpw).1 _ hmem).le
    have hcut : cutArcs (a :: b :: cuts) = ⟨a, b⟩ :: cutArcs (b :: cuts) := rfl
    rw [hcut, List.flatMap_cons, onsetsIn_append, ih b hrest,
      List.getLast_cons (List.cons_ne_nil b cuts), onsetsIn_query hp (a := ⟨a, b⟩) hab]
    -- `u` is in the first arc, in the rest, or outside
    by_cases h1 : isIn ⟨a, b⟩ u
    · rw [if_pos h1, if_neg fun h => absurd h1.2 (not_lt.mpr h.1), if_pos ⟨h1.1, h1.2.trans_le hlast⟩,
        add_zero]
    · rw [if_neg h1, zero_add]
      refine if_congr ⟨fun h => ⟨hab.le.trans h.1, h.2⟩, fun h => ⟨?_, h.2⟩⟩ rfl rfl
      exact not_lt.mp fun hub => h1 ⟨h.1, hub⟩

/-! ## Closure -/

/-- **Regularity.** `pure` and `silence` are regular and every operator keeps patterns regular; and over
every cut of a timespan into consecutive queries, each onset of a pattern built this way is returned
exactly once. -/
theorem regular_operators :
    (∀ {α : Type} (v : α), Regular (Pattern.pure v : Pattern Γ α)) ∧
    (∀ {α : Type}, Regular (silence : Pattern Γ α)) ∧
    (∀ {α : Type} (ps : List (Pattern Γ α)), (∀ p ∈ ps, Regular p) → Regular (stack ps)) ∧
    (∀ {α : Type} (ps : List (Pattern Γ α)), (∀ p ∈ ps, Regular p) → Regular (cat ps)) ∧
    (∀ {α β : Type} (f : α → β) (p : Pattern Γ α), Regular p → Regular (fmap f p)) ∧
    (∀ {α : Type} (f : α → Bool) (p : Pattern Γ α), Regular p → Regular (filterValues f p)) ∧
    (∀ {α : Type} (r : Time) (p : Pattern Γ α), r ≠ 0 → Regular p → Regular (_fast r p)) ∧
    (∀ {α : Type} (s : Time) (p : Pattern Γ α), Regular p → Regular (rotL s p)) ∧
    (∀ {α : Type} (p : Pattern Γ α), Regular p → Regular (rev p)) ∧
    (∀ {α : Type} (p : Pattern Γ α), Regular p → Regular (splitQueries p)) ∧
    (∀ {α : Type} (test : ℤ → Bool) (f : Pattern Γ α → Pattern Γ α) (p : Pattern Γ α),
      (∀ q, Regular q → Regular (f q)) → Regular p → Regular (when test f p)) ∧
    (∀ {α β : Type} (pf : Pattern Γ (α → β)) (px : Pattern Γ α), Regular pf → Regular px →
      Regular (ap pf px) ∧ Regular (apLeft pf px) ∧ Regular (apRight pf px)) ∧
    (∀ {α : Type} (pp : Pattern Γ (Pattern Γ α)), Regular pp → Values Regular pp →
      Regular (unwrap pp) ∧ Regular (innerJoin pp) ∧ Regular (squeezeJoin pp) ∧
        Regular (trigJoin pp)) ∧
    (∀ {α : Type} (p : Pattern Γ α), Built p → Regular p ∧
      ∀ (m : Γ) (a : Time) (cuts : List Time), (a :: cuts).IsChain (· < ·) → ∀ u,
        onsetsIn ((cutArcs (a :: cuts)).flatMap fun b => p.query ⟨b, m⟩) u =
          if a ≤ u ∧ u < (a :: cuts).getLast (by simp) then (behaviour p m u).filter (startsAt u)
          else 0) := by
  refine ⟨regular_pure, regular_silence, fun ps h => regular_stack h, fun ps h => regular_cat h,
    fun f p h => regular_fmap f h, fun f p h => ?_, fun r p _ h => regular_fast r h,
    fun s p h => regular_rotL s h, fun p h => ?_, fun p h => ?_, fun test f p hf h => ?_,
    fun pf px hf hx => ⟨regular_ap hf hx, ?_, ?_⟩,
    fun pp h hv => ⟨regular_unwrap h hv, regular_innerJoin h hv, regular_squeezeJoin h hv,
      regular_trigJoin h hv⟩, fun p h => ⟨h.strictlyRegular.regular, ?_⟩⟩
  · exact (wellFormed_filterValues f h.wellFormed).regular (steady_filterValues f h.steady)
  · exact (wellFormed_rev h.wellFormed).regular (steady_rev h.wellFormed h.steady)
  · exact (wellFormed_splitQueries h.wellFormed).regular (steady_splitQueries h.wellFormed h.steady)
  · exact (wellFormed_when test h.wellFormed (hf p h).wellFormed).regular
      (steady_when test h.wellFormed (hf p h).wellFormed h.steady (hf p h).steady)
  · exact (wellFormed_apLeft hf.wellFormed hx.wellFormed).regular
      (steady_apLeft hf.toCoherent hx.toCoherent)
  · exact (wellFormed_apRight hf.wellFormed hx.wellFormed).regular
      (steady_apRight hf.toCoherent hx.toCoherent)
  · exact fun m a cuts hlt u => onsetsIn_cut h.strictlyRegular m u a cuts hlt

end Tidal
