import Tidal.Proofs.WellFormedProofs

/-!
# Proofs: answers that do not depend on the cut

Each combinator's behaviour equation names the queries its arguments are asked; where those arguments
are steady, what is played no longer depends on the query.
-/

namespace Tidal

open EventF Pattern

variable {Γ α β : Type} {strict : Prop}

theorem WellFormed.within {p : Pattern Γ α} (h : WellFormed strict p) :
    ∀ a m, a.start ≤ a.stop → ∀ e ∈ p.query ⟨a, m⟩, Within e.part a :=
  fun a m ha e he => (h a m ha e he).fits.1

/-- At a moment outside of the query, events whose parts lie in the query are not active. -/
theorem WellFormed.isLocal {p : Pattern Γ α} (h : WellFormed strict p) : Local p :=
  fun a m _ ha ht => activeIn_eq_zero_of_within (h.within a m ha.le) ht

/-- Every moment has the value, with its cycle as whole, whatever part of the cycle is asked for. -/
theorem steady_pure (v : α) : Steady (Pattern.pure v : Pattern Γ α) := by
  intro a b m t ha hb
  rw [act_pure v ha, act_pure v hb]

theorem steady_silence : Steady (silence : Pattern Γ α) := fun _ _ _ _ _ _ => rfl

theorem steady_stack {ps : List (Pattern Γ α)} (h : ∀ p ∈ ps, Steady p) : Steady (stack ps) := by
  intro a b m t ha hb
  rw [act_stack, act_stack]
  exact congrArg List.sum (List.map_congr_left fun p hp => h p hp a b m t ha hb)

theorem steady_fmap (f : α → β) {p : Pattern Γ α} (h : Steady p) : Steady (fmap f p) := by
  intro a b m t ha hb
  rw [act_fmap, act_fmap, h a b m t ha hb]

/-- Which values are dropped depends on the values alone. -/
theorem steady_filterValues (f : α → Bool) {p : Pattern Γ α} (h : Steady p) :
    Steady (filterValues f p) := by
  intro a b m t ha hb
  rw [act_filterValues, act_filterValues, h a b m t ha hb]

/-- A shifted query holds a moment exactly when the query holds the shifted moment. -/
theorem steady_rotL (s : Time) {p : Pattern Γ α} (h : Steady p) : Steady (rotL s p) := by
  intro a b m t ha hb
  rw [act_rotL, act_rotL, h _ _ m _ (isIn_map_add ha) (isIn_map_add hb)]

/-- Only for positive factors, which keep the order of the two ends of a query; `rev` does the others. -/
theorem steady_fastForward {r : Time} (hr : 0 < r) {p : Pattern Γ α} (h : Steady p) :
    Steady (_fastForward r p) := by
  intro a b m t ha hb
  rw [act_fastForward hr, act_fastForward hr, h _ _ m _ (isIn_map_mul hr ha) (isIn_map_mul hr hb)]

/-- What the other cycles answer is not active at the moment, because answers are local. -/
theorem steady_splitQueries {p : Pattern Γ α} (hw : WellFormed strict p) (h : Steady p) :
    Steady (splitQueries p) := by
  intro a b m t ha hb
  rw [act_splitQueries hw.isLocal ha, act_splitQueries hw.isLocal hb]
  exact h _ _ m t (isIn_piece ha) (isIn_piece hb)

/-- The mirrored piece of the cycle of `t` ends at or after the mirrored moment, and starts before it. -/
theorem isIn_mirrorArc_piece {a : Arc} {t : Time} (h : isIn a t) (mid : Time) :
    (mirrorArc mid (sect a (timeToCycleArc t))).start < 2 * mid - t ∧
      2 * mid - t ≤ (mirrorArc mid (sect a (timeToCycleArc t))).stop := by
  have := isIn_piece h
  rw [← isIn_mirrorArc, mirrorArc_mirrorArc]
  exact this

/-- A pattern played backwards has at a moment what the pattern has just before the mirrored one, and that does
not depend on the query either. -/
theorem steady_rev {p : Pattern Γ α} (hw : WellFormed strict p) (h : Steady p) : Steady (rev p) := by
  intro a b m t ha hb
  rw [act_rev hw.isLocal ha, act_rev hw.isLocal hb,
    h.actLeft_eq (isIn_mirrorArc_piece ha _) (isIn_mirrorArc_piece hb _)]

/-- Whatever the factor: zero is silence, and a negative one is a positive one backwards. -/
theorem steady_fast (r : Time) {p : Pattern Γ α} (hw : WellFormed strict p) (h : Steady p) :
    Steady (_fast r p) := by
  unfold _fast
  split_ifs with h0 hneg
  · exact steady_silence
  · have hr : 0 < -r := by linarith
    exact steady_rev (wellFormed_fastForward hr hw) (steady_fastForward hr h)
  · exact steady_fastForward (lt_of_le_of_ne (not_lt.mp hneg) (Ne.symm h0)) h

/-- At a moment, one pattern of the list is asked about the piece of the query in one cycle. -/
theorem steady_cat {ps : List (Pattern Γ α)} (hw : ∀ p ∈ ps, WellFormed strict p)
    (h : ∀ p ∈ ps, Steady p) : Steady (cat ps) := by
  match ps, hw, h with
  | [], _, _ => exact steady_silence
  | [p], _, h => exact h p (List.mem_singleton_self p)
  | p₁ :: p₂ :: ps, hw, h =>
    intro a b m t ha hb
    have hlen : 2 ≤ (p₁ :: p₂ :: ps).length := by simp
    have hloc := fun p hp => (hw p hp).isLocal
    rw [act_cat hlen hloc ha, act_cat hlen hloc hb,
      getD_silence h steady_silence (catIndex (p₁ :: p₂ :: ps) ⌊t⌋) _ _ m _
        (isIn_map_sub.mpr (isIn_piece ha)) (isIn_map_sub.mpr (isIn_piece hb))]

/-- The test is about the cycle of the moment, which all queries that hold the moment agree on. -/
theorem steady_when (test : ℤ → Bool) {f : Pattern Γ α → Pattern Γ α} {p : Pattern Γ α}
    (hw : WellFormed strict p) (hwf : WellFormed strict (f p)) (h : Steady p) (hf : Steady (f p)) :
    Steady (when test f p) := by
  intro a b m t ha hb
  rw [act_when hw.isLocal hwf.isLocal ha, act_when hw.isLocal hwf.isLocal hb]
  split_ifs
  · exact hf _ _ m t (isIn_piece ha) (isIn_piece hb)
  · exact h _ _ m t (isIn_piece ha) (isIn_piece hb)

section Applicative

variable {pf : Pattern Γ (α → β)} {px : Pattern Γ α}

/-- The right side is asked about the wholes of the left side, so the query matters on the left only. -/
theorem steady_ap (hf : Coherent pf) (hx : Coherent px) : Steady (ap pf px) := by
  intro a b m t ha hb
  rw [act_ap hf hx ha, act_ap hf hx hb, hf.cut a b m t ha hb]

theorem steady_apLeft (hf : Coherent pf) (hx : Coherent px) : Steady (apLeft pf px) := by
  intro a b m t ha hb
  rw [act_apLeft hf hx ha, act_apLeft hf hx hb, hf.cut a b m t ha hb]

/-- As on the left, with the sides exchanged. -/
theorem steady_apRight (hf : Coherent pf) (hx : Coherent px) : Steady (apRight pf px) := by
  intro a b m t ha hb
  rw [act_apRight hf hx ha, act_apRight hf hx hb, hx.cut a b m t ha hb]

end Applicative

/-- Regularity is both: answers that fit their query, and that do not depend on it. -/
theorem Regular.wellFormed {p : Pattern Γ α} (h : Regular p) : WellFormed False p :=
  (regular_iff.mp h).1

theorem Regular.steady {p : Pattern Γ α} (h : Regular p) : Steady p := (regular_iff.mp h).2

theorem regular_rotL (s : Time) {p : Pattern Γ α} (h : Regular p) : Regular (rotL s p) :=
  (wellFormed_rotL s h.wellFormed).regular (steady_rotL s h.steady)

/-- Also for zero and for negative factors. -/
theorem regular_fast (r : Time) {p : Pattern Γ α} (h : Regular p) : Regular (_fast r p) :=
  (wellFormed_fast r h.wellFormed).regular (steady_fast r h.wellFormed h.steady)

/-- What is squeezed into an event is regular again, so `squeezeJoin` may be used on it. -/
theorem regular_focusArc (a : Arc) {p : Pattern Γ α} (h : Regular p) : Regular (focusArc a p) :=
  regular_rotL _ (regular_fast _ h)

section Joins

variable {pp : Pattern Γ (Pattern Γ α)}

/-- Inner patterns are asked about the part of an outer event, and the outer pattern is steady. -/
theorem steady_unwrap (hp : Coherent pp) (hv : Values Coherent pp) : Steady (unwrap pp) := by
  intro a b m t ha hb
  rw [act_unwrap hp hv ha, act_unwrap hp hv hb, hp.cut a b m t ha hb]

/-- As for `unwrap`, with the wholes of the inner events. -/
theorem steady_innerJoin (hp : Coherent pp) (hv : Values Coherent pp) : Steady (innerJoin pp) := by
  intro a b m t ha hb
  rw [act_innerJoin hp hv ha, act_innerJoin hp hv hb, hp.cut a b m t ha hb]

/-- Inner patterns have to be regular, as they are focused on the wholes of the outer events. -/
theorem steady_squeezeJoin (hp : Coherent pp) (hv : Values Regular pp) : Steady (squeezeJoin pp) := by
  intro a b m t ha hb
  have hf : ∀ a m, a.start ≤ a.stop → ∀ e ∈ pp.query ⟨a, m⟩, ∀ w, e.whole = some w →
      Coherent (focusArc w e.value) := fun a m ha e he w _ =>
    (regular_focusArc w (hv a m ha e he)).toCoherent
  rw [act_squeezeJoin hp hf ha, act_squeezeJoin hp hf hb, hp.cut a b m t ha hb]

/-- Inner patterns are shifted to the wholes of the outer events. -/
theorem steady_trigJoin (hp : Coherent pp) (hv : Values Regular pp) : Steady (trigJoin pp) := by
  intro a b m t ha hb
  have hr : ∀ a m, a.start ≤ a.stop → ∀ e ∈ pp.query ⟨a, m⟩, ∀ s, Coherent (rotR s e.value) :=
    fun a m ha e he s => (regular_rotL (-s) (hv a m ha e he)).toCoherent
  rw [act_trigJoin hp hr ha, act_trigJoin hp hr hb, hp.cut a b m t ha hb]

end Joins

/-! ## Regularity of each operator -/

/-- The base of the induction over an expression; every operator below is a step of it. -/
theorem regular_pure (v : α) : Regular (Pattern.pure v : Pattern Γ α) :=
  WellFormed.regular (wellFormed_pure v : WellFormed False _) (steady_pure v)

theorem regular_offbeat : Regular offbeat := regular_rotL _ (regular_pure 0)

theorem regular_silence : Regular (silence : Pattern Γ α) :=
  WellFormed.regular (wellFormed_silence : WellFormed False _) steady_silence

theorem regular_stack {ps : List (Pattern Γ α)} (h : ∀ p ∈ ps, Regular p) : Regular (stack ps) :=
  (wellFormed_stack fun p hp => (h p hp).wellFormed).regular
    (steady_stack fun p hp => (h p hp).steady)

theorem regular_cat {ps : List (Pattern Γ α)} (h : ∀ p ∈ ps, Regular p) : Regular (cat ps) :=
  (wellFormed_cat fun p hp => (h p hp).wellFormed).regular
    (steady_cat (fun p hp => (h p hp).wellFormed) fun p hp => (h p hp).steady)

/-- A list of one pattern is that pattern, and all others are `cat` sped up. -/
theorem regular_fastCat {ps : List (Pattern Γ α)} (hps : ∀ p ∈ ps, Regular p) : Regular (fastCat ps) := by
  have hfast := regular_iff.mp (regular_fast (ps.length : Time) (regular_cat hps))
  match ps with
  | [p] => exact hps p (List.mem_singleton_self p)
  | [] => exact regular_iff.mpr hfast
  | _ :: _ :: _ =>
    simp only [fastCat]
    split <;> exact regular_iff.mpr hfast

theorem regular_fastFromList (xs : List α) : Regular (fastFromList xs : Pattern Γ α) :=
  regular_fastCat fun q hq => by
    obtain ⟨x, _, rfl⟩ := List.mem_map.mp hq
    exact regular_pure x

theorem regular_fmap (f : α → β) {p : Pattern Γ α} (h : Regular p) : Regular (fmap f p) :=
  (wellFormed_fmap f h.wellFormed).regular (steady_fmap f h.steady)

/-- Both sides have to be regular: the wholes of one are queries of the other. -/
theorem regular_ap {pf : Pattern Γ (α → β)} {px : Pattern Γ α} (hf : Regular pf) (hx : Regular px) :
    Regular (ap pf px) :=
  (wellFormed_ap hf.wellFormed hx.wellFormed hf.steady hx.steady).regular
    (steady_ap hf.toCoherent hx.toCoherent)

section Joins

variable {pp : Pattern Γ (Pattern Γ α)}

/-- The patterns that are played have to be regular, whenever they are played. -/
theorem regular_unwrap (h : Regular pp) (hv : Values Regular pp) : Regular (unwrap pp) :=
  (wellFormed_unwrap h.wellFormed fun a m ha e he => (hv a m ha e he).wellFormed).regular
    (steady_unwrap h.toCoherent fun a m ha e he => (hv a m ha e he).toCoherent)

theorem regular_innerJoin (h : Regular pp) (hv : Values Regular pp) : Regular (innerJoin pp) :=
  (wellFormed_innerJoin h.wellFormed fun a m ha e he => (hv a m ha e he).wellFormed).regular
    (steady_innerJoin h.toCoherent fun a m ha e he => (hv a m ha e he).toCoherent)

theorem regular_squeezeJoin (h : Regular pp) (hv : Values Regular pp) : Regular (squeezeJoin pp) :=
  (wellFormed_squeezeJoin h.wellFormed fun a m ha e he => (hv a m ha e he).wellFormed).regular
    (steady_squeezeJoin h.toCoherent hv)

theorem regular_trigJoin (h : Regular pp) (hv : Values Regular pp) : Regular (trigJoin pp) :=
  (wellFormed_trigJoin h.wellFormed h.steady
    fun a m ha e he => (hv a m ha e he).wellFormed).regular (steady_trigJoin h.toCoherent hv)

end Joins

end Tidal
