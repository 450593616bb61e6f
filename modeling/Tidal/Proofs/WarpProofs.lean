import Tidal.Warp
import Tidal.Proofs.SteadyProofs

/-!
# Proofs: answers moved arc by arc

A piece of a query is asked over another arc and its answers are moved. Where the move is right for the
parts inside the asked arc, what is active is what the pattern plays at the moved moment. Parts of no
width are never active, so nothing is asked of them.
-/

namespace Tidal

open EventF Pattern

variable {Γ α : Type} {p : Pattern Γ α} {m : Γ} {a b : Arc} {t : Time}

/-! ## Cut-free patterns -/

theorem CutFree.steady (h : CutFree p) : Steady p := by
  have hone : ∀ a m t, isIn a t → act p m a t = behaviour p m t := by
    intro a m t hat
    have := h m a.start [a.stop] t (by simpa using isIn_pos hat) hat.1 (by simpa using hat.2)
    simpa [cutArcs, act] using this
  intro a b m t ha hb
  rw [hone a m t ha, hone b m t hb]

/-- Cut just before or just after the query, the piece that holds the moment already plays all of it. -/
theorem CutFree.isLocal (h : CutFree p) : Local p := by
  intro a m t ha hat
  rcases lt_or_ge t a.start with ht | ht
  · have h2 := h m t [a.start, a.stop] t (by simp [ht, ha]) le_rfl (by simpa using ht.trans ha)
    have h1 : act p m ⟨t, a.start⟩ t = behaviour p m t := h.steady.act_eq m ⟨le_rfl, ht⟩
    simp only [cutArcs, List.tail_cons, List.zipWith_cons_cons, List.zipWith_nil_right,
      List.flatMap_cons, List.flatMap_nil, List.append_nil, activeIn_append] at h2
    exact left_eq_add.mp (h1.trans h2.symm)
  · have hstop : a.stop ≤ t := not_lt.mp fun hlt => hat ⟨ht, hlt⟩
    have h2 := h m a.start [a.stop, t + 1] t (by simp [ha, hstop.trans_lt (lt_add_one t)]) ht
      (by simp)
    have h1 : act p m ⟨a.stop, t + 1⟩ t = behaviour p m t := h.steady.act_eq m ⟨hstop, lt_add_one t⟩
    simp only [cutArcs, List.tail_cons, List.zipWith_cons_cons, List.zipWith_nil_right,
      List.flatMap_cons, List.flatMap_nil, List.append_nil, activeIn_append] at h2
    exact right_eq_add.mp (h1.trans h2.symm)

theorem Coherent.isLocal (h : Coherent p) : Local p := fun a m _ ha ht =>
  activeIn_eq_zero_of_within (h.inQuery a m ha.le) ht

/-- Cutting a local and steady pattern changes nothing. -/
theorem cutFree_iff : CutFree p ↔ Steady p ∧ Local p := by
  refine ⟨fun h => ⟨h.steady, h.isLocal⟩, fun ⟨hs, hl⟩ m c cuts => ?_⟩
  induction cuts generalizing c with
  | nil => intro t _ h1 h2; exact absurd h2 (not_lt.mpr h1)
  | cons d cuts ih =>
    intro t hlt hct hlast
    obtain ⟨hcd, hrest⟩ := List.isChain_cons_cons.mp hlt
    have hnow := isIn_now t
    have hcut : cutArcs (c :: d :: cuts) = ⟨c, d⟩ :: cutArcs (d :: cuts) := rfl
    rw [hcut, List.flatMap_cons, activeIn_append]
    rcases lt_or_ge t d with htd | hdt
    · -- the rest of the span is after `t`
      have hzero : activeIn ((cutArcs (d :: cuts)).flatMap fun b => p.query ⟨b, m⟩) t = 0 := by
        clear ih hlast hcut hlt
        induction cuts generalizing d with
        | nil => rfl
        | cons e cuts ih =>
          obtain ⟨hde, hrest'⟩ := List.isChain_cons_cons.mp hrest
          have h1 : activeIn (p.query ⟨⟨d, e⟩, m⟩) t = 0 :=
            hl ⟨d, e⟩ m t hde fun hin => absurd htd (not_lt.mpr hin.1)
          have h2 := ih e (hcd.trans hde) hrest' (htd.trans hde)
          rw [show cutArcs (d :: e :: cuts) = ⟨d, e⟩ :: cutArcs (e :: cuts) from rfl,
            List.flatMap_cons, activeIn_append, h1, h2, add_zero]
      rw [hzero, add_zero]
      exact hs ⟨c, d⟩ ⟨t, t + 1⟩ m t ⟨hct, htd⟩ hnow
    · have h1 : activeIn (p.query ⟨⟨c, d⟩, m⟩) t = 0 :=
        hl ⟨c, d⟩ m t hcd fun hin => absurd hin.2 (not_lt.mpr hdt)
      rw [h1, zero_add]
      exact ih d t hrest hdt hlast

theorem Seamless.isLocal (h : Seamless p) : Local p := h.cutFree.isLocal

theorem Seamless.steady (h : Seamless p) : Steady p := h.cutFree.steady

theorem Regular.seamless (h : Regular p) : Seamless p where
  digital := h.digital
  inWhole := h.inWhole
  cutFree := cutFree_iff.mpr ⟨h.steady, h.wellFormed.isLocal⟩

theorem Seamless.whole_of_mem (hp : Seamless p) (ha : a.start ≤ a.stop) {e : Event α}
    (he : e ∈ p.query ⟨a, m⟩) (ht : isIn e.part t) : ∃ w, e.whole = some w ∧ isIn w t := by
  obtain ⟨w, hw⟩ := isDigital_iff.mp (hp.digital a m ha e he)
  exact ⟨w, hw, (hp.inWhole a m ha e he w hw).isIn ht⟩

/-- The wholes that are active at a moment hold it. -/
theorem Seamless.whole_isIn (hp : Seamless p) {x : Option Arc × α} (hx : x ∈ behaviour p m t) :
    ∃ w, x.1 = some w ∧ isIn w t := by
  obtain ⟨e, he, hin, rfl⟩ := mem_activeIn.mp hx
  exact hp.whole_of_mem (lt_add_one t).le he hin

/-- The parts that can be active lie inside the query. -/
theorem Local.within (h : Local p) (ha : a.start < a.stop) {e : Event α} (he : e ∈ p.query ⟨a, m⟩)
    (hpos : e.part.start < e.part.stop) : Within e.part a := by
  have hin : ∀ u, isIn e.part u → isIn a u := by
    intro u hu
    by_contra hau
    have hmem : (e.whole, e.value) ∈ act p m a u := mem_activeIn.mpr ⟨e, he, hu, rfl⟩
    rw [h a m u ha hau] at hmem
    simp at hmem
  refine ⟨(hin _ ⟨le_rfl, hpos⟩).1, hpos.le, ?_⟩
  by_contra hstop
  have hmax : max e.part.start a.stop < e.part.stop := max_lt hpos (not_le.mp hstop)
  have := (hin _ ⟨le_max_left _ _, hmax⟩).2
  exact absurd this (not_lt.mpr (le_max_right _ _))

/-- The answers to `b`, moved by `F`: at `t` they are what they were at `u`. -/
theorem activeIn_warp (hl : Local p) (hb : b.start < b.stop) {F : Arc → Arc} {u : Time}
    (hF : ∀ x, x.start < x.stop → Within x b → (isIn (F x) t ↔ isIn x u))
    (hpos : ∀ x, isIn (F x) t → x.start < x.stop) :
    activeIn ((p.query ⟨b, m⟩).map (mapArc F)) t = (act p m b u).map (onWhole F) := by
  refine activeIn_mapArc fun e he => ?_
  by_cases hw : e.part.start < e.part.stop
  · exact hF _ hw (hl.within hb he hw)
  · exact ⟨fun h => absurd (hpos _ h) hw, fun h => absurd (isIn_pos h) hw⟩

/-- The answers to a query within cycle `c`, rescaled relative to the cycle in which each arc starts:
at `t` they are what they were at the moment that is moved to `t`. -/
theorem activeIn_mapCycle (hl : Local p) {s d : Time} (hd : 0 < d) {c : ℤ} (hb : b.start < b.stop)
    (h1 : (c : Time) ≤ b.start) (h2 : b.stop ≤ c + 1) :
    activeIn ((p.query ⟨b, m⟩).map (mapArc (mapCycle fun x => (x - s) / d))) t =
      (act p m b (c + s + (t - c) * d)).map (onWhole (mapCycle fun x => (x - s) / d)) := by
  refine activeIn_warp hl hb (fun x hx hin => ?_) fun x hx => ?_
  · -- the answers start in the cycle of the query
    have hsam : sam x.start = c := sam_eq (h1.trans hin.1) (hx.trans_le (hin.2.2.trans h2))
    simp only [mapCycle, isIn, hsam]
    rw [← le_sub_iff_add_le', ← sub_lt_iff_lt_add', div_le_iff₀ hd, lt_div_iff₀ hd]
    constructor <;> rintro ⟨h3, h4⟩ <;> constructor <;> linarith
  · have hlt := isIn_pos hx
    simp only [mapCycle, add_lt_add_iff_left, div_lt_div_iff_of_pos_right hd] at hlt
    linarith

theorem act_eq_ite (hl : Local p) (hs : Steady p) (hb : b.start < b.stop) {u : Time} :
    act p m b u = if isIn b u then behaviour p m u else 0 := by
  split_ifs with hu
  · exact hs.act_eq m hu
  · exact hl b m u hb hu

end Tidal
