import Tidal.Lib.Spans
import Tidal.Proofs.TimeProofs

/-!
# Proofs: intersections of arcs

An arc is read as the set of its moments. `subArc` computes the intersection of these sets, and fails where
there is none, so that joins and applicative operators may intersect wholes and parts in any order.
-/

namespace Tidal

open Spans

/-- The moments of an arc: those from its start on before its stop, or the single one it starts at. -/
def moments (a : Arc) : Set Time := points a.start a.stop

theorem moments_of_pos {a : Arc} (ha : a.start < a.stop) : moments a = {t | isIn a t} := points_of_lt ha

@[simp] theorem moments_point (t : Time) : moments ⟨t, t⟩ = {t} := points_self t

theorem moments_injective {a b : Arc} (ha : a.start ≤ a.stop) (hb : b.start ≤ b.stop)
    (h : moments a = moments b) : a = b := by
  obtain ⟨hstart, hstop⟩ := points_injective ha hb h
  cases a
  cases b
  rw [ArcF.mk.injEq]
  exact ⟨hstart, hstop⟩

/-- An arc that does not end before it starts has some width, or is a single moment. -/
theorem pos_or_point {a : Arc} (ha : a.start ≤ a.stop) : a.start < a.stop ∨ ∃ t, a = ⟨t, t⟩ := by
  rcases ha.lt_or_eq with hlt | heq
  · exact .inl hlt
  · refine .inr ⟨a.start, ?_⟩
    cases a
    rw [ArcF.mk.injEq]
    exact ⟨rfl, heq.symm⟩

/-- Two arcs of some width meet in an arc of some width, or not at all. -/
theorem subArc_pos_pos {a b : Arc} (ha : a.start < a.stop) (hb : b.start < b.stop) :
    subArc a b = if (sect a b).start < (sect a b).stop then some (sect a b) else none := by
  split_ifs with h
  · obtain ⟨hina, hinb⟩ := isIn_sect.mp ⟨le_rfl, h⟩
    exact subArc_of_isIn hina hinb
  · refine Option.eq_none_iff_forall_ne_some.mpr fun c hc => h ?_
    have hpos := subArc_pos ha hb hc
    rwa [(subArc_some hc).1] at hpos

theorem subArc_points (t u : Time) : subArc ⟨t, t⟩ ⟨u, u⟩ = if t = u then some ⟨t, t⟩ else none := by
  split_ifs with h
  · rw [h, subArc_point]
  · refine Option.eq_none_iff_forall_ne_some.mpr fun c hc => h ?_
    have ht := subArc_point_some hc
    rw [subArc_comm] at hc
    rw [subArc_point_some hc, ArcF.mk.injEq] at ht
    exact ht.1.symm

theorem subArc_moments {a b : Arc} (ha : a.start ≤ a.stop) (hb : b.start ≤ b.stop) :
    (subArc a b).elim ∅ moments = moments a ∩ moments b := by
  -- a single moment and an arc of some width
  have hpoint : ∀ (t : Time) {b : Arc}, b.start < b.stop →
      (subArc ⟨t, t⟩ b).elim ∅ moments = {t} ∩ {u | isIn b u} := by
    intro t b hb
    rw [subArc_point_pos hb]
    split_ifs with hin
    · rw [Option.elim_some, moments_point, eq_comm, Set.inter_eq_left, Set.singleton_subset_iff]
      exact hin
    · rw [Option.elim_none, eq_comm, Set.singleton_inter_eq_empty]
      exact hin
  rcases pos_or_point ha with ha | ⟨t, rfl⟩ <;> rcases pos_or_point hb with hb | ⟨u, rfl⟩
  · have hinter : {t | isIn a t} ∩ {t | isIn b t} = {t | isIn (sect a b) t} := by
      ext t
      exact isIn_sect.symm
    rw [subArc_pos_pos ha hb, moments_of_pos ha, moments_of_pos hb, hinter]
    split_ifs with h
    · exact moments_of_pos h
    · rw [Option.elim_none, eq_comm, Set.eq_empty_iff_forall_notMem]
      exact fun t ht => h (isIn_pos ht)
  · rw [subArc_comm, hpoint u ha, moments_of_pos ha, moments_point, Set.inter_comm]
  · rw [hpoint t hb, moments_of_pos hb, moments_point]
  · rw [subArc_points, moments_point, moments_point]
    split_ifs with h
    · rw [h, Option.elim_some, moments_point, Set.inter_self]
    · rw [Option.elim_none, eq_comm, Set.singleton_inter_eq_empty, Set.mem_singleton_iff]
      exact h

theorem intersects_subArc : Intersects (fun a : Arc => a.start ≤ a.stop) moments subArc where
  nonempty a _ := points_nonempty a.start a.stop
  injective _ _ := moments_injective
  valid _ _ _ _ _ h := (subArc_some h).2
  inter _ _ := subArc_moments

/-- **`subArc` is the intersection of sets of moments**: it fails exactly if they have none in common, and so
it is commutative, idempotent and associative. -/
theorem subArc_intersects {a b c : Arc} (ha : a.start ≤ a.stop) (hb : b.start ≤ b.stop)
    (hc : c.start ≤ c.stop) :
    (subArc a b = none ↔ Disjoint (moments a) (moments b)) ∧
      (∀ d, subArc a b = some d ↔ d.start ≤ d.stop ∧ moments d = moments a ∩ moments b) ∧
      subArc a b = subArc b a ∧ subArc a a = some a ∧
      ((subArc a b).bind fun d => subArc d c) = (subArc b c).bind (subArc a) :=
  ⟨intersects_subArc.eq_none_iff ha hb, fun _ => intersects_subArc.eq_some_iff ha hb,
    intersects_subArc.comm ha hb, intersects_subArc.self ha, intersects_subArc.assoc ha hb hc⟩

/-- A moment at the end of an arc is not in it, but in the arc that follows. -/
theorem subArc_intersects_touching :
    Disjoint (moments ⟨0, 1⟩) (moments ⟨1, 1⟩) ∧ moments ⟨1, 1⟩ = moments ⟨1, 1⟩ ∩ moments ⟨1, 2⟩ := by
  have hone : (1 : Time) ≤ 2 := by norm_num
  have h := subArc_intersects (a := ⟨0, 1⟩) (b := ⟨1, 1⟩) (c := ⟨1, 2⟩) zero_le_one le_rfl hone
  have h' := subArc_intersects (a := ⟨1, 1⟩) (b := ⟨1, 2⟩) (c := ⟨0, 1⟩) le_rfl hone zero_le_one
  refine ⟨h.1.mp ?_, ((h'.2.1 ⟨1, 1⟩).mp ?_).2⟩
  · decide
  · decide

end Tidal
