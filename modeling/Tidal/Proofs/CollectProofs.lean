import Tidal.Collect

/-!
# Proofs: collecting chords

A group is taken from the list by multiset difference. The list has an element as often as the group has
it, and only elements of the group are deleted, so what is left is what the test of the group rejects.
-/

namespace Tidal

open EventF Pattern

variable {Γ α β : Type}

/-! ## Multiset difference -/

section Difference

variable [BEq β] {p : β → Bool} {x y : β} {xs ys : List β}

theorem filter_not_erase (hp : ∀ x y : β, x == y → p x = p y) (hy : p y) (xs : List β) :
    (xs.erase y).filter (fun x => !p x) = xs.filter fun x => !p x := by
  induction xs with
  | nil => rfl
  | cons x xs ih =>
    rw [List.erase_cons]
    by_cases hxy : (x == y) = true
    · have hx : p x = true := (hp x y hxy).trans hy
      rw [if_pos hxy, List.filter_cons_of_neg (by simp [hx])]
    · rw [if_neg hxy, List.filter_cons, List.filter_cons, ih]

/-- The elements with `p` are as many in the list as among those that are kept for `p`. -/
theorem count_filter_of_congr (hp : ∀ x y : β, x == y → p x = p y) (hx : p x) (xs : List β) :
    (xs.filter p).count x = xs.count x := by
  rw [List.count, List.countP_filter]
  refine List.countP_congr fun y _ => ?_
  rw [Bool.and_eq_true]
  constructor
  · intro h
    exact h.1
  · intro h
    exact ⟨h, (hp y x h).trans hx⟩

variable [EquivBEq β]

/-- Deleting an element makes its number one less. -/
theorem count_erase_le (xs : List β) (h : y == x) : (xs.erase y).count x ≤ xs.count x - 1 := by
  induction xs with
  | nil => simp
  | cons z xs ih =>
    rw [List.erase_cons]
    by_cases hzy : (z == y) = true
    · have hzx : (z == x) = true := BEq.trans hzy h
      rw [if_pos hzy, List.count_cons, if_pos hzx]
      omega
    · have hzx : ¬ (z == x) = true := fun hzx => hzy (BEq.trans hzx (BEq.symm h))
      rw [if_neg hzy, List.count_cons, List.count_cons, if_neg hzx]
      exact ih

/-- If `ys` has the elements with `p` at least as often as `xs`, and no others, then `xs` without `ys` has
the elements of `xs` with not `p`. -/
theorem without_eq_filter (hp : ∀ x y : β, x == y → p x = p y) (hys : ∀ y ∈ ys, p y)
    (hcount : ∀ x, p x → xs.count x ≤ ys.count x) : without xs ys = xs.filter fun x => !p x := by
  induction ys generalizing xs with
  | nil =>
    refine (List.filter_eq_self.mpr fun x hx => ?_).symm
    by_cases hpx : p x = true
    · have hpos : 0 < xs.count x := List.countP_pos_iff.mpr ⟨x, hx, BEq.rfl⟩
      have hle := hcount x hpx
      rw [List.count_nil] at hle
      omega
    · simp [hpx]
  | cons y ys ih =>
    have hy : p y = true := hys y List.mem_cons_self
    rw [show without xs (y :: ys) = without (xs.erase y) ys from rfl, ← filter_not_erase hp hy]
    refine ih (fun z hz => hys z (List.mem_cons_of_mem _ hz)) fun x hx => ?_
    have hx' := hcount x hx
    rw [List.count_cons] at hx'
    by_cases hyx : (y == x) = true
    · rw [if_pos hyx] at hx'
      have := count_erase_le xs hyx
      omega
    · rw [if_neg hyx] at hx'
      exact le_trans (List.erase_sublist.count_le x) hx'

end Difference

/-! ## Groups -/

section Groups

variable {e x y : Event α} {g es : List (Event α)}

attribute [local instance] eventBEq

theorem sameDur_iff : sameDur x y ↔ x.whole = y.whole ∧ x.part = y.part := by simp [sameDur]

/-- A group of events at the time of the first one. -/
def SameDurs (g : List (Event α)) : Prop := ∃ e rest, g = e :: rest ∧ ∀ x ∈ rest, sameDur e x

/-- Induction on a list by what is left after the first group. -/
theorem group_induction {P : List (Event α) → Prop} (nil : P [])
    (cons : ∀ e es, P (es.filter fun x => !sameDur e x) → P (e :: es)) (es : List (Event α)) : P es := by
  induction hn : es.length using Nat.strong_induction_on generalizing es with
  | _ n ih =>
    cases es with
    | nil => exact nil
    | cons e es =>
      rw [List.length_cons] at hn
      have hle := List.length_filter_le (fun x => !sameDur e x) es
      exact cons e es (ih _ (by omega) _ rfl)

variable [BEq α]

theorem beq_iff_fields :
    (x == y) = true ↔
      x.context = y.context ∧ x.whole = y.whole ∧ x.part = y.part ∧ (x.value == y.value) = true := by
  show (decide _ && (decide _ && (decide _ && _))) = true ↔ _
  simp only [Bool.and_eq_true, decide_eq_true_eq]

variable [EquivBEq α]

theorem equivBEq_event : EquivBEq (Event α) where
  rfl := beq_iff_fields.mpr ⟨rfl, rfl, rfl, BEq.rfl⟩
  symm h := by
    obtain ⟨h1, h2, h3, h4⟩ := beq_iff_fields.mp h
    exact beq_iff_fields.mpr ⟨h1.symm, h2.symm, h3.symm, BEq.symm h4⟩
  trans h h' := by
    obtain ⟨h1, h2, h3, h4⟩ := beq_iff_fields.mp h
    obtain ⟨h1', h2', h3', h4'⟩ := beq_iff_fields.mp h'
    exact beq_iff_fields.mpr ⟨h1.trans h1', h2.trans h2', h3.trans h3', BEq.trans h4 h4'⟩

/-- What is left for the other groups are the events at other times. -/
theorem without_group (e : Event α) (es : List (Event α)) :
    without es (e :: es.filter (sameDur e)) = es.filter fun x => !sameDur e x := by
  have := equivBEq_event (α := α)
  have hp : ∀ x y : Event α, x == y → sameDur e x = sameDur e y := by
    intro x y h
    obtain ⟨-, hw, hpart, -⟩ := beq_iff_fields.mp h
    rw [sameDur, sameDur, hw, hpart]
  refine without_eq_filter hp ?_ fun x hx => ?_
  · intro y hy
    rcases List.mem_cons.mp hy with rfl | hy
    · exact sameDur_iff.mpr ⟨rfl, rfl⟩
    · exact (List.mem_filter.mp hy).2
  · rw [List.count_cons, count_filter_of_congr hp hx]
    exact Nat.le_add_right _ _

theorem groupEventsBy_cons (e : Event α) (es : List (Event α)) :
    groupEventsBy sameDur (e :: es) =
      (e :: es.filter (sameDur e)) :: groupEventsBy sameDur (es.filter fun x => !sameDur e x) := by
  rw [groupEventsBy, without_group]

/-- No event is lost or duplicated by grouping. -/
theorem groupEventsBy_perm (es : List (Event α)) : (groupEventsBy sameDur es).flatten.Perm es := by
  induction es using group_induction with
  | nil => rw [groupEventsBy, List.flatten_nil]
  | cons e es ih =>
    rw [groupEventsBy_cons, List.flatten_cons, List.cons_append]
    exact ((ih.append_left _).trans (List.filter_append_perm _ es)).cons e

theorem groupEventsBy_sameDurs (es : List (Event α)) : ∀ g ∈ groupEventsBy sameDur es, SameDurs g := by
  induction es using group_induction with
  | nil => simp [groupEventsBy]
  | cons e es ih =>
    rw [groupEventsBy_cons]
    intro g hg
    rcases List.mem_cons.mp hg with rfl | hg
    · exact ⟨e, es.filter (sameDur e), rfl, fun x hx => (List.mem_filter.mp hx).2⟩
    · exact ih g hg

/-- Events of two groups are at different times. -/
theorem groupEventsBy_pairwise (es : List (Event α)) :
    (groupEventsBy sameDur es).Pairwise fun g g' => ∀ x ∈ g, ∀ y ∈ g', ¬ sameDur x y := by
  induction es using group_induction with
  | nil => simp [groupEventsBy]
  | cons e es ih =>
    rw [groupEventsBy_cons, List.pairwise_cons]
    refine ⟨fun g' hg' x hx y hy hxy => ?_, ih⟩
    have hrest := (groupEventsBy_perm _).mem_iff.mp (List.mem_flatten.mpr ⟨g', hg', hy⟩)
    have hex : sameDur e x := by
      rcases List.mem_cons.mp hx with rfl | hx
      · exact sameDur_iff.mpr ⟨rfl, rfl⟩
      · exact (List.mem_filter.mp hx).2
    have hey : sameDur e y := by
      rw [sameDur_iff] at hex hxy ⊢
      exact ⟨hex.1.trans hxy.1, hex.2.trans hxy.2⟩
    simp [hey] at hrest

end Groups

/-! ## Chords -/

section Chords

/-- The event without where it comes from. -/
def stripContext (e : Event α) : Event α := { e with context := ⟨[]⟩ }

theorem uncollectEvent_strip (e : Event (List α)) :
    (uncollectEvent e).map stripContext = e.value.map fun v => ⟨⟨[]⟩, e.whole, e.part, v⟩ := by
  refine List.ext_getElem? fun i => ?_
  rw [uncollectEvent, List.getElem?_map, List.getElem?_mapIdx, List.getElem?_map, Option.map_map]
  rfl

/-- A chord is taken apart into the events that it was collected from. -/
theorem uncollect_collectEvent {g : List (Event α)} (h : SameDurs g) :
    ∃ c, collectEvent g = some c ∧ (uncollectEvent c).map stripContext = g.map stripContext := by
  obtain ⟨e, rest, rfl, hrest⟩ := h
  refine ⟨_, rfl, ?_⟩
  rw [uncollectEvent_strip, List.map_map]
  refine List.map_congr_left fun x hx => ?_
  have hdur : e.whole = x.whole ∧ e.part = x.part := by
    rcases List.mem_cons.mp hx with rfl | hx
    · exact ⟨rfl, rfl⟩
    · exact sameDur_iff.mp (hrest x hx)
  simp only [Function.comp_apply, stripContext, hdur]

theorem uncollect_groups {gs : List (List (Event α))} (h : ∀ g ∈ gs, SameDurs g) :
    (uncollectEvents ((gs.map collectEvent).reduceOption)).map stripContext = gs.flatten.map stripContext := by
  induction gs with
  | nil => rfl
  | cons g gs ih =>
    obtain ⟨c, hc, hstrip⟩ := uncollect_collectEvent (h g List.mem_cons_self)
    have ih' := ih fun g' hg' => h g' (List.mem_cons_of_mem _ hg')
    rw [List.map_cons, hc, List.reduceOption_cons_of_some, uncollectEvents, List.flatMap_cons, List.map_append,
      hstrip, List.flatten_cons, List.map_append, ← ih', uncollectEvents]

theorem collectEvent_dur {g : List (Event α)} {c : Event (List α)} (h : collectEvent g = some c) :
    ∃ e ∈ g, e.whole = c.whole ∧ e.part = c.part := by
  cases g with
  | nil => cases h
  | cons e es =>
    cases h
    exact ⟨e, List.mem_cons_self, rfl, rfl⟩

end Chords

/-- Collecting makes one chord for each time at which there are events, and taking the chords apart gives
the events back, up to their order and their contexts. -/
theorem collectEventsBy_sameDur [BEq α] [EquivBEq α] (es : List (Event α)) :
    ((collectEventsBy sameDur es).Pairwise fun c c' => ¬ (c.whole = c'.whole ∧ c.part = c'.part)) ∧
      ((uncollectEvents (collectEventsBy sameDur es)).map stripContext).Perm (es.map stripContext) := by
  constructor
  · rw [collectEventsBy, List.reduceOption, List.filterMap_map, List.pairwise_filterMap]
    refine (groupEventsBy_pairwise es).imp fun h c hc c' hc' hsame => ?_
    obtain ⟨x, hx, hxw, hxp⟩ := collectEvent_dur hc
    obtain ⟨y, hy, hyw, hyp⟩ := collectEvent_dur hc'
    exact h x hx y hy
      (sameDur_iff.mpr ⟨hxw.trans (hsame.1.trans hyw.symm), hxp.trans (hsame.2.trans hyp.symm)⟩)
  · rw [collectEventsBy, uncollect_groups (groupEventsBy_sameDurs es)]
    exact (groupEventsBy_perm es).map stripContext

/-- Two equal notes and a third one with two source positions at the same time, and a note that is later. -/
theorem collectEventsBy_sameDur_chord :
    let w : Arc := ⟨0, 1⟩
    let es : List (Event ℤ) := [⟨⟨[]⟩, some w, w, 60⟩, ⟨⟨[]⟩, some ⟨1, 2⟩, ⟨1, 2⟩, 60⟩,
      ⟨⟨[((1, 1), (2, 1)), ((3, 1), (4, 1))]⟩, some w, w, 64⟩, ⟨⟨[]⟩, some w, w, 60⟩]
    (collectEventsBy sameDur es).map EventF.value = [[60, 64, 60], [60]] ∧
      ((uncollectEvents (collectEventsBy sameDur es)).map stripContext).Perm (es.map stripContext) := by
  intro w es
  refine ⟨?_, (collectEventsBy_sameDur es).2⟩
  with_unfolding_all decide

end Tidal
