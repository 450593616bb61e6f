import Tidal.UI
import Tidal.Proofs.CyclesProofs
import Tidal.Proofs.OrderProofs

/-!
# One event at a time

`mono` goes through the events of a query in the order of their wholes, and each takes the time up to its
end from all that come later. So at a moment the first event whose whole holds the moment is left, from the
last end of the events before it. Which events come before it is a matter of the query.
-/

namespace Tidal

open Pattern EventF

variable {Γ α : Type} {p : Pattern Γ α} {m : Γ} {a b : Arc} {t u v : Time}

/-! ## What is left of an event -/

/-- The event from `u` on, if it lasts longer than that. -/
def clipFrom (u : Time) (x : Event α) : Option (Event α) :=
  if x.wholeOrPart.start ≥ u then some x
  else if x.wholeOrPart.stop ≤ u then none
  else some { x with whole := some ⟨u, x.wholeOrPart.stop⟩ }

/-- The three things that can become of an event. -/
theorem clipFrom_cases (u : Time) (x : Event α) :
    (u ≤ x.wholeOrPart.start ∧ clipFrom u x = some x) ∨
    (x.wholeOrPart.start < u ∧ x.wholeOrPart.stop ≤ u ∧ clipFrom u x = none) ∨
    (x.wholeOrPart.start < u ∧ u < x.wholeOrPart.stop ∧
      clipFrom u x = some { x with whole := some ⟨u, x.wholeOrPart.stop⟩ }) := by
  unfold clipFrom
  by_cases h1 : x.wholeOrPart.start ≥ u
  · exact Or.inl ⟨h1, if_pos h1⟩
  · by_cases h2 : x.wholeOrPart.stop ≤ u
    · exact Or.inr (Or.inl ⟨not_le.mp h1, h2, by rw [if_neg h1, if_pos h2]⟩)
    · exact Or.inr (Or.inr ⟨not_le.mp h1, not_le.mp h2, by rw [if_neg h1, if_neg h2]⟩)

theorem clipFrom_self {x : Event α} (h : u ≤ x.wholeOrPart.start) : clipFrom u x = some x := if_pos h

theorem clipFrom_of_lt {x : Event α} (h : x.wholeOrPart.start < u) :
    clipFrom u x = if x.wholeOrPart.stop ≤ u then none
      else some { x with whole := some ⟨u, x.wholeOrPart.stop⟩ } := if_neg (not_le.mpr h)

theorem clipFrom_none {x : Event α} (h : clipFrom u x = none) : x.wholeOrPart.stop ≤ u := by
  rcases clipFrom_cases u x with ⟨_, h'⟩ | ⟨_, h', _⟩ | ⟨_, _, h'⟩
  · rw [h] at h'
    cases h'
  · exact h'
  · rw [h] at h'
    cases h'

/-- What is left lies in the old whole, from `u` on. -/
theorem clipFrom_some {x y : Event α} (h : clipFrom u x = some y) :
    y.wholeOrPart.start = max u x.wholeOrPart.start ∧ y.wholeOrPart.stop = x.wholeOrPart.stop ∧
      y.part = x.part ∧ y.value = x.value := by
  rcases clipFrom_cases u x with ⟨h1, h'⟩ | ⟨_, _, h'⟩ | ⟨h1, _, h'⟩
  · obtain rfl := Option.some.inj (h'.symm.trans h)
    exact ⟨(max_eq_right h1).symm, rfl, rfl, rfl⟩
  · rw [h] at h'
    cases h'
  · obtain rfl := Option.some.inj (h'.symm.trans h)
    exact ⟨(max_eq_left h1.le).symm, rfl, rfl, rfl⟩

theorem clipFrom_clipFrom (u v : Time) (x : Event α) :
    (clipFrom u x).bind (clipFrom v) = clipFrom (max u v) x := by
  rcases clipFrom_cases u x with ⟨h1, hu⟩ | ⟨h1, h2, hu⟩ | ⟨h1, h2, hu⟩
  · rw [hu, Option.bind_some]
    rcases le_total u v with huv | hvu
    · rw [max_eq_right huv]
    · rw [max_eq_left hvu, clipFrom_self h1, clipFrom_self (hvu.trans h1)]
  · have hle : x.wholeOrPart.stop ≤ max u v := h2.trans (le_max_left _ _)
    have hlt : x.wholeOrPart.start < max u v := h1.trans_le (le_max_left _ _)
    rw [hu, Option.bind_none, clipFrom, if_neg (not_le.mpr hlt), if_pos hle]
  · rw [hu, Option.bind_some]
    rcases le_or_gt v u with hvu | huv
    · rw [max_eq_left hvu, hu]
      exact clipFrom_self hvu
    · rw [max_eq_right huv.le, clipFrom_of_lt (h1.trans huv)]
      exact clipFrom_of_lt huv

/-! ## One event after the other -/

/-- When the last of the events has ended, but not before `s`. -/
def clearFrom (s : Time) (l : List (Event α)) : Time := l.foldl (fun u y => max u y.wholeOrPart.stop) s

@[simp] theorem clearFrom_nil (s : Time) : clearFrom s ([] : List (Event α)) = s := rfl

@[simp] theorem clearFrom_cons (s : Time) (x : Event α) (l : List (Event α)) :
    clearFrom s (x :: l) = clearFrom (max s x.wholeOrPart.stop) l := rfl

theorem max_clearFrom (s : Time) (l : List (Event α)) : max (clearFrom u l) s = clearFrom (max u s) l := by
  induction l generalizing u with
  | nil => rfl
  | cons x l ih => rw [clearFrom_cons, clearFrom_cons, ih, max_right_comm]

theorem le_clearFrom (s : Time) (l : List (Event α)) : s ≤ clearFrom s l := by
  induction l generalizing s with
  | nil => exact le_rfl
  | cons x l ih => exact (le_max_left _ _).trans (ih _)

theorem stop_le_clearFrom {l : List (Event α)} {y : Event α} (hy : y ∈ l) (s : Time) :
    y.wholeOrPart.stop ≤ clearFrom s l := by
  obtain ⟨l, r, rfl⟩ := List.append_of_mem hy
  rw [clearFrom, List.foldl_append, List.foldl_cons]
  exact (le_max_right _ _).trans (le_clearFrom _ r)

theorem clearFrom_le {l : List (Event α)} (hu : u ≤ t) (h : ∀ y ∈ l, y.wholeOrPart.stop ≤ t) :
    clearFrom u l ≤ t := by
  induction l generalizing u with
  | nil => exact hu
  | cons x l ih =>
    exact ih (max_le hu (h x (List.mem_cons_self ..))) fun y hy => h y (List.mem_cons_of_mem _ hy)

/-- The events, each from the end of all that come before it. -/
def serial (u : Time) : List (Event α) → List (Event α)
  | [] => []
  | x :: l => (clipFrom u x).toList ++ serial (max u x.wholeOrPart.stop) l

theorem truncateOverlaps_filterMap (u : Time) (l : List (Event α)) :
    truncateOverlaps (l.filterMap (clipFrom u)) = serial u l := by
  induction l generalizing u with
  | nil => rw [List.filterMap_nil, truncateOverlaps, serial]
  | cons x l ih =>
    rw [serial]
    cases h : clipFrom u x with
    | none =>
      rw [List.filterMap_cons_none h, ih, max_eq_left (clipFrom_none h)]
      rfl
    | some y =>
      have hbind : (fun z => (clipFrom u z).bind (snip y)) =
          clipFrom (α := α) (max u x.wholeOrPart.stop) := by
        funext z
        rw [show snip y = clipFrom (α := α) y.wholeOrPart.stop from rfl, clipFrom_clipFrom,
          (clipFrom_some h).2.1]
      rw [List.filterMap_cons_some h, truncateOverlaps, List.filterMap_filterMap, hbind, ih]
      rfl

theorem truncateOverlaps_eq {l : List (Event α)} (h : ∀ x ∈ l, u ≤ x.wholeOrPart.start) :
    truncateOverlaps l = serial u l := by
  rw [← truncateOverlaps_filterMap]
  congr 1
  symm
  rw [List.filterMap_congr fun x hx => clipFrom_self (h x hx), List.filterMap_some]

theorem serial_append (u : Time) (l r : List (Event α)) :
    serial u (l ++ r) = serial u l ++ serial (clearFrom u l) r := by
  induction l generalizing u with
  | nil => rfl
  | cons x l ih => rw [List.cons_append, serial, ih, serial, List.append_assoc, clearFrom_cons]

/-- Each event that is left is one of the old events, later. -/
theorem mem_serial {y : Event α} {l : List (Event α)} (h : y ∈ serial u l) :
    u ≤ y.wholeOrPart.start ∧ ∃ x ∈ l, x.wholeOrPart.start ≤ y.wholeOrPart.start ∧
      y.wholeOrPart.stop = x.wholeOrPart.stop := by
  induction l generalizing u with
  | nil => cases h
  | cons x l ih =>
    rcases List.mem_append.mp h with h | h
    · obtain ⟨h1, h2, _, _⟩ := clipFrom_some (Option.mem_toList.mp h)
      rw [h1, h2]
      exact ⟨le_max_left _ _, x, List.mem_cons_self .., le_max_right _ _, rfl⟩
    · obtain ⟨hle, x', hx', h'⟩ := ih h
      exact ⟨(le_max_left _ _).trans hle, x', List.mem_cons_of_mem _ hx', h'⟩

theorem constrainPart_some {x y : Event α} (h : constrainPart x = some y) :
    ∃ c, subArc x.wholeOrPart x.part = some c ∧ y = { x with part := c } := by
  simp only [constrainPart, Option.bind_eq_bind, Option.bind_eq_some_iff, Option.pure_def,
    Option.some.injEq] at h
  obtain ⟨c, hc, rfl⟩ := h
  exact ⟨c, hc, rfl⟩

/-- Events whose whole does not hold the moment are not heard. -/
theorem activeIn_constrain_eq_zero {l : List (Event α)} (h : ∀ y ∈ l, ¬ isIn y.wholeOrPart t) :
    activeIn (l.filterMap constrainPart) t = 0 := by
  refine activeIn_eq_zero fun z hz hin => ?_
  obtain ⟨y, hy, hyz⟩ := List.mem_filterMap.mp hz
  obtain ⟨c, hc, rfl⟩ := constrainPart_some hyz
  exact h y hy ((isIn_of_subArc hc).mp hin).1

theorem activeIn_constrain_one {y : Event α} {w : Arc} (hw : y.whole = some w) (hin : isIn w t) :
    activeIn ([y].filterMap constrainPart) t = if isIn y.part t then {(some w, y.value)} else 0 := by
  have hwp : y.wholeOrPart = w := by simp [wholeOrPart, hw]
  by_cases hp : isIn y.part t
  · have hc : constrainPart y = some { y with part := sect w y.part } := by
      simp [constrainPart, hwp, subArc_of_isIn hin hp]
    rw [List.filterMap_cons_some hc, if_pos hp, List.filterMap_nil, activeIn_singleton,
      if_pos (isIn_sect.mpr ⟨hin, hp⟩), hw]
  · rw [if_neg hp]
    refine activeIn_eq_zero fun z hz hzt => ?_
    obtain ⟨y', hy', hyz⟩ := List.mem_filterMap.mp hz
    obtain rfl := List.mem_singleton.mp hy'
    obtain ⟨c, hc, rfl⟩ := constrainPart_some hyz
    exact hp ((isIn_of_subArc hc).mp hzt).2

/-! ## Whose turn it is -/

/-- Of the events, `x` is the first in the order of wholes whose whole holds `t`, and `s` is when the events
before it have ended, but not before it starts. -/
def Leads (es : List (Event α)) (t : Time) (x : Event α) (s : Time) : Prop :=
  ∃ l r, sortOn (fun e => wholeKey e.whole) es = l ++ x :: r ∧ (∀ y ∈ l, ¬ isIn y.wholeOrPart t) ∧
    isIn x.wholeOrPart t ∧ s = clearFrom x.wholeOrPart.start l

theorem exists_leads {es : List (Event α)} (h : ∃ x ∈ es, isIn x.wholeOrPart t) :
    ∃ x s, Leads es t x s := by
  obtain ⟨x, hx, hin⟩ := h
  have hsome : ((sortOn (fun e => wholeKey e.whole) es).find? fun e => isIn e.wholeOrPart t).isSome := by
    rw [List.find?_isSome]
    exact ⟨x, mem_sortOn.mpr hx, by simpa using hin⟩
  obtain ⟨y, hy⟩ := Option.isSome_iff_exists.mp hsome
  obtain ⟨hyt, l, r, heq, hl⟩ := List.find?_eq_some_iff_append.mp hy
  exact ⟨y, _, l, r, heq, by simpa using hl, by simpa using hyt, rfl⟩

theorem Leads.mem {es : List (Event α)} {x : Event α} {s : Time} (h : Leads es t x s) : x ∈ es := by
  obtain ⟨l, r, heq, _, _, _⟩ := h
  rw [← mem_sortOn (f := fun e => wholeKey e.whole), heq]
  exact List.mem_append_right _ (List.mem_cons_self ..)

/-- The events of one query are digital, and end after they start. -/
def Spanning (es : List (Event α)) : Prop := ∀ e ∈ es, ∃ w, e.whole = some w ∧ w.start ≤ w.stop

theorem Seamless.spanning (hp : Seamless p) (ha : a.start ≤ a.stop) : Spanning (p.query ⟨a, m⟩) := by
  intro e he
  obtain ⟨w, hw⟩ := isDigital_iff.mp (hp.digital a m ha e he)
  obtain ⟨h1, h2, h3⟩ := hp.inWhole a m ha e he w hw
  exact ⟨w, hw, h1.trans (h2.trans h3)⟩

theorem wholeOrPart_of_whole {e : Event α} {w : Arc} (h : e.whole = some w) : e.wholeOrPart = w := by
  simp [wholeOrPart, h]

/-- The first of the events that has the whole `w`. -/
def firstOf (w : Arc) (es : List (Event α)) : Option (Event α) := es.find? fun e => e.whole = some w

/-- Of the wholes of the events, `w` is the first that holds `t`. -/
def Foremost (es : List (Event α)) (t : Time) (w : Arc) : Prop :=
  isIn w t ∧ (∃ e ∈ es, e.whole = some w) ∧ ∀ e ∈ es, ∀ z, e.whole = some z → z < w → ¬ isIn z t

theorem firstOf_some {es : List (Event α)} {x : Event α} {w : Arc} (h : firstOf w es = some x) :
    x ∈ es ∧ x.whole = some w :=
  ⟨List.mem_of_find?_eq_some h, by simpa using List.find?_some h⟩

theorem exists_firstOf {es : List (Event α)} {e : Event α} {w : Arc} (he : e ∈ es) (hw : e.whole = some w) :
    ∃ x, firstOf w es = some x := by
  refine Option.isSome_iff_exists.mp (List.find?_isSome.mpr ⟨e, he, ?_⟩)
  simpa using hw

theorem firstOf_sortOn (w : Arc) (es : List (Event α)) :
    firstOf w (sortOn (fun e => wholeKey e.whole) es) = firstOf w es := by
  rw [firstOf, firstOf, ← List.head?_filter, ← List.head?_filter]
  exact congrArg List.head? (filter_sortOn (fun e : Event α => wholeKey e.whole) (wholeKey (some w)) es)

theorem Foremost.unique {es : List (Event α)} {v w : Arc} (hv : Foremost es t v) (hw : Foremost es t w) :
    v = w := by
  obtain ⟨hvt, ⟨x, hx, hxv⟩, hv⟩ := hv
  obtain ⟨hwt, ⟨y, hy, hyw⟩, hw⟩ := hw
  rcases lt_trichotomy v w with h | h | h
  · exact absurd hvt (hw x hx v hxv h)
  · exact h
  · exact absurd hwt (hv y hy w hyw h)

section Voice

variable {es : List (Event α)} {x : Event α} {s : Time}

theorem Spanning.sorted (h : Spanning es) :
    (sortOn (fun e => wholeKey e.whole) es).Pairwise fun x y => x.wholeOrPart.start ≤ y.wholeOrPart.start := by
  refine List.Pairwise.imp_of_mem (fun {x y} hx hy hxy => ?_) (pairwise_sortOn (fun e => wholeKey e.whole) es)
  obtain ⟨v, hv, _⟩ := h x (mem_sortOn.mp hx)
  obtain ⟨w, hw, _⟩ := h y (mem_sortOn.mp hy)
  rw [wholeOrPart_of_whole hv, wholeOrPart_of_whole hw]
  rw [hv, hw] at hxy
  exact start_le_of_wholeKey hxy

/-- Only what comes before an event has an earlier whole. -/
theorem mem_before_of_lt {l r : List (Event α)} (heq : sortOn (fun e => wholeKey e.whole) es = l ++ x :: r)
    {e : Event α} {w z : Arc} (hw : x.whole = some w) (he : e ∈ es) (hz : e.whole = some z) (hlt : z < w) :
    e ∈ l := by
  have hsorted := pairwise_sortOn (fun e : Event α => wholeKey e.whole) es
  rw [heq] at hsorted
  have he' : e ∈ l ++ x :: r := heq ▸ mem_sortOn.mpr he
  refine (List.mem_append.mp he').resolve_right fun he' => ?_
  have hle : wholeKey x.whole ≤ wholeKey e.whole := by
    rcases List.mem_cons.mp he' with rfl | he'
    · exact le_rfl
    · exact List.rel_of_pairwise_cons (List.pairwise_append.mp hsorted).2.1 he'
  rw [hw, hz] at hle
  exact absurd hlt (not_lt.mpr (WithBot.coe_le_coe.mp hle))

/-- The event whose turn it is comes first with the first whole that holds the moment. -/
theorem Leads.foremost (hes : Spanning es) (h : Leads es t x s) :
    ∃ w, Foremost es t w ∧ firstOf w es = some x := by
  have hmem := h.mem
  obtain ⟨l, r, heq, hl, hx, rfl⟩ := h
  obtain ⟨w, hw, _⟩ := hes x hmem
  rw [wholeOrPart_of_whole hw] at hx
  refine ⟨w, ⟨hx, ⟨x, hmem, hw⟩, fun e he z hz hlt hin => ?_⟩, ?_⟩
  · exact hl e (mem_before_of_lt heq hw he hz hlt) (by rwa [wholeOrPart_of_whole hz])
  · rw [← firstOf_sortOn, heq, firstOf, List.find?_append, List.find?_eq_none.mpr, Option.none_or,
      List.find?_cons_of_pos (by simpa using hw)]
    intro y hy hyw
    have hyw : y.whole = some w := by simpa using hyw
    exact hl y hy (by rwa [wholeOrPart_of_whole hyw])

theorem Foremost.leads (hes : Spanning es) {w : Arc} (h : Foremost es t w) (hx : firstOf w es = some x) :
    ∃ s, Leads es t x s := by
  obtain ⟨hmem, hw⟩ := firstOf_some hx
  obtain ⟨y, s, hy⟩ := exists_leads ⟨x, hmem, by rw [wholeOrPart_of_whole hw]; exact h.1⟩
  obtain ⟨v, hv, hyv⟩ := hy.foremost hes
  obtain rfl := h.unique hv
  obtain rfl := Option.some.inj (hx.symm.trans hyv)
  exact ⟨s, hy⟩

/-- It is heard from its start if all that come before it have ended by then. -/
theorem Leads.start_iff (hes : Spanning es) (h : Leads es t x s) {w : Arc} (hw : x.whole = some w) :
    s = w.start ↔ ∀ e ∈ es, ∀ z, e.whole = some z → z < w → z.stop ≤ w.start := by
  obtain ⟨l, r, heq, hl, hx, rfl⟩ := h
  rw [wholeOrPart_of_whole hw] at hx ⊢
  constructor
  · intro hs e he z hz hlt
    have hstop := stop_le_clearFrom (mem_before_of_lt heq hw he hz hlt) w.start
    rwa [hs, wholeOrPart_of_whole hz] at hstop
  · intro hend
    have hsorted := pairwise_sortOn (fun e : Event α => wholeKey e.whole) es
    rw [heq] at hsorted
    refine le_antisymm (clearFrom_le le_rfl fun y hy => ?_) (le_clearFrom _ l)
    have hyes : y ∈ es := mem_sortOn.mp (heq ▸ List.mem_append_left _ hy)
    obtain ⟨z, hz, _⟩ := hes y hyes
    rw [wholeOrPart_of_whole hz]
    have hle : wholeKey y.whole ≤ wholeKey x.whole :=
      (List.pairwise_append.mp hsorted).2.2 y hy x List.mem_cons_self
    rw [hw, hz] at hle
    refine hend y hyes z hz ((WithBot.coe_le_coe.mp hle).lt_of_ne ?_)
    rintro rfl
    exact hl y hy (by rwa [wholeOrPart_of_whole hz])

/-- Where no whole holds the moment, nothing is heard. -/
theorem activeIn_serial_eq_zero {l : List (Event α)} (h : ∀ x ∈ l, ¬ isIn x.wholeOrPart t) (u : Time) :
    activeIn ((serial u l).filterMap constrainPart) t = 0 := by
  refine activeIn_constrain_eq_zero fun y hy hin => ?_
  obtain ⟨_, x, hx, hle, hstop⟩ := mem_serial hy
  exact h x hx ⟨hle.trans hin.1, hstop ▸ hin.2⟩

/-- The first event whose whole holds the moment is heard if its fragment holds the moment as well. -/
theorem activeIn_serial_leads (hes : Spanning es) {l r : List (Event α)}
    (heq : sortOn (fun e => wholeKey e.whole) es = l ++ x :: r) (hl : ∀ y ∈ l, ¬ isIn y.wholeOrPart t)
    (hx : isIn x.wholeOrPart t) (hu : u ≤ x.wholeOrPart.start) :
    activeIn ((serial u (l ++ x :: r)).filterMap constrainPart) t =
      if isIn x.part t then {(some ⟨clearFrom x.wholeOrPart.start l, x.wholeOrPart.stop⟩, x.value)}
      else 0 := by
  have hsorted := hes.sorted
  rw [heq] at hsorted
  -- the events before have ended by now
  have hended : ∀ y ∈ l, y.wholeOrPart.stop ≤ t := by
    intro y hy
    by_contra hstop
    exact hl y hy ⟨((List.pairwise_append.mp hsorted).2.2 y hy x (List.mem_cons_self ..)).trans hx.1,
      not_le.mp hstop⟩
  have hclear : clearFrom u l ≤ t := clearFrom_le (hu.trans hx.1) hended
  have hlt : clearFrom u l < x.wholeOrPart.stop := hclear.trans_lt hx.2
  have hmem : x ∈ es := mem_sortOn.mp (heq ▸ List.mem_append_right _ (List.mem_cons_self ..))
  obtain ⟨w, hw, _⟩ := hes x hmem
  have hmax : max (clearFrom u l) x.wholeOrPart.start = clearFrom x.wholeOrPart.start l := by
    rw [max_clearFrom, max_eq_right hu]
  -- what is left of the event
  obtain ⟨y, hclip, hwhole⟩ : ∃ y, clipFrom (clearFrom u l) x = some y ∧
      y.whole = some ⟨clearFrom x.wholeOrPart.start l, x.wholeOrPart.stop⟩ := by
    rw [← hmax]
    rcases clipFrom_cases (clearFrom u l) x with ⟨h1, h⟩ | ⟨_, h2, _⟩ | ⟨h1, _, h⟩
    · refine ⟨x, h, ?_⟩
      rw [max_eq_right h1, wholeOrPart_of_whole hw, hw]
    · exact absurd hlt (not_lt.mpr h2)
    · refine ⟨_, h, ?_⟩
      rw [max_eq_left h1.le]
  obtain ⟨_, _, hpart, hvalue⟩ := clipFrom_some hclip
  have hin : isIn ⟨clearFrom x.wholeOrPart.start l, x.wholeOrPart.stop⟩ t := by
    rw [← hmax]
    exact ⟨max_le hclear hx.1, hx.2⟩
  -- all that comes later starts when the event has ended
  have hlater : activeIn ((serial (max (clearFrom u l) x.wholeOrPart.stop) r).filterMap constrainPart) t = 0 := by
    refine activeIn_constrain_eq_zero fun z hz hzt => ?_
    exact absurd (((le_max_right _ _).trans (mem_serial hz).1).trans hzt.1) (not_le.mpr hx.2)
  rw [serial_append, List.filterMap_append, activeIn_append, activeIn_serial_eq_zero hl, zero_add, serial,
    hclip, Option.toList_some, List.filterMap_append, activeIn_append, hlater, add_zero,
    activeIn_constrain_one hwhole hin, hpart, hvalue]

end Voice

theorem act_mono_eq (p : Pattern Γ α) (m : Γ) (a : Arc) (t : Time) : ∃ u : Time,
    (∀ x ∈ p.query ⟨a, m⟩, u ≤ x.wholeOrPart.start) ∧
    act (mono p) m a t = activeIn ((serial u (sortOn (fun e => wholeKey e.whole) (p.query ⟨a, m⟩))).filterMap
      constrainPart) t := by
  -- a time before all events
  obtain ⟨u, hu⟩ : ∃ u : Time, ∀ x ∈ p.query ⟨a, m⟩, u ≤ x.wholeOrPart.start := by
    obtain ⟨u, hu⟩ := ((p.query ⟨a, m⟩).map fun x => x.wholeOrPart.start).finite_toSet.bddBelow
    exact ⟨u, fun x hx => hu (List.mem_map.mpr ⟨x, hx, rfl⟩)⟩
  have htrunc := truncateOverlaps_eq (u := u) (l := sortOn (fun e => wholeKey e.whole) (p.query ⟨a, m⟩))
    fun x hx => hu x (mem_sortOn.mp hx)
  exact ⟨u, hu, by rw [← htrunc]; rfl⟩

theorem act_mono_leads (hp : Seamless p) (hat : isIn a t) {x : Event α} {s : Time}
    (h : Leads (p.query ⟨a, m⟩) t x s) :
    act (mono p) m a t = if isIn x.part t then {(some ⟨s, x.wholeOrPart.stop⟩, x.value)} else 0 := by
  have hle := (isIn_pos hat).le
  obtain ⟨u, hu, hact⟩ := act_mono_eq p m a t
  have hmem := h.mem
  obtain ⟨l, r, heq, hl, hx, rfl⟩ := h
  rw [hact, heq]
  exact activeIn_serial_leads (hp.spanning hle) heq hl hx (hu x hmem)

theorem act_mono_silent
    (h : ¬ ∃ x ∈ p.query ⟨a, m⟩, isIn x.wholeOrPart t) : act (mono p) m a t = 0 := by
  obtain ⟨u, _, hact⟩ := act_mono_eq p m a t
  rw [hact]
  exact activeIn_serial_eq_zero (fun x hx hxt => h ⟨x, mem_sortOn.mp hx, hxt⟩) u

/-! ## All queries alike -/

/-- What a query hears of `mono` at a moment: nothing, or the event whose turn it is. -/
theorem act_mono_cases (hp : Seamless p) (hat : isIn a t) :
    (act (mono p) m a t = 0 ∧ ∀ x s, Leads (p.query ⟨a, m⟩) t x s → ¬ isIn x.part t) ∨
    ∃ x s, Leads (p.query ⟨a, m⟩) t x s ∧ isIn x.part t ∧
      act (mono p) m a t = {(some ⟨s, x.wholeOrPart.stop⟩, x.value)} := by
  by_cases h : ∃ x s, Leads (p.query ⟨a, m⟩) t x s ∧ isIn x.part t
  · obtain ⟨x, s, hx, hpart⟩ := h
    exact Or.inr ⟨x, s, hx, hpart, by rw [act_mono_leads hp hat hx, if_pos hpart]⟩
  · have hsilent : ∀ x s, Leads (p.query ⟨a, m⟩) t x s → ¬ isIn x.part t := fun x s hx hpart =>
      h ⟨x, s, hx, hpart⟩
    refine Or.inl ⟨?_, hsilent⟩
    by_cases hex : ∃ x ∈ p.query ⟨a, m⟩, isIn x.wholeOrPart t
    · obtain ⟨x, s, hx⟩ := exists_leads hex
      rw [act_mono_leads hp hat hx, if_neg (hsilent x s hx)]
    · exact act_mono_silent hex

/-- Whose turn it is in one query is seen in what is heard. -/
theorem act_mono_same (hp : Seamless p) (ha : isIn a t) (hb : isIn b t)
    (h : act (mono p) m a t = act (mono p) m b t) {x : Event α} {s : Time}
    (hx : Leads (p.query ⟨a, m⟩) t x s) (hpart : isIn x.part t) :
    ∃ x', Leads (p.query ⟨b, m⟩) t x' s ∧ isIn x'.part t ∧
      x'.wholeOrPart.stop = x.wholeOrPart.stop ∧ x'.value = x.value := by
  rw [act_mono_leads hp ha hx, if_pos hpart] at h
  rcases act_mono_cases (m := m) hp hb with ⟨hzero, _⟩ | ⟨x', s', hx', hpart', hact⟩
  · rw [hzero] at h
    exact absurd h (Multiset.singleton_ne_zero _)
  · rw [hact, Multiset.singleton_inj, Prod.mk.injEq, Option.some.injEq, ArcF.mk.injEq] at h
    obtain ⟨⟨rfl, hstop⟩, hvalue⟩ := h
    exact ⟨x', hx', hpart', hstop.symm, hvalue.symm⟩

/-- After any moment there is a time before the next of finitely many. -/
theorem exists_gap (l : List Time) (t : Time) : ∃ b, t < b ∧ b ≤ t + 1 ∧ ∀ s ∈ l, s ≤ t ∨ b ≤ s := by
  induction l with
  | nil => exact ⟨t + 1, lt_add_one t, le_rfl, fun s hs => absurd hs List.not_mem_nil⟩
  | cons x l ih =>
    obtain ⟨b, htb, hb1, hb⟩ := ih
    rcases le_or_gt x t with hx | hx
    · refine ⟨b, htb, hb1, fun s hs => ?_⟩
      rcases List.mem_cons.mp hs with rfl | hs
      · exact Or.inl hx
      · exact hb s hs
    · refine ⟨min b x, lt_min htb hx, (min_le_left _ _).trans hb1, fun s hs => ?_⟩
      rcases List.mem_cons.mp hs with rfl | hs
      · exact Or.inr (min_le_right _ _)
      · exact (hb s hs).imp_right fun h => (min_le_left _ _).trans h

/-- A query of the moment and what follows shortly sees only events that play at the moment. -/
theorem exists_narrow (hp : Seamless p) (hthick : Thick p) (m : Γ) (t : Time) :
    ∃ a, isIn a t ∧ ∀ e ∈ p.query ⟨a, m⟩, (e.whole, e.value) ∈ behaviour p m t := by
  obtain ⟨b, htb, hb1, hb⟩ := exists_gap ((p.query ⟨⟨t, t + 1⟩, m⟩).map fun e => e.part.start) t
  have hin : isIn ⟨t, b⟩ t := ⟨le_rfl, htb⟩
  refine ⟨⟨t, b⟩, hin, fun e he => ?_⟩
  have hpos := hthick _ m (isIn_pos hin) e he
  obtain ⟨hstart, _, hstop⟩ := hp.isLocal.within (isIn_pos hin) he hpos
  -- when the fragment starts, the wider query hears the event as well
  have hu : isIn ⟨t, b⟩ e.part.start := ⟨hstart, hpos.trans_le hstop⟩
  have hactive : (e.whole, e.value) ∈ act p m ⟨t, b⟩ e.part.start :=
    mem_activeIn.mpr ⟨e, he, ⟨le_rfl, hpos⟩, rfl⟩
  rw [hp.steady ⟨t, b⟩ ⟨t, t + 1⟩ m e.part.start hu ⟨hu.1, hu.2.trans_le hb1⟩] at hactive
  obtain ⟨e', he', hin', heq⟩ := mem_activeIn.mp hactive
  -- and there it has been playing since the moment
  have hsince : e'.part.start ≤ t := by
    rcases hb _ (List.mem_map.mpr ⟨e', he', rfl⟩) with h | h
    · exact h
    · exact absurd (h.trans hin'.1) (not_le.mpr hu.2)
  exact mem_activeIn.mpr ⟨e', he', ⟨hsince, hu.1.trans_lt hin'.2⟩, heq⟩

/-- No query around the moment hears the event whose turn it is: its first fragment there lies elsewhere. -/
def Unheard (p : Pattern Γ α) (m : Γ) (t : Time) : Prop :=
  ∀ a, isIn a t → ∀ w x, Foremost (p.query ⟨a, m⟩) t w → firstOf w (p.query ⟨a, m⟩) = some x → ¬ isIn x.part t

/-- The first fragment with the whole `w` in every query around the moment is one that holds it, with the
value `v`. -/
def Listed (p : Pattern Γ α) (m : Γ) (t : Time) (w : Arc) (v : α) : Prop :=
  ∀ a, isIn a t → ∃ x, firstOf w (p.query ⟨a, m⟩) = some x ∧ x.value = v ∧ isIn x.part t

theorem Listed.plays {w : Arc} {x : α} (h : Listed p m t w x) : (some w, x) ∈ behaviour p m t := by
  obtain ⟨e, he, rfl, hin⟩ := h ⟨t, t + 1⟩ ⟨le_rfl, lt_add_one t⟩
  obtain ⟨hmem, hw⟩ := firstOf_some he
  exact mem_activeIn.mpr ⟨e, hmem, hin, by rw [hw]⟩

/-- Nothing is heard, or an event that no earlier one in the query reaches into. -/
theorem act_mono_whole (hp : Seamless p) (hat : isIn a t) {w : Arc} {x : Event α}
    (hx : firstOf w (p.query ⟨a, m⟩) = some x) (hpart : isIn x.part t)
    (hend : ∀ e ∈ p.query ⟨a, m⟩, ∀ z, e.whole = some z → z < w → z.stop ≤ w.start) :
    act (mono p) m a t = {(some w, x.value)} := by
  have hes := hp.spanning (m := m) (isIn_pos hat).le
  obtain ⟨hmem, hw⟩ := firstOf_some hx
  obtain ⟨w', hw', hin⟩ := hp.whole_of_mem (isIn_pos hat).le hmem hpart
  obtain rfl := Option.some.inj (hw.symm.trans hw')
  have hfore : Foremost (p.query ⟨a, m⟩) t w := by
    refine ⟨hin, ⟨x, hmem, hw⟩, fun e he z hz hlt hzt => ?_⟩
    exact absurd (hzt.2.trans_le (hend e he z hz hlt)) (not_lt.mpr hin.1)
  obtain ⟨s, hs⟩ := hfore.leads hes hx
  rw [act_mono_leads hp hat hs, if_pos hpart, (hs.start_iff hes hw).mpr hend, wholeOrPart_of_whole hw]

theorem act_mono_unheard (hp : Seamless p) (h : Unheard p m t) (hat : isIn a t) : act (mono p) m a t = 0 := by
  rcases act_mono_cases (m := m) hp hat with ⟨hzero, _⟩ | ⟨x, s, hx, hpart, _⟩
  · exact hzero
  · obtain ⟨w, hw, hfirst⟩ := hx.foremost (hp.spanning (isIn_pos hat).le)
    exact absurd hpart (h a hat w x hw hfirst)

/-- No event is shortened in the same way in all queries: the narrow ones see nothing that ends before. -/
theorem whole_of_act_mono_same (hp : Seamless p) (hthick : Thick p)
    (h : ∀ a b, isIn a t → isIn b t → act (mono p) m a t = act (mono p) m b t) :
    Unheard p m t ∨ ∃ w v, Listed p m t w v ∧
      ∀ a, isIn a t → ∀ e ∈ p.query ⟨a, m⟩, ∀ z, e.whole = some z → z < w → z.stop ≤ w.start := by
  by_cases hunheard : Unheard p m t
  · exact Or.inl hunheard
  right
  unfold Unheard at hunheard
  push Not at hunheard
  obtain ⟨c, hc, w₀, x₀, hfore₀, hfirst₀, hpart₀⟩ := hunheard
  obtain ⟨s₀, hx₀⟩ := hfore₀.leads (hp.spanning (isIn_pos hc).le) hfirst₀
  obtain ⟨n, hn, hall⟩ := exists_narrow hp hthick m t
  have hwhole : ∀ e ∈ p.query ⟨n, m⟩, ∀ z, e.whole = some z → isIn z t := by
    intro e he z hz
    obtain ⟨z', hz', hin⟩ := hp.whole_isIn (hall e he)
    rwa [Option.some.inj (hz.symm.trans hz')]
  obtain ⟨y, hy, hypart, _, _⟩ := act_mono_same hp hc hn (h c n hc hn) hx₀ hpart₀
  have hnes := hp.spanning (m := m) (isIn_pos hn).le
  obtain ⟨w, hfore, hyfirst⟩ := hy.foremost hnes
  obtain ⟨hymem, hyw⟩ := firstOf_some hyfirst
  -- nothing comes before in the narrow query
  have hleast : ∀ e ∈ p.query ⟨n, m⟩, ∀ z, e.whole = some z → w ≤ z := fun e he z hz =>
    not_lt.mp fun hlt => hfore.2.2 e he z hz hlt (hwhole e he z hz)
  obtain rfl := (hy.start_iff hnes hyw).mpr fun e he z hz hlt => absurd hlt (not_lt.mpr (hleast e he z hz))
  have hlisted : ∀ a, isIn a t → (∃ x, firstOf w (p.query ⟨a, m⟩) = some x ∧ x.value = y.value ∧ isIn x.part t) ∧
      ∀ e ∈ p.query ⟨a, m⟩, ∀ z, e.whole = some z → z < w → z.stop ≤ w.start := by
    intro a ha
    have hes := hp.spanning (m := m) (isIn_pos ha).le
    obtain ⟨x, hx, hpart, hstop, hvalue⟩ := act_mono_same hp hn ha (h n a hn ha) hy hypart
    obtain ⟨v, hv, hxfirst⟩ := hx.foremost hes
    obtain ⟨hxmem, hxv⟩ := firstOf_some hxfirst
    -- the event plays, so the narrow query has it as well
    have hplays : (x.whole, x.value) ∈ act p m n t := by
      rw [hp.steady n a m t hn ha]
      exact mem_activeIn.mpr ⟨x, hxmem, hpart, rfl⟩
    obtain ⟨z, hz, _, hzx⟩ := mem_activeIn.mp hplays
    have hle : w ≤ v := hleast z hz v (by rw [(Prod.mk.inj hzx).1, hxv])
    rw [wholeOrPart_of_whole hxv, wholeOrPart_of_whole hyw] at hstop
    have hge : v.start ≤ w.start := by
      obtain ⟨l, _, _, _, _, hs⟩ := hx
      rw [hs, wholeOrPart_of_whole hxv]
      exact le_clearFrom _ l
    obtain rfl : v = w := by
      obtain ⟨v1, v2⟩ := v
      obtain ⟨w1, w2⟩ := w
      have hstart : w1 ≤ v1 := start_le_of_wholeKey (WithBot.coe_le_coe.mpr hle)
      simp only at hge hstop
      rw [le_antisymm hge hstart, hstop]
    exact ⟨⟨x, hxfirst, hvalue, hpart⟩, (hx.start_iff hes hxv).mp rfl⟩
  exact ⟨w, y.value, fun a ha => (hlisted a ha).1, fun a ha => (hlisted a ha).2⟩

/-! ## In terms of what the pattern plays -/

/-- The events of all queries around a moment are those that play at some time. -/
theorem ended_iff_plays (hp : Seamless p) (hthick : Thick p) (w : Arc) :
    (∀ a, isIn a t → ∀ e ∈ p.query ⟨a, m⟩, ∀ z, e.whole = some z → z < w → z.stop ≤ w.start) ↔
      ∀ u z x, (some z, x) ∈ behaviour p m u → z < w → z.stop ≤ w.start := by
  constructor
  · intro h u z x hx
    -- a query of both moments
    let b : Arc := ⟨min t u, max t u + 1⟩
    have ht : isIn b t := ⟨min_le_left t u, lt_add_of_le_of_pos (le_max_left t u) one_pos⟩
    have hu : isIn b u := ⟨min_le_right t u, lt_add_of_le_of_pos (le_max_right t u) one_pos⟩
    rw [← hp.steady.act_eq m hu] at hx
    obtain ⟨e, he, _, hex⟩ := mem_activeIn.mp hx
    exact h b ht e he z (Prod.mk.inj hex).1
  · intro h a ha e he z hz
    have hpos := hthick a m (isIn_pos ha) e he
    obtain ⟨hstart, _, hstop⟩ := hp.isLocal.within (isIn_pos ha) he hpos
    refine h e.part.start z e.value ?_
    rw [← hp.steady.act_eq m (a := a) ⟨hstart, hpos.trans_le hstop⟩]
    exact mem_activeIn.mpr ⟨e, he, ⟨le_rfl, hpos⟩, by rw [hz]⟩

/-- No query around the moment answers with two different events for a whole that plays there. -/
def ListedOnce (p : Pattern Γ α) (m : Γ) (t : Time) : Prop :=
  ∀ a, isIn a t → ∀ w v, (some w, v) ∈ behaviour p m t → ∀ e ∈ p.query ⟨a, m⟩, ∀ e' ∈ p.query ⟨a, m⟩,
    e.whole = some w → e'.whole = some w → e = e'

theorem ListedOnce.listed_iff (h : ListedOnce p m t) (hp : Seamless p) {w : Arc} {x : α} :
    Listed p m t w x ↔ (some w, x) ∈ behaviour p m t := by
  refine ⟨Listed.plays, fun hx a ha => ?_⟩
  have hact := hx
  rw [← hp.steady.act_eq m ha] at hact
  obtain ⟨e, he, hin, hex⟩ := mem_activeIn.mp hact
  obtain ⟨hw, rfl⟩ := Prod.mk.inj hex
  obtain ⟨y, hy⟩ := exists_firstOf he hw
  obtain ⟨hymem, hyw⟩ := firstOf_some hy
  obtain rfl := h a ha w e.value hx e he y hymem hw hyw
  exact ⟨e, hy, rfl, hin⟩

theorem ListedOnce.unheard_iff (h : ListedOnce p m t) (hp : Seamless p) (hthick : Thick p) :
    Unheard p m t ↔ behaviour p m t = 0 := by
  constructor
  · intro hunheard
    by_contra hne
    obtain ⟨x, hx⟩ := Multiset.exists_mem_of_ne_zero hne
    obtain ⟨n, hn, hall⟩ := exists_narrow hp hthick m t
    obtain ⟨w₀, hw₀, hin₀⟩ := hp.whole_isIn hx
    rw [← hp.steady.act_eq m hn] at hx
    obtain ⟨e, he, _, rfl⟩ := mem_activeIn.mp hx
    rw [← wholeOrPart_of_whole hw₀] at hin₀
    obtain ⟨y, s, hy⟩ := exists_leads ⟨e, he, hin₀⟩
    obtain ⟨w, hfore, hfirst⟩ := hy.foremost (hp.spanning (isIn_pos hn).le)
    obtain ⟨hymem, hyw⟩ := firstOf_some hfirst
    have hplays := hall y hymem
    rw [hyw] at hplays
    obtain ⟨y', hy', _, hin⟩ := (h.listed_iff hp).mpr hplays n hn
    obtain rfl := Option.some.inj (hfirst.symm.trans hy')
    exact hunheard n hn w y hfore hfirst hin
  · intro hzero a ha w x _ hfirst hin
    have hx : (x.whole, x.value) ∈ act p m a t := mem_activeIn.mpr ⟨x, (firstOf_some hfirst).1, hin, rfl⟩
    rw [hp.steady.act_eq m ha, hzero] at hx
    exact Multiset.notMem_zero _ hx

/-- At most one event of `mono` is heard at a moment. If no query around the moment splits a whole that plays
there, all queries hear the same exactly if nothing plays there or there is an event that plays there and that
no event of the pattern, at whatever time, comes before and overlaps. If queries answer with several fragments
of one whole, only the first of them counts: they hear the same exactly if they hear nothing or all have such
an event first with its whole. Where they also answer with fragments of no width, this is enough if these do
not overlap the event either. -/
theorem mono_slicing_iff (p : Pattern Γ α) (hp : Seamless p) (m : Γ) (t : Time) :
    (∀ a, isIn a t → (act (mono p) m a t).card ≤ 1) ∧
    (Thick p → ListedOnce p m t →
      ((∀ a b, isIn a t → isIn b t → act (mono p) m a t = act (mono p) m b t) ↔
        behaviour p m t = 0 ∨ ∃ w v, (some w, v) ∈ behaviour p m t ∧
          ∀ u z x, (some z, x) ∈ behaviour p m u → z < w → z.stop ≤ w.start)) ∧
    (Thick p →
      ((∀ a b, isIn a t → isIn b t → act (mono p) m a t = act (mono p) m b t) ↔
        Unheard p m t ∨ ∃ w v, Listed p m t w v ∧
          ∀ u z x, (some z, x) ∈ behaviour p m u → z < w → z.stop ≤ w.start)) ∧
    ((Unheard p m t ∨ ∃ w v, Listed p m t w v ∧
        ∀ a, isIn a t → ∀ e ∈ p.query ⟨a, m⟩, ∀ z, e.whole = some z → z < w → z.stop ≤ w.start) →
      ∀ a b, isIn a t → isIn b t → act (mono p) m a t = act (mono p) m b t) := by
  have henough : (Unheard p m t ∨ ∃ w v, Listed p m t w v ∧
        ∀ a, isIn a t → ∀ e ∈ p.query ⟨a, m⟩, ∀ z, e.whole = some z → z < w → z.stop ≤ w.start) →
      ∀ a b, isIn a t → isIn b t → act (mono p) m a t = act (mono p) m b t := by
    rintro (h | ⟨w, v, hlisted, hend⟩) a b ha hb
    · rw [act_mono_unheard hp h ha, act_mono_unheard hp h hb]
    · obtain ⟨x, hx, rfl, hxpart⟩ := hlisted a ha
      obtain ⟨y, hy, hvalue, hypart⟩ := hlisted b hb
      rw [act_mono_whole hp ha hx hxpart (hend a ha), act_mono_whole hp hb hy hypart (hend b hb), hvalue]
  have hthickIff : Thick p →
      ((∀ a b, isIn a t → isIn b t → act (mono p) m a t = act (mono p) m b t) ↔
        Unheard p m t ∨ ∃ w v, Listed p m t w v ∧
          ∀ u z x, (some z, x) ∈ behaviour p m u → z < w → z.stop ≤ w.start) := by
    intro hthick
    simp only [← ended_iff_plays (t := t) hp hthick]
    exact ⟨whole_of_act_mono_same hp hthick, henough⟩
  refine ⟨fun a ha => ?_, fun hthick honce => ?_, hthickIff, henough⟩
  · rcases act_mono_cases (m := m) hp ha with ⟨hact, _⟩ | ⟨x, s, _, _, hact⟩
    · simp [hact]
    · simp [hact]
  · rw [hthickIff hthick, honce.unheard_iff hp hthick]
    simp only [honce.listed_iff hp]

/-- A voice of whole cycles, and one twice as fast. -/
def doubled : Pattern Unit ℕ := stack [Pattern.pure 0, _fast 2 (Pattern.pure 1)]

theorem seamless_doubled : Seamless doubled := by
  refine (regular_stack fun q hq => ?_).seamless
  rcases List.mem_cons.mp hq with rfl | hq
  · exact regular_pure 0
  · rw [List.mem_singleton.mp hq]
    exact regular_fast 2 (regular_pure 1)

theorem thick_doubled : Thick doubled := by
  have h : WellFormed True doubled := by
    refine wellFormed_stack fun q hq => ?_
    rcases List.mem_cons.mp hq with rfl | hq
    · exact wellFormed_pure 0
    · rw [List.mem_singleton.mp hq]
      exact wellFormed_fast 2 (wellFormed_pure 1)
  exact fun a m ha e he => (h a m ha.le e he).fits.2 trivial ha

/-- The events of a query: one for each cycle of either voice. -/
theorem mem_doubled {e : Event ℕ} (he : e ∈ doubled.query ⟨a, ()⟩) : ∃ c : ℤ,
    e = ⟨⟨[]⟩, some ⟨c, c + 1⟩, sect a ⟨c, c + 1⟩, 0⟩ ∨
    e = ⟨⟨[]⟩, some ⟨c / 2, (c + 1) / 2⟩, (sect (a.map (· * 2)) ⟨c, c + 1⟩).map (· / 2), 1⟩ := by
  have hcycle : ∀ c : ℤ, timeToCycleArc (c : Time) = ⟨c, c + 1⟩ := fun c => by
    simp [timeToCycleArc, sam]
  rw [doubled, stack_query, fast_of_pos two_pos, List.flatMap_cons, List.flatMap_singleton] at he
  rcases List.mem_append.mp he with he | he
  · simp only [Pattern.pure, cycleArcsInArc, List.map_map] at he
    obtain ⟨c, _, rfl⟩ := List.mem_map.mp he
    exact ⟨c, Or.inl (by rw [Function.comp_apply, hcycle])⟩
  · obtain ⟨e', he', rfl⟩ := List.mem_map.mp he
    change e' ∈ (Pattern.pure 1 : Pattern Unit ℕ).query ⟨a.map (· * 2), ()⟩ at he'
    simp only [Pattern.pure, cycleArcsInArc, List.map_map] at he'
    obtain ⟨c, _, rfl⟩ := List.mem_map.mp he'
    refine ⟨c, Or.inr ?_⟩
    rw [Function.comp_apply, hcycle]
    rfl

theorem listedOnce_doubled (t : Time) : ListedOnce doubled () t := by
  intro a _ w v _ e he e' he' hw hw'
  obtain ⟨c, hc⟩ := mem_doubled he
  obtain ⟨c', hc'⟩ := mem_doubled he'
  rcases hc with rfl | rfl <;> rcases hc' with rfl | rfl <;>
    (have h := hw.trans hw'.symm
     simp only [Option.some.injEq, ArcF.mk.injEq] at h)
  · rw [Int.cast_inj.mp h.1]
  · exact absurd h.2 (by linarith)
  · exact absurd h.2 (by linarith)
  · rw [Int.cast_inj.mp (show (c : Time) = c' by linarith)]

/-- What comes before the first note of the fast voice has ended by then. -/
theorem ended_doubled {z : Arc} {x : ℕ} (hx : (some z, x) ∈ behaviour doubled () u)
    (hlt : z < ⟨0, 1 / 2⟩) : z.stop ≤ 0 := by
  obtain ⟨e, he, _, hex⟩ := mem_activeIn.mp hx
  obtain ⟨c, hc⟩ := mem_doubled he
  have hz : e.whole = some z := (Prod.mk.inj hex).1
  have hlex := Prod.Lex.toLex_lt_toLex.mp (show toLex (z.start, z.stop) < toLex ((0 : Time), 1 / 2) from hlt)
  have hneg : (c : Time) < 0 → (c : Time) + 1 ≤ 0 := fun h => by exact_mod_cast h
  rcases hc with rfl | rfl
  · obtain rfl := Option.some.inj hz
    rcases hlex with h | ⟨h, h'⟩
    · exact hneg h
    · simp only at h h'
      linarith
  · obtain rfl := Option.some.inj hz
    rcases hlex with h | ⟨h, h'⟩
    · simp only at h ⊢
      linarith [hneg (by linarith)]
    · simp only at h h'
      linarith

/-- The first note of the fast voice comes before the slow one, which is cut where the fast voice has its
second note. -/
theorem mono_slicing_iff_doubled :
    (∀ a b, isIn a (1 / 4) → isIn b (1 / 4) →
      act (mono doubled) () a (1 / 4) = act (mono doubled) () b (1 / 4)) ∧
    ¬ ∀ a b, isIn a (3 / 4) → isIn b (3 / 4) →
      act (mono doubled) () a (3 / 4) = act (mono doubled) () b (3 / 4) := by
  have hfirst : (some ⟨0, 1 / 2⟩, 1) ∈ behaviour doubled () (1 / 4) := by with_unfolding_all decide
  constructor
  · exact ((mono_slicing_iff doubled seamless_doubled () (1 / 4)).2.1 thick_doubled
      (listedOnce_doubled _)).mpr (Or.inr ⟨⟨0, 1 / 2⟩, 1, hfirst, fun u z x hx hlt => ended_doubled hx hlt⟩)
  · intro h
    have hslow : (some ⟨0, 1⟩, 0) ∈ behaviour doubled () (1 / 4) := by with_unfolding_all decide
    have hboth : behaviour doubled () (3 / 4) = {(some ⟨0, 1⟩, 0), (some ⟨1 / 2, 1⟩, 1)} := by
      with_unfolding_all decide
    rcases ((mono_slicing_iff doubled seamless_doubled () (3 / 4)).2.1 thick_doubled
      (listedOnce_doubled _)).mp h with hnone | ⟨w, v, hw, hend⟩
    · rw [hboth] at hnone
      exact Multiset.cons_ne_zero hnone
    · rw [hboth] at hw
      rcases Multiset.mem_cons.mp hw with hw | hw
      · obtain ⟨rfl, -⟩ := Prod.mk.inj hw |>.imp Option.some.inj id
        exact absurd (hend _ _ _ hfirst (by with_unfolding_all decide)) (by norm_num)
      · obtain ⟨rfl, -⟩ := Prod.mk.inj (Multiset.mem_singleton.mp hw) |>.imp Option.some.inj id
        exact absurd (hend _ _ _ hslow (by with_unfolding_all decide)) (by norm_num)

/-- Two voices, one a quarter of a cycle before the other. -/
def staggered : Pattern Unit ℕ := stack [Pattern.pure 0, rotL (1 / 4) (Pattern.pure 1)]

theorem seamless_staggered : Seamless staggered := by
  refine (regular_stack fun q hq => ?_).seamless
  rcases List.mem_cons.mp hq with rfl | hq
  · exact regular_pure 0
  · rw [List.mem_singleton.mp hq]
    exact regular_rotL _ (regular_pure 1)

/-- A query of the whole cycle hears the first voice from where the second one ended, a query of the end of the
cycle hears it from the start of the cycle. -/
theorem mono_staggered_sliced :
    Seamless staggered ∧
    act (mono staggered) () ⟨0, 1⟩ (7 / 8) = {(some ⟨3 / 4, 1⟩, 0)} ∧
    act (mono staggered) () ⟨7 / 8, 1⟩ (7 / 8) = {(some ⟨0, 1⟩, 0)} :=
  ⟨seamless_staggered, by with_unfolding_all decide, by with_unfolding_all decide⟩

end Tidal
