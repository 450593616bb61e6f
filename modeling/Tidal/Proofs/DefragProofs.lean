import Tidal.Active

/-!
# Fragments put together

`defragParts` puts each event together with the first later one that is adjacent to it, and does not look at
the two again. What is covered stays the same; adjacent fragments may be left where an event was adjacent to
more than one other.
-/

namespace Tidal

open EventF

variable {α : Type} {t : Time}

/-! ## Adjacent events -/

/-- Of the same whole, with the same value. -/
def Alike (e e' : Event α) : Prop := e.whole = e'.whole ∧ e.value = e'.value

/-- The instants that the events with this whole and this value cover. -/
def Covers (es : List (Event α)) (w : Option Arc) (v : α) (t : Time) : Prop :=
  ∃ e ∈ es, e.whole = w ∧ e.value = v ∧ isIn e.part t

/-- Parts of the same whole and value do not overlap. -/
def NoOverlap (e e' : Event α) : Prop :=
  Alike e e' → e.part.stop ≤ e'.part.start ∨ e'.part.stop ≤ e.part.start

/-- Parts of positive width, and those of the same whole and value do not overlap. -/
structure Fragments (es : List (Event α)) : Prop where
  width : ∀ e ∈ es, e.part.start < e.part.stop
  apart : es.Pairwise NoOverlap

section Covered

variable {e e' d : Event α} {es es' : List (Event α)}

theorem Alike.symm (h : Alike e e') : Alike e' e := ⟨h.1.symm, h.2.symm⟩

theorem Alike.trans (h : Alike e e') (h' : Alike e' d) : Alike e d := ⟨h.1.trans h'.1, h.2.trans h'.2⟩

theorem Covers.cons (w : Option Arc) (v : α) (t : Time) :
    Covers (e :: es) w v t ↔ (e.whole = w ∧ e.value = v ∧ isIn e.part t) ∨ Covers es w v t := by
  simp [Covers]

theorem Covers.perm (h : es.Perm es') (w : Option Arc) (v : α) (t : Time) :
    Covers es w v t ↔ Covers es' w v t := by
  simp only [Covers, h.mem_iff]

/-- Arcs that touch cover what their hull covers. -/
theorem isIn_hull_iff {b b' : Arc} (h : b.stop = b'.start ∨ b'.stop = b.start) :
    isIn (hull b b') t ↔ isIn b t ∨ isIn b' t := by
  simp only [isIn, hull, min_le_iff, lt_max_iff]
  rcases h with h | h
  · rw [← h]
    by_cases hb : t < b.stop
    · have := not_le.mpr hb
      tauto
    · have := not_lt.mp hb
      tauto
  · rw [← h]
    by_cases hb : t < b'.stop
    · have := not_le.mpr hb
      tauto
    · have := not_lt.mp hb
      tauto

theorem NoOverlap.symm (h : NoOverlap e e') : NoOverlap e' e := fun hs => (h hs.symm).symm

theorem Fragments.perm (h : es.Perm es') (hes : Fragments es) : Fragments es' :=
  ⟨fun e he => hes.width e (h.mem_iff.mpr he),
    (h.pairwise_iff fun h => NoOverlap.symm h).mp hes.apart⟩

theorem Fragments.tail (h : Fragments (e :: es)) : Fragments es :=
  ⟨fun x hx => h.width x (List.mem_cons_of_mem _ hx), h.apart.of_cons⟩

theorem Fragments.head (h : Fragments (e :: es)) : ∀ x ∈ es, NoOverlap e x :=
  (List.pairwise_cons.mp h.apart).1

end Covered

/-- A last event of the first group ends where a first event of the second starts. -/
def Meets (g g' : List (Event α)) : Prop :=
  ∃ e ∈ g, ∃ e' ∈ g', Alike e e' ∧ e.part.stop = e'.part.start ∧
    (∀ d ∈ g, d.part.stop ≤ e.part.stop) ∧ ∀ d ∈ g', e'.part.start ≤ d.part.start

/-- The event reaches over the group. -/
structure Hulls (g : List (Event α)) (x : Event α) : Prop where
  alike : ∀ e ∈ g, Alike x e
  start : IsLeast {s | ∃ e ∈ g, e.part.start = s} x.part.start
  stop : IsGreatest {s | ∃ e ∈ g, e.part.stop = s} x.part.stop

theorem Hulls.meets {g g' : List (Event α)} {x x' : Event α} (h : Hulls g x) (h' : Hulls g' x') :
    Meets g g' ↔ Alike x x' ∧ x.part.stop = x'.part.start := by
  constructor
  · rintro ⟨e, he, e', he', hs, hends, hlast, hfirst⟩
    have hstop : x.part.stop = e.part.stop := by
      obtain ⟨d, hd, hdx⟩ := h.stop.1
      exact le_antisymm (hdx ▸ hlast d hd) (h.stop.2 ⟨e, he, rfl⟩)
    have hstart : x'.part.start = e'.part.start := by
      obtain ⟨d, hd, hdx⟩ := h'.start.1
      exact le_antisymm (h'.start.2 ⟨e', he', rfl⟩) (hdx ▸ hfirst d hd)
    exact ⟨((h.alike e he).trans hs).trans (h'.alike e' he').symm, by rw [hstop, hstart, hends]⟩
  · rintro ⟨hs, hends⟩
    obtain ⟨e, he, hex⟩ := h.stop.1
    obtain ⟨e', he', hex'⟩ := h'.start.1
    refine ⟨e, he, e', he', ((h.alike e he).symm.trans hs).trans (h'.alike e' he'), ?_, ?_, ?_⟩
    · rw [hex, hex', hends]
    · exact fun d hd => hex.symm ▸ h.stop.2 ⟨d, hd, rfl⟩
    · exact fun d hd => hex'.symm ▸ h'.start.2 ⟨d, hd, rfl⟩

theorem hulls_singleton (e : Event α) : Hulls [e] e where
  alike := by
    intro d hd
    rw [List.mem_singleton.mp hd]
    exact ⟨rfl, rfl⟩
  start := by simp
  stop := by simp

theorem ends_pair (f : Event α → Time) (e e' : Event α) : {s | ∃ d ∈ [e, e'], f d = s} = {f e, f e'} := by
  ext s
  simp [eq_comm]

variable [DecidableEq α] {e e' d x y : Event α} {es es' : List (Event α)}

/-- No two events of the list are adjacent. -/
def NoneAdjacent (es : List (Event α)) : Prop := es.Pairwise fun e e' => ¬ e.isAdjacent e'

/-- What putting the fragments of a list together is for. -/
structure Defragged (es res : List (Event α)) : Prop where
  noneAdjacent : NoneAdjacent res
  covers : ∀ w v t, Covers res w v t ↔ Covers es w v t

/-- The event that `defragParts` makes of two adjacent ones. -/
def merged (e e' : Event α) : Event α := { e with part := hull e.part e'.part }

theorem isAdjacent_iff : e.isAdjacent e' ↔
    Alike e e' ∧ (e.part.stop = e'.part.start ∨ e'.part.stop = e.part.start) := by
  simp [isAdjacent, Alike, and_assoc]

theorem isAdjacent_symm (h : e.isAdjacent e') : e'.isAdjacent e := by
  rw [isAdjacent_iff] at h ⊢
  exact ⟨h.1.symm, h.2.symm⟩

theorem defragParts_some (h : es.find? e.isAdjacent = some e') :
    defragParts (e :: es) = merged e e' :: defragParts (es.erase e') := by
  rw [defragParts]
  split
  · rename_i e'' h'
    obtain rfl := Option.some.inj (h.symm.trans h')
    rfl
  · rename_i h'
    rw [h] at h'
    cases h'

theorem defragParts_none (h : es.find? e.isAdjacent = none) :
    defragParts (e :: es) = e :: defragParts es := by
  rw [defragParts]
  split
  · rename_i e'' h'
    rw [h] at h'
    cases h'
  · rfl

theorem find_spec (h : es.find? e.isAdjacent = some e') :
    e.isAdjacent e' ∧ es.Perm (e' :: es.erase e') :=
  ⟨List.find?_some h, List.perm_cons_erase (List.mem_of_find?_eq_some h)⟩

theorem not_adjacent_of_find (h : es.find? e.isAdjacent = none) (hx : x ∈ es) : ¬ e.isAdjacent x :=
  List.find?_eq_none.mp h x hx

/-! ## What is covered -/

theorem covers_defragParts (es : List (Event α)) (w : Option Arc) (v : α) (t : Time) :
    Covers (defragParts es) w v t ↔ Covers es w v t := by
  induction es using defragParts.induct with
  | case1 => rw [defragParts]
  | case2 e es e' hfind ih =>
    obtain ⟨hadj, hperm⟩ := find_spec hfind
    obtain ⟨hsame, hends⟩ := isAdjacent_iff.mp hadj
    rw [defragParts_some hfind, Covers.cons, ih, Covers.cons, Covers.perm hperm, Covers.cons,
      ← hsame.1, ← hsame.2]
    simp only [merged, isIn_hull_iff hends]
    tauto
  | case3 e es hfind ih => rw [defragParts_none hfind, Covers.cons, Covers.cons, ih]

/-! ## What is left adjacent -/

/-- Each event is adjacent to at most one of the others. -/
def Unchained (es : List (Event α)) : Prop := ∀ e ∈ es, (es.erase e).countP (e.isAdjacent ·) ≤ 1

theorem Unchained.perm (h : es.Perm es') : Unchained es ↔ Unchained es' := by
  unfold Unchained
  refine forall_congr' fun e => ?_
  rw [h.mem_iff, (h.erase e).countP_eq]

theorem unchained_cons_iff : Unchained (e :: es) ↔
    es.countP (e.isAdjacent ·) ≤ 1 ∧ ∀ x ∈ es, (e :: es.erase x).countP (x.isAdjacent ·) ≤ 1 := by
  have herase : ∀ x ∈ es, ((e :: es).erase x).Perm (e :: es.erase x) := by
    intro x hx
    by_cases hxe : e = x
    · subst hxe
      rw [List.erase_cons_head]
      exact List.perm_cons_erase hx
    · rw [List.erase_cons_tail (by simpa using hxe)]
  refine ⟨fun h => ⟨?_, fun x hx => ?_⟩, ?_⟩
  · have he := h e (List.mem_cons_self ..)
    rwa [List.erase_cons_head] at he
  · rw [← (herase x hx).countP_eq]
    exact h x (List.mem_cons_of_mem _ hx)
  · rintro ⟨h1, h2⟩ x hx
    rcases List.mem_cons.mp hx with rfl | hx
    · rwa [List.erase_cons_head]
    · rw [(herase x hx).countP_eq]
      exact h2 x hx

theorem countP_eq_zero_of_not (h : ∀ x ∈ es, ¬ e.isAdjacent x) : es.countP (e.isAdjacent ·) = 0 :=
  List.countP_eq_zero.mpr fun x hx hadj => h x hx hadj

/-- An event that is adjacent to no other makes no difference. -/
theorem unchained_cons (h : ∀ x ∈ es, ¬ e.isAdjacent x) : Unchained (e :: es) ↔ Unchained es := by
  rw [unchained_cons_iff, countP_eq_zero_of_not h, and_iff_right (Nat.zero_le 1)]
  refine forall₂_congr fun x hx => ?_
  rw [List.countP_cons_of_neg fun hadj => h x hx (isAdjacent_symm hadj)]

theorem Unchained.tail (h : Unchained (e :: es)) : Unchained es := by
  intro x hx
  have hcons := (unchained_cons_iff.mp h).2 x hx
  rw [List.countP_cons] at hcons
  omega

/-- Of two adjacent events none is adjacent to a third. -/
theorem unchained_cons_cons (h : e.isAdjacent e') :
    Unchained (e :: e' :: es) ↔
      (∀ x ∈ es, ¬ e.isAdjacent x ∧ ¬ e'.isAdjacent x) ∧ Unchained es := by
  have hfree : ∀ {d d' : Event α}, d.isAdjacent d' → Unchained (d :: d' :: es) →
      ∀ x ∈ es, ¬ d.isAdjacent x := by
    intro d d' hd hun
    have hone := (unchained_cons_iff.mp hun).1
    rw [List.countP_cons_of_pos hd] at hone
    exact fun x hx => List.countP_eq_zero.mp (by omega) x hx
  refine ⟨fun hun => ⟨fun x hx => ⟨hfree h hun x hx, ?_⟩, hun.tail.tail⟩, ?_⟩
  · exact hfree (isAdjacent_symm h) ((Unchained.perm (.swap _ _ _)).mpr hun) x hx
  · rintro ⟨hnot, hun⟩
    have hone : ∀ {d d' : Event α}, d.isAdjacent d' → (∀ x ∈ es, ¬ d.isAdjacent x) →
        (d' :: es).countP (d.isAdjacent ·) ≤ 1 := by
      intro d d' hd hx
      rw [List.countP_cons_of_pos hd, countP_eq_zero_of_not hx]
    refine unchained_cons_iff.mpr ⟨hone h fun x hx => (hnot x hx).1, fun x hx => ?_⟩
    by_cases hxe : e' = x
    · subst hxe
      rw [List.erase_cons_head]
      exact hone (isAdjacent_symm h) fun x hx => (hnot x hx).2
    · rcases List.mem_cons.mp hx with hx | hx
      · exact absurd hx.symm hxe
      · rw [List.erase_cons_tail (by simpa using hxe),
          List.countP_cons_of_neg fun hadj => (hnot x hx).1 (isAdjacent_symm hadj),
          List.countP_cons_of_neg fun hadj => (hnot x hx).2 (isAdjacent_symm hadj)]
        exact hun x hx

/-- What is adjacent to the event made of two is adjacent to one of the two. -/
theorem adjacent_of_merged (hadj : e.isAdjacent e') (h : (merged e e').isAdjacent x) :
    e.isAdjacent x ∨ e'.isAdjacent x := by
  obtain ⟨hsame, -⟩ := isAdjacent_iff.mp hadj
  obtain ⟨hx, hends⟩ := isAdjacent_iff.mp h
  have hx : Alike e x := hx
  rw [isAdjacent_iff, isAdjacent_iff, and_iff_right hx, and_iff_right (hsame.symm.trans hx)]
  simp only [merged, hull] at hends
  rcases max_choice e.part.stop e'.part.stop with hmax | hmax <;>
    rcases min_choice e.part.start e'.part.start with hmin | hmin <;>
    rw [hmax, hmin] at hends <;> tauto

/-- What is adjacent to an event of the result is adjacent to an event of the list. -/
theorem adjacent_of_defragParts (hx : x ∈ defragParts es) (h : y.isAdjacent x) :
    ∃ d ∈ es, y.isAdjacent d := by
  induction es using defragParts.induct with
  | case1 => simp [defragParts] at hx
  | case2 e es e' hfind ih =>
    obtain ⟨hadj, hperm⟩ := find_spec hfind
    rw [defragParts_some hfind] at hx
    rcases List.mem_cons.mp hx with rfl | hx
    · rcases adjacent_of_merged hadj (isAdjacent_symm h) with h | h
      · exact ⟨e, List.mem_cons_self .., isAdjacent_symm h⟩
      · exact ⟨e', List.mem_cons_of_mem _ (hperm.mem_iff.mpr (List.mem_cons_self ..)), isAdjacent_symm h⟩
    · obtain ⟨d, hd, hyd⟩ := ih hx
      exact ⟨d, List.mem_cons_of_mem _ (List.mem_of_mem_erase hd), hyd⟩
  | case3 e es hfind ih =>
    rw [defragParts_none hfind] at hx
    rcases List.mem_cons.mp hx with rfl | hx
    · exact ⟨x, List.mem_cons_self .., h⟩
    · obtain ⟨d, hd, hyd⟩ := ih hx
      exact ⟨d, List.mem_cons_of_mem _ hd, hyd⟩

theorem noneAdjacent_of_unchained (h : Unchained es) : NoneAdjacent (defragParts es) := by
  induction es using defragParts.induct with
  | case1 =>
    rw [defragParts]
    exact List.Pairwise.nil
  | case2 e es e' hfind ih =>
    obtain ⟨hadj, hperm⟩ := find_spec hfind
    obtain ⟨hnot, hun⟩ := (unchained_cons_cons hadj).mp ((Unchained.perm (hperm.cons e)).mp h)
    rw [defragParts_some hfind]
    refine List.Pairwise.cons (fun x hx hxadj => ?_) (ih hun)
    obtain ⟨d, hd, hmd⟩ := adjacent_of_defragParts hx hxadj
    rcases adjacent_of_merged hadj hmd with h | h
    · exact (hnot d hd).1 h
    · exact (hnot d hd).2 h
  | case3 e es hfind ih =>
    rw [defragParts_none hfind]
    refine List.Pairwise.cons (fun x hx hxadj => ?_) (ih h.tail)
    obtain ⟨d, hd, hed⟩ := adjacent_of_defragParts hx hxadj
    exact not_adjacent_of_find hfind hd hed

/-! ## Fragments that do not overlap -/

/-- Two adjacent fragments of positive width lie one after the other. -/
theorem merged_part (hadj : e.isAdjacent e') (he : e.part.start < e.part.stop)
    (he' : e'.part.start < e'.part.stop) :
    (e.part.stop = e'.part.start ∧ (merged e e').part = ⟨e.part.start, e'.part.stop⟩) ∨
      (e'.part.stop = e.part.start ∧ (merged e e').part = ⟨e'.part.start, e.part.stop⟩) := by
  obtain ⟨-, hends⟩ := isAdjacent_iff.mp hadj
  simp only [merged, hull]
  rcases hends with h | h
  · rw [min_eq_left (by linarith), max_eq_right (by linarith)]
    exact Or.inl ⟨h, rfl⟩
  · rw [min_eq_right (by linarith), max_eq_left (by linarith)]
    exact Or.inr ⟨h, rfl⟩

theorem alike_merged (hadj : e.isAdjacent e') : Alike (merged e e') x ↔ Alike e x ∧ Alike e' x := by
  obtain ⟨hsame, -⟩ := isAdjacent_iff.mp hadj
  exact ⟨fun h => ⟨h, hsame.symm.trans h⟩, fun h => h.1⟩

theorem merged_width (hadj : e.isAdjacent e') (he : e.part.start < e.part.stop)
    (he' : e'.part.start < e'.part.stop) :
    (merged e e').part.start < (merged e e').part.stop := by
  rcases merged_part hadj he he' with ⟨h, hpart⟩ | ⟨h, hpart⟩ <;> rw [hpart] <;> dsimp only <;> linarith

/-- An event that overlaps neither of two adjacent ones does not overlap the event made of them. -/
theorem noOverlap_merged (hadj : e.isAdjacent e') (he : e.part.start < e.part.stop)
    (he' : e'.part.start < e'.part.stop) (hx : x.part.start < x.part.stop)
    (h : NoOverlap e x) (h' : NoOverlap e' x) : NoOverlap (merged e e') x := by
  intro hs
  obtain ⟨hs, hs'⟩ := (alike_merged hadj).mp hs
  rcases merged_part hadj he he' with ⟨hends, hpart⟩ | ⟨hends, hpart⟩ <;> rw [hpart] <;>
    rcases h hs with h | h <;> rcases h' hs' with h' | h'
  · exact Or.inl h'
  · exact absurd hends (by linarith)
  · exact Or.inl h'
  · exact Or.inr h
  · exact Or.inl h
  · exact Or.inl h
  · exact absurd hends (by linarith)
  · exact Or.inr h'

/-- An event that is adjacent to one of two adjacent ones, and does not overlap the other, is adjacent to the
event made of them. -/
theorem merged_adjacent (hadj : e.isAdjacent e') (he : e.part.start < e.part.stop)
    (he' : e'.part.start < e'.part.stop) (hx : x.part.start < x.part.stop) (h : NoOverlap e' x)
    (hex : e.isAdjacent x) : (merged e e').isAdjacent x := by
  obtain ⟨hs, hxends⟩ := isAdjacent_iff.mp hex
  have hs' := (isAdjacent_iff.mp hadj).1.symm.trans hs
  rw [isAdjacent_iff, alike_merged hadj]
  refine ⟨⟨hs, hs'⟩, ?_⟩
  rcases merged_part hadj he he' with ⟨hends, hpart⟩ | ⟨hends, hpart⟩
  · rw [hpart]
    rcases hxends with hx' | hx'
    · exfalso
      rcases h hs' with h | h <;> linarith
    · exact Or.inr hx'
  · rw [hpart]
    rcases hxends with hx' | hx'
    · exact Or.inl hx'
    · exfalso
      rcases h hs' with h | h <;> linarith

/-- As `merged_adjacent`, for the second of the two. -/
theorem merged_adjacent' (hadj : e.isAdjacent e') (he : e.part.start < e.part.stop)
    (he' : e'.part.start < e'.part.stop) (hx : x.part.start < x.part.stop) (h : NoOverlap e x)
    (hex : e'.isAdjacent x) : (merged e e').isAdjacent x := by
  have hcomm : (merged e' e).part = (merged e e').part := by
    simp only [merged, hull, min_comm, max_comm]
  have hadj' := isAdjacent_symm hadj
  have hmerged := isAdjacent_iff.mp (merged_adjacent hadj' he' he hx h hex)
  rw [isAdjacent_iff, alike_merged hadj, ← hcomm]
  exact ⟨((alike_merged hadj').mp hmerged.1).symm, hmerged.2⟩

/-- An event that is adjacent to one of the list is adjacent to one of the result. -/
theorem exists_adjacent_defragParts (hes : Fragments es) (hy : y.part.start < y.part.stop)
    (hno : ∀ x ∈ es, NoOverlap x y) (hd : d ∈ es) (h : d.isAdjacent y) :
    ∃ x ∈ defragParts es, x.isAdjacent y := by
  induction es using defragParts.induct with
  | case1 => simp at hd
  | case2 e es e' hfind ih =>
    obtain ⟨hadj, hperm⟩ := find_spec hfind
    have hmem : e' ∈ es := hperm.mem_iff.mpr (List.mem_cons_self ..)
    have he := hes.width e (List.mem_cons_self ..)
    have he' := hes.width e' (List.mem_cons_of_mem _ hmem)
    rw [defragParts_some hfind]
    rcases List.mem_cons.mp ((hperm.cons e).mem_iff.mp hd) with rfl | hd
    · exact ⟨_, List.mem_cons_self .., merged_adjacent hadj he he' hy
        (hno e' (List.mem_cons_of_mem _ hmem)) h⟩
    · rcases List.mem_cons.mp hd with rfl | hd
      · exact ⟨_, List.mem_cons_self .., merged_adjacent' hadj he he' hy
          (hno e (List.mem_cons_self ..)) h⟩
      · obtain ⟨x, hx, hxy⟩ := ih (hes.perm (hperm.cons e)).tail.tail
          (fun x hx => hno x (List.mem_cons_of_mem _ (List.mem_of_mem_erase hx))) hd
        exact ⟨x, List.mem_cons_of_mem _ hx, hxy⟩
  | case3 e es hfind ih =>
    rw [defragParts_none hfind]
    rcases List.mem_cons.mp hd with rfl | hd
    · exact ⟨d, List.mem_cons_self .., h⟩
    · obtain ⟨x, hx, hxy⟩ := ih hes.tail (fun x hx => hno x (List.mem_cons_of_mem _ hx)) hd
      exact ⟨x, List.mem_cons_of_mem _ hx, hxy⟩

theorem unchained_of_noneAdjacent (hes : Fragments es) (h : NoneAdjacent (defragParts es)) :
    Unchained es := by
  induction es using defragParts.induct with
  | case1 =>
    intro x hx
    simp at hx
  | case2 e es e' hfind ih =>
    obtain ⟨hadj, hperm⟩ := find_spec hfind
    have hfrag := hes.perm (hperm.cons e)
    have he := hfrag.width e (by simp)
    have he' := hfrag.width e' (by simp)
    rw [defragParts_some hfind] at h
    obtain ⟨hmerged, hrest⟩ := List.pairwise_cons.mp h
    rw [Unchained.perm (hperm.cons e), unchained_cons_cons hadj]
    refine ⟨fun x hx => ?_, ih hfrag.tail.tail hrest⟩
    have hxw := hfrag.tail.tail.width x hx
    have hno : ∀ x ∈ es.erase e', NoOverlap e x ∧ NoOverlap e' x := fun x hx =>
      ⟨hfrag.head x (List.mem_cons_of_mem _ hx), hfrag.tail.head x hx⟩
    have hfree : ¬ (merged e e').isAdjacent x := by
      intro hadjx
      obtain ⟨g, hg, hgadj⟩ := exists_adjacent_defragParts hfrag.tail.tail (merged_width hadj he he')
        (fun z hz => (noOverlap_merged hadj he he' (hfrag.tail.tail.width z hz) (hno z hz).1
          (hno z hz).2).symm) hx (isAdjacent_symm hadjx)
      exact hmerged g hg (isAdjacent_symm hgadj)
    exact ⟨fun h => hfree (merged_adjacent hadj he he' hxw (hno x hx).2 h),
      fun h => hfree (merged_adjacent' hadj he he' hxw (hno x hx).1 h)⟩
  | case3 e es hfind ih =>
    rw [defragParts_none hfind] at h
    rw [unchained_cons fun x hx => not_adjacent_of_find hfind hx]
    exact ih hes.tail h.of_cons

/-! ## Pairs -/

/-- The events of a list, each with the first later one that is adjacent to it and is not taken yet. -/
def fragmentGroups : List (Event α) → List (List (Event α))
  | [] => []
  | e :: es =>
    match _hadj : es.find? e.isAdjacent with
    | some e' => [e, e'] :: fragmentGroups (es.erase e')
    | none => [e] :: fragmentGroups es
termination_by es => es.length
decreasing_by
  · have := List.length_erase_of_mem (List.mem_of_find?_eq_some _hadj)
    simp only [List.length_cons]
    omega
  · simp

theorem fragmentGroups_some (h : es.find? e.isAdjacent = some e') :
    fragmentGroups (e :: es) = [e, e'] :: fragmentGroups (es.erase e') := by
  rw [fragmentGroups]
  split
  · rename_i e'' h'
    obtain rfl := Option.some.inj (h.symm.trans h')
    rfl
  · rename_i h'
    rw [h] at h'
    cases h'

theorem fragmentGroups_none (h : es.find? e.isAdjacent = none) :
    fragmentGroups (e :: es) = [e] :: fragmentGroups es := by
  rw [fragmentGroups]
  split
  · rename_i e'' h'
    rw [h] at h'
    cases h'
  · rfl

theorem hulls_merged (hadj : e.isAdjacent e') : Hulls [e, e'] (merged e e') where
  alike := by
    intro d hd
    rcases List.mem_cons.mp hd with rfl | hd
    · exact ⟨rfl, rfl⟩
    · rw [List.mem_singleton.mp hd]
      exact (isAdjacent_iff.mp hadj).1
  start := by
    rw [ends_pair]
    exact isLeast_pair
  stop := by
    rw [ends_pair]
    exact isGreatest_pair

theorem hulls_fragmentGroups (es : List (Event α)) :
    List.Forall₂ Hulls (fragmentGroups es) (defragParts es) := by
  induction es using defragParts.induct with
  | case1 =>
    rw [fragmentGroups, defragParts]
    exact .nil
  | case2 e es e' hfind ih =>
    rw [fragmentGroups_some hfind, defragParts_some hfind]
    exact .cons (hulls_merged (find_spec hfind).1) ih
  | case3 e es hfind ih =>
    rw [fragmentGroups_none hfind, defragParts_none hfind]
    exact .cons (hulls_singleton e) ih

theorem Hulls.adjacent_iff {g g' : List (Event α)} (h : Hulls g x) (h' : Hulls g' y) :
    ¬ x.isAdjacent y ↔ ¬ Meets g g' ∧ ¬ Meets g' g := by
  have hcomm : Alike y x ↔ Alike x y := ⟨Alike.symm, Alike.symm⟩
  rw [isAdjacent_iff, h.meets h', h'.meets h, hcomm, ← not_or, ← and_or_left]

theorem Hulls.forall_adjacent_iff {g : List (Event α)} {gs : List (List (Event α))} (h : Hulls g x)
    (hes : List.Forall₂ Hulls gs es) :
    (∀ y ∈ es, ¬ x.isAdjacent y) ↔ ∀ g' ∈ gs, ¬ Meets g g' ∧ ¬ Meets g' g := by
  induction hes with
  | nil => simp
  | cons h' _ ih => rw [List.forall_mem_cons, List.forall_mem_cons, ih, h.adjacent_iff h']

theorem noneAdjacent_iff_groups {gs : List (List (Event α))} (hes : List.Forall₂ Hulls gs es) :
    NoneAdjacent es ↔ gs.Pairwise fun g g' => ¬ Meets g g' ∧ ¬ Meets g' g := by
  unfold NoneAdjacent
  induction hes with
  | nil => simp
  | cons h hes ih => rw [List.pairwise_cons, List.pairwise_cons, ih, h.forall_adjacent_iff hes]

theorem fragmentGroups_perm (es : List (Event α)) : (fragmentGroups es).flatten.Perm es := by
  induction es using defragParts.induct with
  | case1 => rw [fragmentGroups]; rfl
  | case2 e es e' hfind ih =>
    rw [fragmentGroups_some hfind]
    exact ((ih.cons e').trans (find_spec hfind).2.symm).cons e
  | case3 e es hfind ih =>
    rw [fragmentGroups_none hfind]
    exact ih.cons e

/-- What is covered never changes. No two events of the result are adjacent if no event is adjacent to more than
one other, and for fragments that do not overlap only then. For events that overlap it depends on their order: it
is so if and only if no two of the groups in which they are put together meet. -/
theorem defragParts_iff (es : List (Event α)) :
    (∀ w v t, Covers (defragParts es) w v t ↔ Covers es w v t) ∧
    (Unchained es → Defragged es (defragParts es)) ∧
    (Fragments es → (Defragged es (defragParts es) ↔ Unchained es)) ∧
    (fragmentGroups es).flatten.Perm es ∧
    (Defragged es (defragParts es) ↔
      (fragmentGroups es).Pairwise fun g g' => ¬ Meets g g' ∧ ¬ Meets g' g) := by
  have hcovers := covers_defragParts es
  have hdef : Defragged es (defragParts es) ↔ NoneAdjacent (defragParts es) :=
    ⟨fun h => h.noneAdjacent, fun h => ⟨h, hcovers⟩⟩
  refine ⟨hcovers, fun h => ?_, fun hes => ?_, fragmentGroups_perm es, ?_⟩
  · exact hdef.mpr (noneAdjacent_of_unchained h)
  · exact hdef.trans ⟨unchained_of_noneAdjacent hes, noneAdjacent_of_unchained⟩
  · exact hdef.trans (noneAdjacent_iff_groups (hulls_fragmentGroups es))

/-- A fragment of an event that lasts for three cycles. -/
def fragment (s e : Time) : Event ℕ := ⟨⟨[]⟩, some ⟨0, 3⟩, ⟨s, e⟩, 0⟩

theorem defragParts_iff_two :
    (∀ w v t, Covers (defragParts [fragment 1 3, fragment 0 1]) w v t ↔
      Covers [fragment 1 3, fragment 0 1] w v t) ∧
    (fragmentGroups [fragment 1 3, fragment 0 1]).flatten.Perm [fragment 1 3, fragment 0 1] ∧
    Defragged [fragment 1 3, fragment 0 1] (defragParts [fragment 1 3, fragment 0 1]) := by
  obtain ⟨hcovers, hdef, -, hperm, -⟩ := defragParts_iff [fragment 1 3, fragment 0 1]
  exact ⟨hcovers, hperm, hdef (by unfold Unchained; decide)⟩

/-- Of three fragments, one after the other, two are put together, and the third is left adjacent to them. -/
theorem defragParts_three :
    defragParts [fragment 0 1, fragment 1 2, fragment 2 3] = [fragment 0 2, fragment 2 3] ∧
    ¬ ∀ es : List (Event ℕ), Defragged es (defragParts es) := by
  have heq : defragParts [fragment 0 1, fragment 1 2, fragment 2 3] = [fragment 0 2, fragment 2 3] := by
    with_unfolding_all decide
  refine ⟨heq, fun h => ?_⟩
  have hnone := (h [fragment 0 1, fragment 1 2, fragment 2 3]).noneAdjacent
  rw [heq] at hnone
  exact (List.pairwise_cons.mp hnone).1 (fragment 2 3) (by simp) (by decide)

end Tidal
