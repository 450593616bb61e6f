import Tidal.UI
import Tidal.Proofs.BehaviourProofs
import Tidal.Proofs.OrderProofs
import Tidal.Proofs.DefragProofs

/-!
# Rotation

`_rot` puts the events of a cycle in the order of the event record, which looks at the source positions
first, and gives each the value some places on. That is rotation in time as far as this order is the order of
time.
-/

namespace Tidal

open Pattern EventF

variable {Γ α β : Type} {p : Pattern Γ α} {m : Γ} {a : Arc} {t : Time} {c i : ℤ}

/-! ## Fragments put together -/

/-- The events have wholes, and their parts lie in them. -/
def Inside (es : List (Event α)) : Prop := ∀ e ∈ es, ∃ w, e.whole = some w ∧ Within e.part w

theorem activeIn_perm {es es' : List (Event α)} (h : es.Perm es') (t : Time) : activeIn es t = activeIn es' t :=
  Multiset.coe_eq_coe.mpr ((h.filter _).map _)

/-- Two adjacent fragments are heard as the one that they are put together to. -/
theorem activeIn_merged [DecidableEq α] {e e' : Event α} (h : e.isAdjacent e') (t : Time) :
    activeIn [merged e e'] t = activeIn [e] t + activeIn [e'] t := by
  obtain ⟨⟨hw, hv⟩, hadj⟩ := isAdjacent_iff.mp h
  have hor : isIn (merged e e').part t ↔ isIn e.part t ∨ isIn e'.part t := isIn_hull_iff hadj
  have hnot : ¬ (isIn e.part t ∧ isIn e'.part t) := by
    rintro ⟨⟨h1, h2⟩, h3, h4⟩
    rcases hadj with hadj | hadj <;> linarith
  rw [activeIn_singleton, activeIn_singleton, activeIn_singleton, ← hw, ← hv]
  by_cases h1 : isIn e.part t
  · have h2 : ¬ isIn e'.part t := fun h2 => hnot ⟨h1, h2⟩
    rw [if_pos (hor.mpr (Or.inl h1)), if_pos h1, if_neg h2, add_zero]
    rfl
  · by_cases h2 : isIn e'.part t
    · rw [if_pos (hor.mpr (Or.inr h2)), if_neg h1, if_pos h2, zero_add]
      rfl
    · rw [if_neg fun h => (hor.mp h).elim h1 h2, if_neg h1, if_neg h2, add_zero]

theorem inside_merged [DecidableEq α] {e e' : Event α} (he : Inside [e]) (he' : Inside [e'])
    (h : e.isAdjacent e') : Inside [merged e e'] := by
  obtain ⟨⟨hwhole, -⟩, -⟩ := isAdjacent_iff.mp h
  obtain ⟨w, hw, h1, h2, h3⟩ := he e (List.mem_singleton_self e)
  obtain ⟨w', hw', h1', h2', h3'⟩ := he' e' (List.mem_singleton_self e')
  obtain rfl : w = w' := Option.some.inj (hw.symm.trans (hwhole.trans hw'))
  intro x hx
  obtain rfl := List.mem_singleton.mp hx
  exact ⟨w, hw, le_min h1 h1', (min_le_left _ _).trans (h2.trans (le_max_left _ _)), max_le h3 h3'⟩

/-- Putting fragments together changes nothing that is heard. -/
theorem defragParts_spec [DecidableEq α] {es : List (Event α)} (hes : Inside es) :
    Inside (defragParts es) ∧ ∀ t, activeIn (defragParts es) t = activeIn es t := by
  have hone : ∀ {e : Event α} {l : List (Event α)}, Inside l → e ∈ l → Inside [e] := fun h he x hx => by
    rw [List.mem_singleton.mp hx]
    exact h _ he
  have hcons : ∀ {e : Event α} {l : List (Event α)}, Inside [e] → Inside l → Inside (e :: l) :=
    fun h hl x hx => by
      rcases List.mem_cons.mp hx with rfl | hx
      · exact h x (List.mem_singleton_self x)
      · exact hl x hx
  induction es using defragParts.induct with
  | case1 => exact ⟨by rwa [defragParts], fun t => by rw [defragParts]⟩
  | case2 e es e' hfind ih =>
    obtain ⟨hadj, hperm⟩ := find_spec hfind
    have hmem := List.mem_of_find?_eq_some hfind
    have he := hone hes (List.mem_cons_self ..)
    have he' := hone hes (List.mem_cons_of_mem _ hmem)
    obtain ⟨hin, hact⟩ := ih fun x hx => hes x (List.mem_cons_of_mem _ (List.mem_of_mem_erase hx))
    rw [defragParts_some hfind]
    refine ⟨hcons (inside_merged he he' hadj) hin, fun t => ?_⟩
    have herase : activeIn es t = activeIn [e'] t + activeIn (es.erase e') t := by
      rw [activeIn_perm hperm, activeIn_cons e']
    rw [activeIn_cons, hact, activeIn_merged hadj, activeIn_cons e es, herase,
      add_assoc]
  | case3 e es hfind ih =>
    obtain ⟨hin, hact⟩ := ih fun x hx => hes x (List.mem_cons_of_mem _ hx)
    rw [defragParts_none hfind]
    refine ⟨hcons (hone hes (List.mem_cons_self ..)) hin, fun t => ?_⟩
    rw [activeIn_cons, hact, activeIn_cons e es]

/-- Events with wholes of their own are left as they are. -/
theorem defragParts_of_nodup [DecidableEq α] {es : List (Event α)} (h : (es.map EventF.whole).Nodup) :
    defragParts es = es := by
  induction es with
  | nil => rw [defragParts]
  | cons e es ih =>
    rw [List.map_cons, List.nodup_cons] at h
    have hnone : es.find? e.isAdjacent = none := by
      refine List.find?_eq_none.mpr fun e' he' hadj => h.1 ?_
      simp only [isAdjacent, decide_eq_true_eq] at hadj
      exact List.mem_map.mpr ⟨e', he', hadj.1.symm⟩
    rw [defragParts]
    split
    · rename_i e' hfind
      rw [hnone] at hfind
      cases hfind
    · rw [ih h.2]

/-! ## The events of a cycle in time -/

/-- Wholes with their values, one after the other in the cycle `c`. -/
structure InTurn (c : ℤ) (ws : List (Arc × α)) : Prop where
  ordered : ws.Pairwise fun v w => v.1.stop ≤ w.1.start
  inCycle : ∀ w ∈ ws, (c : Time) ≤ w.1.start ∧ w.1.start < w.1.stop ∧ w.1.stop ≤ c + 1

/-- What is heard of them. -/
def heard (ws : List (Arc × α)) (t : Time) : Multiset (Option Arc × α) :=
  ((ws.filter fun w => isIn w.1 t).map fun w => (some w.1, w.2) : List (Option Arc × α))

/-- Each element with the value that is `n` places on, around the end. -/
def ahead (n : ℕ) (f : β → α) (l : List β) : List (β × α) := l.zip ((l.map f).rotate n)

/-- The wholes with the values `i` places on in time. -/
def rotated (i : ℤ) (ws : List (Arc × α)) : List (Arc × α) :=
  (ahead (i % ws.length).toNat Prod.snd ws).map fun g => (g.1.1, g.2)

/-- How far the values are moved. -/
def places (i : ℤ) (n : ℕ) : ℕ := (if i ≥ 0 then i else n - |i|).toNat

theorem length_ahead (n : ℕ) (f : β → α) (l : List β) : (ahead n f l).length = l.length := by
  simp [ahead]

theorem map_fst_ahead (n : ℕ) (f : β → α) (l : List β) : (ahead n f l).map Prod.fst = l :=
  List.map_fst_zip (by simp)

theorem forall_mem_ahead {n : ℕ} {f : β → α} {l : List β} {P : β × α → Prop} :
    (∀ z ∈ ahead n f l, P z) ↔ ∀ j (_ : j < l.length), ∀ k (_ : k < l.length),
      k = (j + n) % l.length → P (l[j], f l[k]) := by
  have hget : ∀ j (hj : j < (ahead n f l).length) (hj' : j < l.length) k (hk : k < l.length),
      k = (j + n) % l.length → (ahead n f l)[j] = (l[j], f l[k]) := by
    rintro j hj hj' k hk rfl
    simp [ahead, List.getElem_rotate]
  constructor
  · intro h j hj k hk hjk
    have hj' : j < (ahead n f l).length := by rwa [length_ahead]
    exact hget j hj' hj k hk hjk ▸ h _ (List.getElem_mem hj')
  · intro h z hz
    obtain ⟨j, hj, rfl⟩ := List.mem_iff_getElem.mp hz
    have hj' : j < l.length := by rwa [length_ahead] at hj
    have hk : (j + n) % l.length < l.length := Nat.mod_lt _ (j.zero_le.trans_lt hj')
    rw [hget j hj hj' _ hk rfl]
    exact h j hj' _ hk rfl

theorem shiftValues_eq (i : ℤ) (es : List (Event α)) :
    shiftValues i es = (ahead (places i es.length) EventF.value es).map fun z => { z.1 with value := z.2 } := by
  rw [ahead, List.zip_eq_zipWith, List.map_zipWith]
  rfl

/-! ## The rotation of a cycle -/

theorem constrainEvent_some {x y : Event α} (h : constrainEvent a x = some y) :
    ∃ c, subArc x.part a = some c ∧ y = { x with part := c } := by
  simp only [constrainEvent, Option.bind_eq_bind, Option.bind_eq_some_iff, Option.pure_def,
    Option.some.injEq] at h
  obtain ⟨c, hc, rfl⟩ := h
  exact ⟨c, hc, rfl⟩

theorem activeIn_constrainEvent {l : List (Event α)} (hat : isIn a t) :
    activeIn (l.filterMap (constrainEvent a)) t = activeIn l t := by
  have hfilter : activeIn (l.filterMap (constrainEvent a)) t = (activeIn l t).filterMap some :=
    activeIn_filterMap (fun x _ hnone hx => ?_) fun x _ y hy => ?_
  · rw [hfilter, Multiset.filterMap_some]
  · rw [constrainEvent, subArc_of_isIn hx hat] at hnone
    cases hnone
  · obtain ⟨c, hc, rfl⟩ := constrainEvent_some hy
    exact ⟨(isIn_of_subArc hc).trans (and_iff_left hat), fun _ => rfl⟩

/-- The fragments of a cycle in the order in which they are rotated. -/
def fragments [LinearOrder α] (p : Pattern Γ α) (m : Γ) (c : ℤ) : List (Event α) :=
  (defragParts (p.query ⟨⟨c, c + 1⟩, m⟩)).insertionSort (· ≤ ·)

/-- What is heard of a rotation, from any query. -/
theorem act_rot [LinearOrder α] (i : ℤ) (p : Pattern Γ α) (hat : isIn a t) :
    act (_rot i p) m a t = activeIn (shiftValues i (fragments p m ⌊t⌋)) t := by
  have hlocal : Local ({ p with query := rotCycle i p } : Pattern Γ α) := by
    intro b m u _ hu
    refine activeIn_eq_zero fun y hy hyu => hu ?_
    obtain ⟨x, _, hxy⟩ := List.mem_filterMap.mp hy
    obtain ⟨c, hc, rfl⟩ := constrainEvent_some hxy
    exact ((isIn_of_subArc hc).mp hyu).2
  have hcycle : wholeCycle (sect a (timeToCycleArc t)) = ⟨⌊t⌋, ⌊t⌋ + 1⟩ := by
    rw [wholeCycle, nextSam, sam_piece_start hat, sam, add_comm 1]
  rw [_rot, act_splitQueries hlocal hat]
  show activeIn ((shiftValues i ((defragParts (p.query
    ⟨wholeCycle (sect a (timeToCycleArc t)), m⟩)).insertionSort (· ≤ ·))).filterMap (constrainEvent _)) t = _
  rw [activeIn_constrainEvent (isIn_piece hat), hcycle]
  rfl

section Cycle

variable {ws : List (Arc × α)} {l : List (Event α)}

theorem InTurn.floor (hws : InTurn c ws) {w : Arc × α} (hw : w ∈ ws) (ht : isIn w.1 t) : ⌊t⌋ = c := by
  obtain ⟨h1, _, h2⟩ := hws.inCycle w hw
  exact Int.floor_eq_iff.mpr ⟨h1.trans ht.1, ht.2.trans_le h2⟩

theorem InTurn.starts (hws : InTurn c ws) : ws.Pairwise fun v w => v.1.start < w.1.start := by
  refine hws.ordered.imp_of_mem fun {v w} hv _ hvw => ?_
  obtain ⟨_, hlt, _⟩ := hws.inCycle v hv
  exact hlt.trans_le hvw

theorem InTurn.nodup (hws : InTurn c ws) : (ws.map Prod.fst).Nodup :=
  List.pairwise_map.mpr (hws.starts.imp fun h heq => absurd h (by rw [heq]; exact lt_irrefl _))

theorem InTurn.eq_of_start (hws : InTurn c ws) {v w : Arc × α} (hv : v ∈ ws) (hw : w ∈ ws)
    (h : v.1.start = w.1.start) : v = w := by
  have hnd : (ws.map fun w => w.1.start).Nodup := List.pairwise_map.mpr (hws.starts.imp ne_of_lt)
  exact List.inj_on_of_nodup_map hnd hv hw h

/-- At most one whole holds a moment. -/
theorem InTurn.one (hws : InTurn c ws) (n : ℕ) (t : Time) :
    ((ahead n Prod.snd ws).filter fun g => isIn g.1.1 t).length ≤ 1 := by
  have hpair : (ahead n Prod.snd ws).Pairwise fun g g' => g.1.1.stop ≤ g'.1.1.start := by
    have hord := hws.ordered
    rw [← map_fst_ahead n Prod.snd ws] at hord
    exact List.pairwise_map.mp hord
  have hfilter := hpair.sublist (List.filter_sublist (p := fun g => isIn g.1.1 t))
  have hin : ∀ g ∈ (ahead n Prod.snd ws).filter fun g => isIn g.1.1 t, isIn g.1.1 t := fun g hg =>
    of_decide_eq_true (List.mem_filter.mp hg).2
  generalize (ahead n Prod.snd ws).filter (fun g => isIn g.1.1 t) = r at hfilter hin
  match r with
  | [] => exact Nat.zero_le 1
  | [_] => exact le_rfl
  | g :: g' :: _ =>
    have hg := hin g (List.mem_cons_self ..)
    have hg' := hin g' (List.mem_cons_of_mem _ (List.mem_cons_self ..))
    have hle := List.rel_of_pairwise_cons hfilter (List.mem_cons_self ..)
    exact absurd (hle.trans hg'.1) (not_le.mpr hg.2)

/-- The values that come with the fragments, and with the wholes, are those further ahead. -/
theorem activeIn_shiftValues (i : ℤ) (l : List (Event α)) (t : Time) : activeIn (shiftValues i l) t =
    (((ahead (places i l.length) EventF.value l).filter fun z => isIn z.1.part t).map fun z =>
      (z.1.whole, z.2) : List (Option Arc × α)) := by
  rw [shiftValues_eq, activeIn, List.filter_map, List.map_map]
  rfl

theorem activeIn_ahead (k : ℕ) (l : List (Event α)) (t : Time) : activeIn l t =
    (((ahead k EventF.value l).filter fun z => isIn z.1.part t).map fun z =>
      (z.1.whole, z.1.value) : List (Option Arc × α)) := by
  conv_lhs => rw [← map_fst_ahead k EventF.value l]
  rw [activeIn, List.filter_map, List.map_map]
  rfl

theorem heard_ahead (k : ℕ) (ws : List (Arc × α)) (t : Time) : heard ws t =
    (((ahead k Prod.snd ws).filter fun g => isIn g.1.1 t).map fun g =>
      (some g.1.1, g.1.2) : List (Option Arc × α)) := by
  conv_lhs => rw [← map_fst_ahead k Prod.snd ws]
  rw [heard, List.filter_map, List.map_map]
  rfl

theorem heard_rotated (i : ℤ) (ws : List (Arc × α)) (t : Time) : heard (rotated i ws) t =
    (((ahead (i % ws.length).toNat Prod.snd ws).filter fun g => isIn g.1.1 t).map fun g =>
      (some g.1.1, g.2) : List (Option Arc × α)) := by
  rw [heard, rotated, List.filter_map, List.map_map]
  rfl

/-- When a fragment starts, its whole is heard with its new value. -/
theorem value_of_rotated {i : ℤ} (hws : InTurn c ws) (hin : Inside l)
    (h : ∀ t, ⌊t⌋ = c → activeIn (shiftValues i l) t = heard (rotated i ws) t) {z : Event α × α}
    (hz : z ∈ ahead (places i l.length) EventF.value l) (hpos : z.1.part.start < z.1.part.stop)
    {g : (Arc × α) × α} (hg : g ∈ ahead (i % ws.length).toNat Prod.snd ws) (hwhole : z.1.whole = some g.1.1) :
    z.2 = g.2 := by
  have hl := map_fst_ahead (places i l.length) EventF.value l
  have hws' := map_fst_ahead (i % ws.length).toNat Prod.snd ws
  obtain ⟨w, hw, h1, _, h3⟩ := hin z.1 (hl ▸ List.mem_map_of_mem hz)
  obtain rfl : w = g.1.1 := Option.some.inj (hw.symm.trans hwhole)
  have hgw : g.1 ∈ ws := hws' ▸ List.mem_map_of_mem hg
  have hfloor := hws.floor hgw (t := z.1.part.start) ⟨h1, hpos.trans_le h3⟩
  have hmem : (z.1.whole, z.2) ∈ heard (rotated i ws) z.1.part.start := by
    rw [← h _ hfloor, activeIn_shiftValues]
    exact List.mem_map.mpr ⟨z, List.mem_filter.mpr ⟨hz, by simpa using ⟨le_rfl, hpos⟩⟩, rfl⟩
  rw [heard_rotated] at hmem
  obtain ⟨g', hg', heq⟩ := List.mem_map.mp (Multiset.mem_coe.mp hmem)
  obtain ⟨hwhole', hvalue⟩ := Prod.mk.inj heq
  have hnodup : ((ahead (i % ws.length).toNat Prod.snd ws).map fun g => g.1.1).Nodup := by
    have hnd := hws.nodup
    rw [← hws', List.map_map] at hnd
    exact hnd
  have hgg : g' = g := List.inj_on_of_nodup_map hnodup (List.mem_filter.mp hg').1 hg
    (Option.some.inj (hwhole'.trans hwhole))
  rw [← hvalue, hgg]

/-- The rotation is a rotation in time exactly if the value that comes with each fragment is the one that
comes with its whole. -/
theorem shiftValues_iff (i : ℤ) (hws : InTurn c ws) (hin : Inside l)
    (hplays : ∀ t, ⌊t⌋ = c → activeIn l t = heard ws t) :
    (∀ t, ⌊t⌋ = c → activeIn (shiftValues i l) t = heard (rotated i ws) t) ↔
      ∀ z ∈ ahead (places i l.length) EventF.value l, z.1.part.start < z.1.part.stop →
        ∀ g ∈ ahead (i % ws.length).toNat Prod.snd ws, z.1.whole = some g.1.1 → z.2 = g.2 := by
  refine ⟨fun h z hz hpos g hg hwhole => value_of_rotated hws hin h hz hpos hg hwhole, fun h t ht => ?_⟩
  have hsame := hplays t ht
  rw [activeIn_ahead (places i l.length), heard_ahead (i % ws.length).toNat] at hsame
  rw [activeIn_shiftValues, heard_rotated]
  have hone := hws.one (i % ws.length).toNat t
  have hmem : ∀ g ∈ (ahead (i % ws.length).toNat Prod.snd ws).filter fun g => isIn g.1.1 t,
      g ∈ ahead (i % ws.length).toNat Prod.snd ws := fun g hg => (List.mem_filter.mp hg).1
  generalize (ahead (i % ws.length).toNat Prod.snd ws).filter (fun g => isIn g.1.1 t) = r at hsame hone hmem
  rcases r with _ | ⟨g, _ | ⟨g', r⟩⟩
  · have hnil : ((ahead (places i l.length) EventF.value l).filter fun z => isIn z.1.part t) = [] :=
      List.map_eq_nil_iff.mp ((Multiset.coe_eq_zero _).mp hsame)
    rw [hnil]
    rfl
  · obtain ⟨z, hz, heq⟩ := List.map_eq_singleton_iff.mp (List.perm_singleton.mp (Multiset.coe_eq_coe.mp hsame))
    obtain ⟨hzZ, hzt⟩ := List.mem_filter.mp (hz ▸ List.mem_singleton_self z)
    have hpos : z.1.part.start < z.1.part.stop := isIn_pos (of_decide_eq_true hzt)
    have hwhole : z.1.whole = some g.1.1 := (Prod.mk.inj heq).1
    have hvalue := h z hzZ hpos g (hmem g (List.mem_singleton_self g)) hwhole
    rw [hz, List.map_singleton, List.map_singleton, hwhole, hvalue]
  · simp at hone

/-! ## Source positions in time order -/

/-- Events are ordered by their contexts, and then by their wholes. -/
theorem context_le_of_le [LinearOrder α] {e e' : Event α} (h : e ≤ e') :
    e.context < e'.context ∨ e.context = e'.context ∧ wholeKey e.whole ≤ wholeKey e'.whole := by
  rcases Prod.Lex.toLex_le_toLex.mp (show toLex (e.context, toLex (wholeKey e.whole, toLex (e.part, e.value))) ≤
      toLex (e'.context, toLex (wholeKey e'.whole, toLex (e'.part, e'.value))) from h) with h | ⟨h1, h2⟩
  · exact Or.inl h
  · refine Or.inr ⟨h1, ?_⟩
    rcases Prod.Lex.toLex_le_toLex.mp h2 with h2 | h2
    · exact le_of_lt h2
    · exact le_of_eq h2.1

/-- Each whole is heard when it starts. -/
theorem exists_event (hws : InTurn c ws) (hplays : ∀ t, ⌊t⌋ = c → activeIn l t = heard ws t) {w : Arc × α}
    (hw : w ∈ ws) : ∃ e ∈ l, e.part.start < e.part.stop ∧ (e.whole, e.value) = (some w.1, w.2) := by
  obtain ⟨_, hlt, _⟩ := hws.inCycle w hw
  have hin : isIn w.1 w.1.start := ⟨le_rfl, hlt⟩
  have hmem : (some w.1, w.2) ∈ activeIn l w.1.start := by
    rw [hplays _ (hws.floor hw hin)]
    exact List.mem_map.mpr ⟨w, List.mem_filter.mpr ⟨hw, decide_eq_true hin⟩, rfl⟩
  obtain ⟨e, he, het, heq⟩ := mem_activeIn.mp hmem
  exact ⟨e, he, isIn_pos het, heq⟩

theorem InTurn.nodup_some (hws : InTurn c ws) :
    (ws.map fun w => ((some w.1, w.2) : Option Arc × α)).Nodup := by
  refine List.Nodup.of_map Prod.fst ?_
  rw [List.map_map]
  have hnd := hws.nodup.map (Option.some_injective Arc)
  rw [List.map_map] at hnd
  exact hnd

/-- If there are as many events as wholes, these are the wholes and values of the events. -/
theorem perm_of_length (hws : InTurn c ws) (hplays : ∀ t, ⌊t⌋ = c → activeIn l t = heard ws t)
    (hlen : l.length = ws.length) :
    (l.map fun e => (e.whole, e.value)).Perm (ws.map fun w => (some w.1, w.2)) := by
  refine ((List.subperm_of_subset hws.nodup_some ?_).perm_of_length_le ?_).symm
  · intro x hx
    obtain ⟨w, hw, rfl⟩ := List.mem_map.mp hx
    obtain ⟨e, he, _, heq⟩ := exists_event hws hplays hw
    exact List.mem_map.mpr ⟨e, he, heq⟩
  · rw [List.length_map, List.length_map, hlen]

theorem nodup_wholes (hws : InTurn c ws) (hplays : ∀ t, ⌊t⌋ = c → activeIn l t = heard ws t)
    (hlen : l.length = ws.length) : (l.map EventF.whole).Nodup := by
  have hwholes := (perm_of_length hws hplays hlen).map Prod.fst
  rw [List.map_map, List.map_map] at hwholes
  have hnd := hws.nodup.map (Option.some_injective Arc)
  rw [List.map_map] at hnd
  exact hwholes.nodup_iff.mpr hnd

theorem exists_whole (hws : InTurn c ws) (hplays : ∀ t, ⌊t⌋ = c → activeIn l t = heard ws t)
    (hlen : l.length = ws.length) {e : Event α} (he : e ∈ l) :
    ∃ k, ∃ h : k < ws.length, e.whole = some ws[k].1 ∧ e.value = ws[k].2 ∧ e.wholeStart = ws[k].1.start := by
  have hmem := (perm_of_length hws hplays hlen).mem_iff.mp (List.mem_map_of_mem he)
  obtain ⟨v, hv, hve⟩ := List.mem_map.mp hmem
  obtain ⟨k, hk, rfl⟩ := List.mem_iff_getElem.mp hv
  obtain ⟨hwhole, hvalue⟩ := Prod.mk.inj hve
  exact ⟨k, hk, hwhole.symm, hvalue.symm, by simp [wholeStart, wholeOrPart, ← hwhole]⟩

/-- The event comes from an earlier source than the other one, or from the same and starts earlier. -/
def Before (e e' : Event α) : Prop :=
  e.context < e'.context ∨ e.context = e'.context ∧ e.wholeStart < e'.wholeStart

instance (e e' : Event α) : Decidable (Before e e') := inferInstanceAs (Decidable (_ ∨ _))

/-- Sorted, the events are in the order of their sources, and those of one source in the order of time. -/
theorem sorted_before [LinearOrder α] (hws : InTurn c ws)
    (hplays : ∀ t, ⌊t⌋ = c → activeIn l t = heard ws t) (hlen : l.length = ws.length) :
    (l.insertionSort (· ≤ ·)).Pairwise Before := by
  have hsort := List.perm_insertionSort (· ≤ ·) l
  have hne : (l.insertionSort (· ≤ ·)).Pairwise fun e e' => e.whole ≠ e'.whole :=
    List.pairwise_map.mp ((hsort.map EventF.whole).nodup_iff.mpr (nodup_wholes hws hplays hlen))
  refine ((List.pairwise_insertionSort (· ≤ ·) l).and hne).imp_of_mem fun {e e'} he he' hlt => ?_
  obtain ⟨hle, hwne⟩ := hlt
  obtain ⟨k, hk, hw, _, hstart⟩ := exists_whole hws hplays hlen (hsort.mem_iff.mp he)
  obtain ⟨k', hk', hw', _, hstart'⟩ := exists_whole hws hplays hlen (hsort.mem_iff.mp he')
  rcases context_le_of_le hle with h | ⟨h, hkey⟩
  · exact Or.inl h
  · refine Or.inr ⟨h, lt_of_le_of_ne ?_ fun heq => hwne ?_⟩
    · rw [hw, hw'] at hkey
      rw [hstart, hstart']
      exact start_le_of_wholeKey hkey
    · rw [hstart, hstart'] at heq
      rw [hw, hw', hws.eq_of_start (List.getElem_mem hk) (List.getElem_mem hk') heq]

/-- Sources in time order: sorting puts the events in time order. -/
theorem sorted_eq [LinearOrder α] (hws : InTurn c ws)
    (hplays : ∀ t, ⌊t⌋ = c → activeIn l t = heard ws t) (hlen : l.length = ws.length)
    (hctx : ∀ e ∈ l, ∀ e' ∈ l, e.wholeStart < e'.wholeStart → e.context ≤ e'.context) :
    (l.insertionSort (· ≤ ·)).map (fun e => (e.whole, e.value)) = ws.map fun w => (some w.1, w.2) := by
  have hsort := List.perm_insertionSort (· ≤ ·) l
  have hstarts : (l.insertionSort (· ≤ ·)).Pairwise fun e e' => e.wholeStart < e'.wholeStart := by
    have hne : (l.insertionSort (· ≤ ·)).Pairwise fun e e' => e.whole ≠ e'.whole :=
      List.pairwise_map.mp ((hsort.map EventF.whole).nodup_iff.mpr (nodup_wholes hws hplays hlen))
    refine ((sorted_before hws hplays hlen).and hne).imp_of_mem fun {e e'} he he' hlt => ?_
    obtain ⟨hbefore, hwne⟩ := hlt
    obtain ⟨k, hk, hw, _, hstart⟩ := exists_whole hws hplays hlen (hsort.mem_iff.mp he)
    obtain ⟨k', hk', hw', _, hstart'⟩ := exists_whole hws hplays hlen (hsort.mem_iff.mp he')
    rcases hbefore with hlt | ⟨_, hlt⟩
    · -- an event that starts later has no earlier source
      refine lt_of_le_of_ne (not_lt.mp fun hgt => ?_) fun heq => hwne ?_
      · exact absurd hlt (not_lt.mpr (hctx e' (hsort.mem_iff.mp he') e (hsort.mem_iff.mp he) hgt))
      · rw [hstart, hstart'] at heq
        rw [hw, hw', hws.eq_of_start (List.getElem_mem hk) (List.getElem_mem hk') heq]
    · exact hlt
  have hpairs : ((l.insertionSort (· ≤ ·)).map fun e => (e.whole, e.value)).Pairwise fun x y =>
      x.1.elim 0 ArcF.start < y.1.elim 0 ArcF.start := by
    refine List.pairwise_map.mpr (hstarts.imp_of_mem fun {e e'} he he' h => ?_)
    obtain ⟨k, hk, hw, _, hstart⟩ := exists_whole hws hplays hlen (hsort.mem_iff.mp he)
    obtain ⟨k', hk', hw', _, hstart'⟩ := exists_whole hws hplays hlen (hsort.mem_iff.mp he')
    rw [hstart, hstart'] at h
    simpa [hw, hw'] using h
  exact List.Perm.eq_of_pairwise (fun x y _ _ h h' => absurd h (lt_asymm h')) hpairs
    (List.pairwise_map.mpr hws.starts) ((hsort.map _).trans (perm_of_length hws hplays hlen))

/-! ## Ranks -/

/-- In a list in a strict order, as many elements come before one as its index says. -/
theorem countP_getElem {r : β → β → Prop} [DecidableRel r] (hasymm : ∀ x y, r x y → ¬ r y x) {l : List β}
    (h : l.Pairwise r) {k : ℕ} (hk : k < l.length) : l.countP (fun x => r x l[k]) = k := by
  induction l generalizing k with
  | nil => simp at hk
  | cons x l ih =>
    obtain ⟨hx, hl⟩ := List.pairwise_cons.mp h
    cases k with
    | zero =>
      refine List.countP_eq_zero.mpr fun y hy => ?_
      rw [decide_eq_true_eq]
      intro hyx
      rcases List.mem_cons.mp hy with rfl | hy
      · exact hasymm _ _ hyx hyx
      · exact hasymm _ _ (hx y hy) hyx
    | succ k =>
      have hk' : k < l.length := by simpa using hk
      rw [List.getElem_cons_succ, List.countP_cons_of_pos (by simpa using hx _ (List.getElem_mem hk')), ih hl hk']

/-- How many of the events come before one in the order of the sources. -/
def sourceRank (es : List (Event α)) (e : Event α) : ℕ := es.countP fun e' => Before e' e

/-- How many of the events start before one. -/
def timeRank (es : List (Event α)) (e : Event α) : ℕ := es.countP fun e' => e'.wholeStart < e.wholeStart

theorem not_before_of_before {e e' : Event α} (h : Before e e') : ¬ Before e' e := by
  rintro (h' | ⟨h', ht'⟩) <;> rcases h with h | ⟨h, ht⟩
  · exact lt_asymm h h'
  · exact absurd h' (h ▸ lt_irrefl _)
  · exact absurd h (h' ▸ lt_irrefl _)
  · exact lt_asymm ht ht'

theorem sourceRank_getElem [LinearOrder α] (hws : InTurn c ws)
    (hplays : ∀ t, ⌊t⌋ = c → activeIn l t = heard ws t) (hlen : l.length = ws.length) {j : ℕ}
    (hj : j < (l.insertionSort (· ≤ ·)).length) : sourceRank l (l.insertionSort (· ≤ ·))[j] = j := by
  rw [sourceRank, ← (List.perm_insertionSort (· ≤ ·) l).countP_eq]
  exact countP_getElem (fun _ _ => not_before_of_before) (sorted_before hws hplays hlen) hj

theorem timeRank_of_whole (hws : InTurn c ws) (hplays : ∀ t, ⌊t⌋ = c → activeIn l t = heard ws t)
    (hlen : l.length = ws.length) {e : Event α} {k : ℕ} (hk : k < ws.length) (hw : e.whole = some ws[k].1) :
    timeRank l e = k := by
  have hstarts : (l.map EventF.wholeStart).Perm (ws.map fun w => w.1.start) := by
    have hperm := (perm_of_length hws hplays hlen).map fun x => x.1.elim 0 ArcF.start
    rw [List.map_map, List.map_map] at hperm
    refine (List.Perm.of_eq (List.map_congr_left fun e' he' => ?_)).trans hperm
    obtain ⟨k', hk', hw', _, hstart'⟩ := exists_whole hws hplays hlen he'
    rw [hstart', Function.comp_apply, hw']
    rfl
  have hcount := countP_getElem (r := fun x y : Time => x < y) (fun _ _ => lt_asymm)
    (List.pairwise_map.mpr hws.starts) (k := k) (by rwa [List.length_map])
  rw [List.getElem_map, ← hstarts.countP_eq, List.countP_map] at hcount
  have hstart : e.wholeStart = ws[k].1.start := by simp [wholeStart, wholeOrPart, hw]
  rw [timeRank, hstart]
  exact hcount

/-- Up to whole rounds, the values are moved by the number that is given, or not at all if that is less than
minus their number. -/
theorem places_modEq (i : ℤ) (n : ℕ) : (places i n : ℤ) ≡ (if -(n : ℤ) ≤ i then i else 0) [ZMOD n] := by
  rw [places]
  by_cases hi : i ≥ 0
  · rw [if_pos hi, if_pos (by omega), Int.toNat_of_nonneg hi]
  · rw [if_neg hi, abs_of_neg (not_le.mp hi), sub_neg_eq_add]
    split_ifs with h
    · rw [Int.toNat_of_nonneg (by omega)]
      exact Int.add_modEq_left
    · rw [Int.toNat_of_nonpos (by omega)]
      rfl

/-- The values come right exactly if they do from rank to rank. -/
theorem ahead_ranks_iff [LinearOrder α] (hws : InTurn c ws)
    (hplays : ∀ t, ⌊t⌋ = c → activeIn l t = heard ws t) (hlen : l.length = ws.length) (i : ℤ) :
    (∀ z ∈ ahead (places i (l.insertionSort (· ≤ ·)).length) EventF.value (l.insertionSort (· ≤ ·)),
        z.1.part.start < z.1.part.stop →
          ∀ g ∈ ahead (i % ws.length).toNat Prod.snd ws, z.1.whole = some g.1.1 → z.2 = g.2) ↔
      ∀ e ∈ l, ∀ e' ∈ l, ∀ e'' ∈ l,
        sourceRank l e' ≡ sourceRank l e + (if -(ws.length : ℤ) ≤ i then i else 0) [ZMOD ws.length] →
          timeRank l e'' ≡ timeRank l e + i [ZMOD ws.length] → e'.value = e''.value := by
  have hsort := List.perm_insertionSort (· ≤ ·) l
  have hsource := fun j hj => sourceRank_getElem hws hplays hlen (j := j) hj
  have htime := fun e k => timeRank_of_whole hws hplays hlen (e := e) (k := k)
  have hplaces := places_modEq i ws.length
  have hpos : ∀ e ∈ l, e.part.start < e.part.stop := by
    intro e he
    obtain ⟨k, hk, hw, hv, _⟩ := exists_whole hws hplays hlen he
    obtain ⟨e', he', hpos, heq⟩ := exists_event hws hplays (List.getElem_mem hk)
    have hee : e' = e := List.inj_on_of_nodup_map (nodup_wholes hws hplays hlen) he' he
      ((Prod.mk.inj heq).1.trans hw.symm)
    rwa [hee] at hpos
  rw [hsort.length_eq, hlen]
  set s := l.insertionSort (· ≤ ·)
  have hslen : s.length = ws.length := hsort.length_eq.trans hlen
  simp only [forall_mem_ahead, hslen]
  constructor
  · intro h e he e' he' e'' he'' hfrom hto
    obtain ⟨j, hj, rfl⟩ := List.mem_iff_getElem.mp (hsort.mem_iff.mpr he)
    obtain ⟨j', hj', rfl⟩ := List.mem_iff_getElem.mp (hsort.mem_iff.mpr he')
    obtain ⟨k, hk, hw, _, _⟩ := exists_whole hws hplays hlen he
    obtain ⟨k', hk', hw', hv', _⟩ := exists_whole hws hplays hlen he''
    rw [hsource, hsource] at hfrom
    rw [htime _ k hk hw, htime _ k' hk' hw'] at hto
    have hpos' : (0 : ℤ) < ws.length := by exact_mod_cast k.zero_le.trans_lt hk
    rw [hv']
    refine h j (hslen ▸ hj) j' (hslen ▸ hj') ?_ (hpos _ he) k hk k' hk' ?_ hw
    · have hmod := hfrom.trans (hplaces.symm.add_left _)
      rw [← Nat.cast_add, Int.natCast_modEq_iff] at hmod
      rw [← hmod, Nat.mod_eq_of_lt (hslen ▸ hj')]
    · have hmod : (k' : ℤ) ≡ (k + (i % ws.length).toNat : ℕ) [ZMOD ws.length] := by
        rw [Nat.cast_add, Int.toNat_of_nonneg (Int.emod_nonneg _ hpos'.ne')]
        exact hto.trans ((Int.mod_modEq i _).symm.add_left _)
      rw [Int.natCast_modEq_iff] at hmod
      rw [← hmod, Nat.mod_eq_of_lt hk']
  · rintro h j hj j' hj' rfl _ k hk k' hk' rfl hw
    have hpos' : (0 : ℤ) < ws.length := by exact_mod_cast k.zero_le.trans_lt hk
    have hjs : j < s.length := hslen ▸ hj
    have hjs' : (j + places i ws.length) % ws.length < s.length := hslen ▸ hj'
    obtain ⟨e'', he'', _, heq⟩ := exists_event hws hplays (List.getElem_mem hk')
    obtain ⟨hw'', hv''⟩ := Prod.mk.inj heq
    have he := hsort.mem_iff.mp (List.getElem_mem hjs)
    rw [← hv'']
    refine h _ he _ (hsort.mem_iff.mp (List.getElem_mem hjs')) e'' he'' ?_ ?_
    · rw [hsource, hsource, Int.natCast_mod, Nat.cast_add]
      exact (Int.mod_modEq _ _).trans (hplaces.add_left _)
    · rw [htime _ k hk hw, htime _ _ hk' hw'', Int.natCast_mod, Nat.cast_add,
        Int.toNat_of_nonneg (Int.emod_nonneg _ hpos'.ne')]
      exact (Int.mod_modEq _ _).trans ((Int.mod_modEq i _).add_left _)

/-- Of events in time order, the values come with the fragments as with the wholes if both are moved alike. -/
theorem ahead_sorted_iff (hws : InTurn c ws)
    (hkeys : l.map (fun e => (e.whole, e.value)) = ws.map fun w => (some w.1, w.2))
    (hpos : ∀ e ∈ l, e.part.start < e.part.stop) (r n : ℕ) :
    (∀ z ∈ ahead r EventF.value l, z.1.part.start < z.1.part.stop →
        ∀ g ∈ ahead n Prod.snd ws, z.1.whole = some g.1.1 → z.2 = g.2) ↔
      (ws.map Prod.snd).rotate r = (ws.map Prod.snd).rotate n := by
  have hlen : l.length = ws.length := by simpa using congrArg List.length hkeys
  have hvalues : l.map EventF.value = ws.map Prod.snd := by
    have h := congrArg (List.map Prod.snd) hkeys
    rwa [List.map_map, List.map_map] at h
  have hwhole : ∀ k (h1 : k < l.length) (h2 : k < ws.length), l[k].whole = some ws[k].1 := by
    intro k h1 h2
    have h := List.getElem_of_eq hkeys (i := k) (by simpa using h1)
    rw [List.getElem_map, List.getElem_map] at h
    exact (Prod.mk.inj h).1
  constructor
  · intro h
    refine List.ext_getElem (by simp) fun k h1 h2 => ?_
    have hk : k < ws.length := by simpa using h1
    have hkl : k < l.length := hlen ▸ hk
    have hkr : k < ((l.map EventF.value).rotate r).length := by simpa using hkl
    have hz : (l[k], ((l.map EventF.value).rotate r)[k]) ∈ ahead r EventF.value l := by
      refine List.mem_iff_getElem.mpr ⟨k, by rwa [length_ahead], ?_⟩
      simp [ahead]
    have hg : (ws[k], ((ws.map Prod.snd).rotate n)[k]) ∈ ahead n Prod.snd ws := by
      refine List.mem_iff_getElem.mpr ⟨k, by rwa [length_ahead], ?_⟩
      simp [ahead]
    have hvalue := h _ hz (hpos _ (List.getElem_mem hkl)) _ hg (hwhole k hkl hk)
    simpa only [hvalues] using hvalue
  · intro h z hz _ g hg hzg
    obtain ⟨j, hj, rfl⟩ := List.mem_iff_getElem.mp hz
    obtain ⟨k, hk, rfl⟩ := List.mem_iff_getElem.mp hg
    rw [length_ahead] at hj hk
    simp only [ahead, List.getElem_zip] at hzg ⊢
    have hjw : j < ws.length := hlen ▸ hj
    rw [hwhole j hj hjw, Option.some.injEq] at hzg
    have hjk : j = k := by
      have hj' : j < (ws.map Prod.fst).length := by simpa using hjw
      have hk' : k < (ws.map Prod.fst).length := by simpa using hk
      have heq : (ws.map Prod.fst)[j] = (ws.map Prod.fst)[k] := by simpa using hzg
      exact hws.nodup.getElem_inj_iff.mp heq
    subst hjk
    simp only [hvalues, h]

end Cycle

/-- The places are those of a rotation in time, unless a negative number of places is larger than the list. -/
theorem rotate_places (vs : List α) (h : -(vs.length : ℤ) ≤ i ∨ (vs.length : ℤ) ∣ i) :
    vs.rotate (places i vs.length) = vs.rotate (i % vs.length).toNat := by
  rcases Nat.eq_zero_or_pos vs.length with h0 | hpos
  · rw [List.length_eq_zero_iff.mp h0, List.rotate_nil, List.rotate_nil]
  · have hpos' : (0 : ℤ) < vs.length := by exact_mod_cast hpos
    have hmod : (i % vs.length).toNat = (places i vs.length) % vs.length := by
      rw [places]
      by_cases hi : i ≥ 0
      · rw [if_pos hi, Int.toNat_emod hi hpos'.le, Int.toNat_natCast]
      · rw [if_neg hi, abs_of_neg (not_le.mp hi), sub_neg_eq_add]
        rcases h with h | ⟨k, rfl⟩
        · have hcast : (((vs.length + i).toNat % vs.length : ℕ) : ℤ) = (vs.length + i) % vs.length := by
            rw [Int.natCast_emod, Int.toNat_of_nonneg (by omega)]
          rw [Int.add_emod_left] at hcast
          omega
        · have hk : (vs.length : ℤ) + vs.length * k ≤ 0 := by
            have : k ≤ -1 := by
              by_contra hk
              exact hi (mul_nonneg hpos'.le (by omega))
            nlinarith
          rw [Int.mul_emod_right, Int.toNat_of_nonpos hk]
          simp
    rw [hmod, List.rotate_mod]

section Rot

variable [LinearOrder α] {ws : List (Arc × α)}

/-- Events with sources in time order are moved by their places in time. -/
theorem rot_in_order_iff (hws : InTurn c ws) {l : List (Event α)}
    (hplays : ∀ t, ⌊t⌋ = c → activeIn l t = heard ws t) (hlen : l.length = ws.length)
    (hctx : ∀ e ∈ l, ∀ e' ∈ l, e.wholeStart < e'.wholeStart → e.context ≤ e'.context) (n : ℕ) :
    (∀ z ∈ ahead (places i (l.insertionSort (· ≤ ·)).length) EventF.value (l.insertionSort (· ≤ ·)),
        z.1.part.start < z.1.part.stop → ∀ g ∈ ahead n Prod.snd ws, z.1.whole = some g.1.1 → z.2 = g.2) ↔
      (ws.map Prod.snd).rotate (places i ws.length) = (ws.map Prod.snd).rotate n := by
  have hkeys := sorted_eq hws hplays hlen hctx
  have hsort := List.perm_insertionSort (· ≤ ·) l
  have hpos : ∀ e ∈ l.insertionSort (· ≤ ·), e.part.start < e.part.stop := by
    intro e he
    have hnodup := hkeys ▸ hws.nodup_some
    obtain ⟨w, hw, hwe⟩ := List.mem_map.mp (hkeys ▸ List.mem_map_of_mem he)
    obtain ⟨e', he', hpos, heq⟩ := exists_event hws hplays hw
    have hee : e' = e := List.inj_on_of_nodup_map hnodup (hsort.mem_iff.mpr he') he (heq.trans hwe)
    rwa [hee] at hpos
  rw [hsort.length_eq, hlen]
  exact ahead_sorted_iff hws hkeys hpos _ n

/-- `_rot` is rotation in time in a cycle that is answered with one fragment for each event, or with two that lie
side by side, exactly if each event has, as many places on in the order of the sources, the value that it has as
many places on in time; no places on in the order of the sources if that is less than minus the number of events.
With sources in time order this is so exactly if it is not less than that, or the rotation in time changes
nothing. -/
theorem rot_iff (i : ℤ) (p : Pattern Γ α) (m : Γ) (c : ℤ) (ws : List (Arc × α)) (hws : InTurn c ws)
    (hin : Inside (p.query ⟨⟨c, c + 1⟩, m⟩))
    (hplays : ∀ t, ⌊t⌋ = c → activeIn (p.query ⟨⟨c, c + 1⟩, m⟩) t = heard ws t) :
    let es := defragParts (p.query ⟨⟨c, c + 1⟩, m⟩)
    ((p.query ⟨⟨c, c + 1⟩, m⟩).length = ws.length → es = p.query ⟨⟨c, c + 1⟩, m⟩) ∧
    (es.length = ws.length →
      ((∀ a t, isIn a t → ⌊t⌋ = c → act (_rot i p) m a t = heard (rotated i ws) t) ↔
        ∀ e ∈ es, ∀ e' ∈ es, ∀ e'' ∈ es,
          sourceRank es e' ≡ sourceRank es e + (if -(ws.length : ℤ) ≤ i then i else 0) [ZMOD ws.length] →
            timeRank es e'' ≡ timeRank es e + i [ZMOD ws.length] → e'.value = e''.value)) ∧
    (es.length = ws.length →
      (∀ e ∈ es, ∀ e' ∈ es, e.wholeStart < e'.wholeStart → e.context ≤ e'.context) →
      ((∀ a t, isIn a t → ⌊t⌋ = c → act (_rot i p) m a t = heard (rotated i ws) t) ↔
        -(ws.length : ℤ) ≤ i ∨ (ws.map Prod.snd).rotate (i % ws.length).toNat = ws.map Prod.snd)) := by
  intro es
  obtain ⟨hinside, hact⟩ := defragParts_spec hin
  have hfrag : ∀ t, ⌊t⌋ = c → activeIn es t = heard ws t := fun t ht => by
    rw [hact, hplays t ht]
  have hperm : (fragments p m c).Perm es := List.perm_insertionSort _ _
  have hrot : (∀ a t, isIn a t → ⌊t⌋ = c → act (_rot i p) m a t = heard (rotated i ws) t) ↔
      ∀ t, ⌊t⌋ = c → activeIn (shiftValues i (fragments p m c)) t = heard (rotated i ws) t := by
    refine ⟨fun h t ht => ?_, fun h a t hat ht => ?_⟩
    · have hnow := h ⟨t, t + 1⟩ t ⟨le_rfl, lt_add_one t⟩ ht
      rwa [act_rot i p ⟨le_rfl, lt_add_one t⟩, ht] at hnow
    · rw [act_rot i p hat, ht]
      exact h t ht
  have hiff := hrot.trans (shiftValues_iff i hws (fun e he => hinside e (hperm.mem_iff.mp he))
    fun t ht => by rw [activeIn_perm hperm, hfrag t ht])
  refine ⟨fun hlen => defragParts_of_nodup (nodup_wholes hws hplays hlen),
    fun hlen => hiff.trans (ahead_ranks_iff hws hfrag hlen i), fun hlen hctx => ?_⟩
  rw [hiff.trans (rot_in_order_iff hws hfrag hlen hctx _)]
  have hrotate := rotate_places (ws.map Prod.snd) (i := i)
  rw [List.length_map] at hrotate
  by_cases hi : -(ws.length : ℤ) ≤ i
  · exact iff_of_true (hrotate (Or.inl hi)) (Or.inl hi)
  · -- so far back, the values stay where they are
    have hnone : places i ws.length = 0 := by
      rw [places]
      split_ifs with h
      · omega
      · rw [abs_of_neg (not_le.mp h)]
        omega
    rw [hnone, List.rotate_zero, or_iff_right hi]
    exact eq_comm

end Rot

/-- Three values to a cycle. -/
def threeValues : Pattern Unit ℕ := fastCat [Pattern.pure 0, Pattern.pure 1, Pattern.pure 2]

/-- Three values to a cycle, of which the later ones have the earlier sources. -/
def reversedSources : Pattern Unit ℕ :=
  fastCat [setContext ⟨[((5, 1), (6, 1))]⟩ (Pattern.pure 0), setContext ⟨[((3, 1), (4, 1))]⟩ (Pattern.pure 1),
    setContext ⟨[((1, 1), (2, 1))]⟩ (Pattern.pure 2)]

/-- Their wholes in the first cycle. -/
def threeWholes : List (Arc × ℕ) := [(⟨0, 1 / 3⟩, 0), (⟨1 / 3, 2 / 3⟩, 1), (⟨2 / 3, 1⟩, 2)]

theorem inTurn_threeWholes : InTurn 0 threeWholes where
  ordered := by norm_num [threeWholes]
  inCycle := by norm_num [threeWholes]

/-- A cycle of three events that are answered once each. -/
theorem threeWholes_spec {q : Pattern Unit ℕ} (c₀ c₁ c₂ : Context)
    (h : q.query ⟨⟨0, 1⟩, ()⟩ = [⟨c₀, some ⟨0, 1 / 3⟩, ⟨0, 1 / 3⟩, 0⟩,
      ⟨c₁, some ⟨1 / 3, 2 / 3⟩, ⟨1 / 3, 2 / 3⟩, 1⟩, ⟨c₂, some ⟨2 / 3, 1⟩, ⟨2 / 3, 1⟩, 2⟩]) :
    Inside (q.query ⟨⟨(0 : ℤ), (0 : ℤ) + 1⟩, ()⟩) ∧
      ∀ t, activeIn (q.query ⟨⟨(0 : ℤ), (0 : ℤ) + 1⟩, ()⟩) t = heard threeWholes t := by
  have hcycle : (⟨(0 : ℤ), (0 : ℤ) + 1⟩ : Arc) = ⟨0, 1⟩ := by norm_num
  rw [hcycle, h]
  constructor
  · intro e he
    simp only [List.mem_cons, List.not_mem_nil, or_false] at he
    rcases he with rfl | rfl | rfl
    · exact ⟨_, rfl, le_rfl, by norm_num, le_rfl⟩
    · exact ⟨_, rfl, le_rfl, by norm_num, le_rfl⟩
    · exact ⟨_, rfl, le_rfl, by norm_num, le_rfl⟩
  · intro t
    simp only [activeIn, heard, threeWholes, List.filter_cons, List.filter_nil]
    split_ifs <;> rfl

theorem threeValues_query :
    threeValues.query ⟨⟨0, 1⟩, ()⟩ = [⟨⟨[]⟩, some ⟨0, 1 / 3⟩, ⟨0, 1 / 3⟩, 0⟩,
      ⟨⟨[]⟩, some ⟨1 / 3, 2 / 3⟩, ⟨1 / 3, 2 / 3⟩, 1⟩, ⟨⟨[]⟩, some ⟨2 / 3, 1⟩, ⟨2 / 3, 1⟩, 2⟩] ∧
    reversedSources.query ⟨⟨0, 1⟩, ()⟩ = [⟨⟨[((5, 1), (6, 1))]⟩, some ⟨0, 1 / 3⟩, ⟨0, 1 / 3⟩, 0⟩,
      ⟨⟨[((3, 1), (4, 1))]⟩, some ⟨1 / 3, 2 / 3⟩, ⟨1 / 3, 2 / 3⟩, 1⟩,
      ⟨⟨[((1, 1), (2, 1))]⟩, some ⟨2 / 3, 1⟩, ⟨2 / 3, 1⟩, 2⟩] := by
  with_unfolding_all decide

theorem threeValues_spec : Inside (threeValues.query ⟨⟨(0 : ℤ), (0 : ℤ) + 1⟩, ()⟩) ∧
    ∀ t, activeIn (threeValues.query ⟨⟨(0 : ℤ), (0 : ℤ) + 1⟩, ()⟩) t = heard threeWholes t :=
  threeWholes_spec ⟨[]⟩ ⟨[]⟩ ⟨[]⟩ threeValues_query.1

theorem reversedSources_spec : Inside (reversedSources.query ⟨⟨(0 : ℤ), (0 : ℤ) + 1⟩, ()⟩) ∧
    ∀ t, activeIn (reversedSources.query ⟨⟨(0 : ℤ), (0 : ℤ) + 1⟩, ()⟩) t = heard threeWholes t :=
  threeWholes_spec ⟨[((5, 1), (6, 1))]⟩ ⟨[((3, 1), (4, 1))]⟩ ⟨[((1, 1), (2, 1))]⟩ threeValues_query.2

/-- With reversed sources a rotation by all three places is right, and one by a single place is not. -/
theorem rot_iff_threeValues :
    act (_rot (-2) threeValues) () ⟨0, 1⟩ (1 / 2) = heard (rotated (-2) threeWholes) (1 / 2) ∧
    act (_rot 3 reversedSources) () ⟨0, 1⟩ (1 / 2) = heard (rotated 3 threeWholes) (1 / 2) ∧
    ¬ ∀ a t, isIn a t → ⌊t⌋ = 0 → act (_rot 1 reversedSources) () a t = heard (rotated 1 threeWholes) t := by
  have hin : isIn ⟨0, 1⟩ (1 / 2) := by norm_num [isIn]
  refine ⟨?_, ?_, fun h => ?_⟩
  · refine ((rot_iff (-2) threeValues () 0 threeWholes inTurn_threeWholes threeValues_spec.1
      fun t _ => threeValues_spec.2 t).2.2 (by with_unfolding_all decide)
      (by with_unfolding_all decide)).mpr (Or.inl (by decide))
      ⟨0, 1⟩ (1 / 2) hin (by norm_num)
  · exact ((rot_iff 3 reversedSources () 0 threeWholes inTurn_threeWholes reversedSources_spec.1
      fun t _ => reversedSources_spec.2 t).2.1 (by with_unfolding_all decide)).mpr (by with_unfolding_all decide)
      ⟨0, 1⟩ (1 / 2) hin (by norm_num)
  · have hranks := ((rot_iff 1 reversedSources () 0 threeWholes inTurn_threeWholes reversedSources_spec.1
      fun t _ => reversedSources_spec.2 t).2.1 (by with_unfolding_all decide)).mp h
    revert hranks
    with_unfolding_all decide

/-- Later events with earlier sources are moved the other way, and four places back of three events are none. -/
theorem rot_against_time :
    InTurn 0 threeWholes ∧
    (∀ t, activeIn (reversedSources.query ⟨⟨(0 : ℤ), (0 : ℤ) + 1⟩, ()⟩) t = heard threeWholes t) ∧
    act (_rot 1 reversedSources) () ⟨0, 1⟩ 0 = {(some ⟨0, 1 / 3⟩, 2)} ∧
    heard (rotated 1 threeWholes) 0 = {(some ⟨0, 1 / 3⟩, 1)} ∧
    (∀ t, activeIn (threeValues.query ⟨⟨(0 : ℤ), (0 : ℤ) + 1⟩, ()⟩) t = heard threeWholes t) ∧
    act (_rot (-4) threeValues) () ⟨0, 1⟩ 0 = {(some ⟨0, 1 / 3⟩, 0)} ∧
    heard (rotated (-4) threeWholes) 0 = {(some ⟨0, 1 / 3⟩, 2)} := by
  refine ⟨inTurn_threeWholes, reversedSources_spec.2, ?_, ?_, threeValues_spec.2, ?_, ?_⟩
  all_goals with_unfolding_all decide

end Tidal
