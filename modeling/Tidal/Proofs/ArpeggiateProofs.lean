import Tidal.UI
import Tidal.Proofs.CyclesProofs
import Tidal.Proofs.OrderProofs
import Tidal.Proofs.SteadyProofs

/-!
# Broken chords

`arpeggiate` counts the events of a query that have one whole, and plays them one after the other in that
many steps of the whole. An event that is answered in several fragments counts once for each.
-/

namespace Tidal

open Pattern EventF

variable {Γ α : Type} {p : Pattern Γ α} {m : Γ} {a b : Arc} {t : Time} {w : Arc} {n : ℕ}

/-! ## The steps of a whole -/

/-- The `k`th of `n` equal steps of a whole. -/
def cell (w : Arc) (n k : ℕ) : Arc :=
  ⟨w.start + (w.stop - w.start) / n * k, w.start + (w.stop - w.start) / n * k + (w.stop - w.start) / n⟩

/-- The step of the whole that holds the moment. -/
def beat (w : Arc) (n : ℕ) (t : Time) : ℕ := ⌊(t - w.start) / (w.stop - w.start) * n⌋.toNat

theorem isIn_cell (hn : 0 < n) (ht : isIn w t) (k : ℕ) : isIn (cell w n k) t ↔ k = beat w n t := by
  obtain ⟨s, e⟩ := w
  have hse : 0 < e - s := sub_pos.mpr (isIn_pos ht)
  have hn' : (0 : ℚ) < n := Nat.cast_pos.mpr hn
  have hdur : 0 < (e - s) / n := div_pos hse hn'
  have hx : (t - s) / (e - s) * n = (t - s) / ((e - s) / n) := by field_simp
  have hnonneg : 0 ≤ ⌊(t - s) / ((e - s) / n)⌋ := Int.floor_nonneg.mpr (div_nonneg (sub_nonneg.mpr ht.1) hdur.le)
  have hfloor : k = beat ⟨s, e⟩ n t ↔ ⌊(t - s) / ((e - s) / n)⌋ = (k : ℤ) := by
    simp only [beat, hx]
    omega
  rw [hfloor, Int.floor_eq_iff, le_div_iff₀ hdur, div_lt_iff₀ hdur]
  simp only [isIn, cell, Int.cast_natCast]
  constructor
  · rintro ⟨h1, h2⟩
    constructor <;> linarith
  · rintro ⟨h1, h2⟩
    constructor <;> linarith

/-- A whole in as many steps has steps of one length. -/
theorem cell_injective {n' : ℕ} (hw : w.start < w.stop) (hn : 0 < n) (hn' : 0 < n') {k k' : ℕ}
    (h : cell w n k = cell w n' k') : n = n' := by
  obtain ⟨s, e⟩ := w
  have hse : e - s ≠ 0 := (sub_pos.mpr hw).ne'
  obtain ⟨h1, h2⟩ := ArcF.mk.inj h
  have hdur : (e - s) / n = (e - s) / n' := by
    simp only at h1 h2
    linarith
  have h0 : (n : ℚ) ≠ 0 := Nat.cast_ne_zero.mpr hn.ne'
  have h0' : (n' : ℚ) ≠ 0 := Nat.cast_ne_zero.mpr hn'.ne'
  field_simp at hdur
  exact_mod_cast hdur.symm

/-! ## One chord -/

theorem shiftIt_of_whole {e : Event α} (he : e.whole = some w) (k : ℕ) :
    shiftIt k n e = (subArc (cell w n k) e.part).map fun c => ⟨e.context, some (cell w n k), c, e.value⟩ := by
  simp [shiftIt, he, cell, Option.bind_eq_bind, Option.map_eq_bind]

theorem activeIn_shiftIt {e : Event α} (he : e.whole = some w) (hn : 0 < n) (ht : isIn w t) (k : ℕ) :
    activeIn (shiftIt k n e).toList t =
      if k = beat w n t then (if isIn e.part t then {(some (cell w n (beat w n t)), e.value)} else 0) else 0 := by
  rw [shiftIt_of_whole he]
  cases hc : subArc (cell w n k) e.part with
  | none =>
    split_ifs with hk hpart
    · have hcell := (isIn_cell hn ht k).mpr hk
      rw [subArc_of_isIn hcell hpart] at hc
      cases hc
    · rfl
    · rfl
  | some c =>
    have hin := isIn_of_subArc (t := t) hc
    rw [isIn_cell hn ht] at hin
    rw [Option.map_some, Option.toList_some, activeIn_singleton]
    by_cases hk : k = beat w n t
    · rw [if_pos hk]
      by_cases hpart : isIn e.part t
      · rw [if_pos hpart, if_pos (hin.mpr ⟨hk, hpart⟩), hk]
      · rw [if_neg hpart, if_neg fun h => hpart (hin.mp h).2]
    · rw [if_neg hk, if_neg fun h => hk (hin.mp h).1]

/-- A step of an event plays only where the event does. -/
theorem isIn_of_shiftIt {e z : Event α} {k : ℤ} (h : shiftIt k n e = some z) (hz : isIn z.part t) :
    isIn e.part t := by
  unfold shiftIt at h
  cases hw : e.whole with
  | none => simp [hw] at h
  | some w =>
    simp only [hw, Option.bind_eq_bind, Option.bind_eq_some_iff, Option.pure_def, Option.some.injEq] at h
    obtain ⟨c, hc, rfl⟩ := h
    exact ((isIn_of_subArc hc).mp hz).2

theorem activeIn_spreadOut_eq_zero {es : List (Event α)} (h : ∀ e ∈ es, ¬ isIn e.part t) :
    activeIn (spreadOut es) t = 0 := by
  refine activeIn_eq_zero fun z hz hzt => ?_
  obtain ⟨⟨k, e⟩, he, hez⟩ := List.mem_filterMap.mp hz
  exact h e (List.of_mem_zip he).2 (isIn_of_shiftIt hez hzt)

theorem enumerate_eq (xs : List α) : enumerate xs = xs.zipIdx.map fun x => ((x.2 : ℤ), x.1) := by
  refine List.ext_getElem (by simp [enumerate]) fun i h1 h2 => ?_
  simp [enumerate]

/-- Of events that are spread out from the `i`th step on, the one is heard that is on the step of the moment. -/
theorem activeIn_steps {es : List (Event α)} (hes : ∀ e ∈ es, e.whole = some w) (hn : 0 < n) (ht : isIn w t)
    (i : ℕ) :
    activeIn ((es.zipIdx i).filterMap fun x => shiftIt x.2 n x.1) t =
      if i ≤ beat w n t then
        (es[beat w n t - i]?).elim 0 fun e =>
          if isIn e.part t then {(some (cell w n (beat w n t)), e.value)} else 0
      else 0 := by
  induction es generalizing i with
  | nil => simp [activeIn]
  | cons e es ih =>
    have hcons : activeIn (((e :: es).zipIdx i).filterMap fun x => shiftIt x.2 n x.1) t =
        activeIn (shiftIt i n e).toList t +
          activeIn ((es.zipIdx (i + 1)).filterMap fun x => shiftIt x.2 n x.1) t := by
      rw [List.zipIdx_cons, ← activeIn_append]
      cases h : shiftIt i n e <;> simp [h]
    rw [hcons, activeIn_shiftIt (hes e (List.mem_cons_self ..)) hn ht,
      ih fun x hx => hes x (List.mem_cons_of_mem _ hx)]
    rcases lt_trichotomy i (beat w n t) with hlt | heq | hgt
    · have hidx : beat w n t - i = beat w n t - (i + 1) + 1 := by omega
      rw [if_neg hlt.ne, if_pos (Nat.succ_le_of_lt hlt), if_pos hlt.le, zero_add, hidx, List.getElem?_cons_succ]
    · have hnext : ¬ i + 1 ≤ beat w n t := by omega
      rw [if_pos heq, if_neg hnext, if_pos heq.le, add_zero, heq, Nat.sub_self, List.getElem?_cons_zero]
      rfl
    · have hnext : ¬ i + 1 ≤ beat w n t := by omega
      rw [if_neg hgt.ne', if_neg hnext, if_neg (not_le.mpr hgt), add_zero]

/-- Of events with one whole, the one is heard that is on the step of the moment. -/
theorem activeIn_spreadOut {es : List (Event α)} (hes : ∀ e ∈ es, e.whole = some w) (ht : isIn w t) :
    activeIn (spreadOut es) t = (es[beat w es.length t]?).elim 0 fun e =>
      if isIn e.part t then {(some (cell w es.length (beat w es.length t)), e.value)} else 0 := by
  cases es with
  | nil => rfl
  | cons e es =>
    have hsteps := activeIn_steps hes (n := (e :: es).length) (Nat.succ_pos _) ht 0
    rw [if_pos (Nat.zero_le _), Nat.sub_zero] at hsteps
    rw [← hsteps, spreadOut, enumerate_eq, List.filterMap_map]
    rfl

/-! ## Chord by chord -/

/-- The events of `p` with one whole. -/
def chord (w : Option Arc) (p : Pattern Γ α) : Pattern Γ α := filterEvents (fun e => e.whole = w) p

theorem activeIn_flatten (f : List (Event α) → List (Event α)) (l : List (List (Event α))) :
    activeIn (l.flatMap f) t = (l.map fun es => activeIn (f es) t).sum := by
  induction l with
  | nil => rfl
  | cons es l ih => rw [List.flatMap_cons, activeIn_append, ih, List.map_cons, List.sum_cons]

/-- The events of one whole are spread out as the query lists them. -/
theorem act_chord (p : Pattern Γ α) (m : Γ) (a : Arc) (t : Time) (w : Option Arc) :
    act (arpeggiate (chord w p)) m a t =
      activeIn (spreadOut ((p.query ⟨a, m⟩).filter fun e => e.whole = w)) t := by
  set es := (p.query ⟨a, m⟩).filter fun e => e.whole = w with hes
  have hwhole : ∀ e ∈ es, e.whole = w := by
    intro e he
    simpa using (List.mem_filter.mp he).2
  have hsort : sortOn (fun e => wholeKey e.whole) es = es := by
    have hkey := filter_sortOn (fun e : Event α => wholeKey e.whole) (wholeKey w) es
    rwa [List.filter_eq_self.mpr fun e he => by simp [hwhole e (mem_sortOn.mp he)],
      List.filter_eq_self.mpr fun e he => by simp [hwhole e he]] at hkey
  have hact : act (arpeggiate (chord w p)) m a t =
      activeIn (((sortOn (fun e => wholeKey e.whole) es).splitBy
        fun a b => a.whole = b.whole).flatMap spreadOut) t := rfl
  rw [hact, hsort]
  by_cases hnil : es = []
  · rw [hnil]
    rfl
  · rw [splitBy_same hnil hwhole, List.flatMap_singleton]

/-- What is heard of a broken pattern is heard of one of its broken chords. -/
theorem act_arpeggiate (p : Pattern Γ α) (m : Γ) (a : Arc) (t : Time) :
    act (arpeggiate p) m a t =
      ∑ w ∈ ((p.query ⟨a, m⟩).map EventF.whole).toFinset, act (arpeggiate (chord w p)) m a t := by
  have hact : act (arpeggiate p) m a t =
      activeIn (((sortOn (fun e => wholeKey e.whole) (p.query ⟨a, m⟩)).splitBy
        fun a b => a.whole = b.whole).flatMap spreadOut) t := rfl
  have hkeys : ((sortOn (fun e => wholeKey e.whole) (p.query ⟨a, m⟩)).map EventF.whole).toFinset =
      ((p.query ⟨a, m⟩).map EventF.whole).toFinset :=
    List.toFinset_eq_of_perm _ _ ((sortOn_perm _ _).map _)
  rw [hact, activeIn_flatten, sum_splitBy wholeKey_injective _ (pairwise_sortOn _ _), hkeys]
  refine Finset.sum_congr rfl fun w _ => ?_
  have hfilter := filter_sortOn (fun e : Event α => wholeKey e.whole) (wholeKey w) (p.query ⟨a, m⟩)
  rw [act_chord]
  exact congrArg (fun es => activeIn (spreadOut es) t) hfilter

/-! ## All queries alike -/

/-- How many events with one whole play at a moment. -/
def voices (p : Pattern Γ α) (m : Γ) (t : Time) (w : Arc) : ℕ :=
  ((behaviour p m t).filter fun x => x.1 = some w).card

/-- The events with one whole as a query lists them, fragment by fragment. -/
def listed (p : Pattern Γ α) (m : Γ) (a : Arc) (w : Arc) : List (Event α) :=
  (p.query ⟨a, m⟩).filter fun e => e.whole = some w

theorem mem_listed {e : Event α} : e ∈ listed p m a w ↔ e ∈ p.query ⟨a, m⟩ ∧ e.whole = some w := by
  simp [listed]

theorem exists_of_voices (h : 0 < voices p m t w) : ∃ v, (some w, v) ∈ behaviour p m t := by
  obtain ⟨x, hx⟩ := Multiset.card_pos_iff_exists_mem.mp h
  obtain ⟨hx, hxw⟩ := Multiset.mem_filter.mp hx
  exact ⟨x.2, hxw ▸ hx⟩

theorem voices_pos {v : α} (h : (some w, v) ∈ behaviour p m t) : 0 < voices p m t w :=
  Multiset.card_pos_iff_exists_mem.mpr ⟨_, Multiset.mem_filter.mpr ⟨h, rfl⟩⟩

theorem card_listed (hp : Seamless p) (hat : isIn a t) :
    ((listed p m a w).filter fun e => isIn e.part t).length = voices p m t w := by
  have hfilter : activeIn (listed p m a w) t = (act p m a t).filter fun x => decide (x.1 = some w) :=
    activeIn_filter _ (fun x => decide (x.1 = some w)) fun _ _ _ => rfl
  have hnow : act p m a t = behaviour p m t := hp.steady a ⟨t, t + 1⟩ m t hat ⟨le_rfl, lt_add_one t⟩
  rw [voices, ← hnow]
  simpa [activeIn] using congrArg Multiset.card hfilter

/-- If each event is listed once, all that are listed play. -/
theorem isIn_of_listed (hp : Seamless p) (hat : isIn a t) (h : (listed p m a w).length = voices p m t w)
    {e : Event α} (he : e ∈ listed p m a w) : isIn e.part t := by
  rw [← card_listed hp hat] at h
  simpa using List.length_filter_eq_length_iff.mp h.symm e he

/-- A chord is broken into its notes exactly if the query lists each of its events once. -/
theorem act_chord_iff (hp : Seamless p) (hat : isIn a t) (hw : 0 < voices p m t w) (v : α) :
    act (arpeggiate (chord (some w) p)) m a t =
        {(some (cell w (voices p m t w) (beat w (voices p m t w) t)), v)} ↔
      (listed p m a w).length = voices p m t w ∧
      ((listed p m a w)[beat w (voices p m t w) t]?).map EventF.value = some v := by
  obtain ⟨v₀, hv₀⟩ := exists_of_voices hw
  have hwt : isIn w t := by
    obtain ⟨w', hw', hin⟩ := hp.whole_isIn hv₀
    rwa [Option.some.inj hw']
  have hwhole : ∀ e ∈ listed p m a w, e.whole = some w := fun e he => (mem_listed.mp he).2
  have hact : act (arpeggiate (chord (some w) p)) m a t = activeIn (spreadOut (listed p m a w)) t :=
    act_chord p m a t (some w)
  rw [hact, activeIn_spreadOut hwhole hwt]
  constructor
  · intro h
    cases he : (listed p m a w)[beat w (listed p m a w).length t]? with
    | none =>
      rw [he] at h
      exact absurd h.symm (Multiset.singleton_ne_zero _)
    | some e =>
      rw [he, Option.elim_some] at h
      split_ifs at h with hpart
      · obtain ⟨hcell, hvalue⟩ := Prod.mk.inj (Multiset.singleton_inj.mp h)
        have hlen : 0 < (listed p m a w).length := List.length_pos_of_mem (List.mem_of_getElem? he)
        have hn := cell_injective (isIn_pos hwt) hlen hw (Option.some.inj hcell)
        rw [← hn, he, Option.map_some, hvalue]
        exact ⟨rfl, rfl⟩
      · exact absurd h.symm (Multiset.singleton_ne_zero _)
  · rintro ⟨hlen, hv⟩
    obtain ⟨e, he, rfl⟩ := Option.map_eq_some_iff.mp hv
    rw [hlen, he, Option.elim_some, if_pos (isIn_of_listed hp hat hlen (List.mem_of_getElem? he))]


/-- What a query hears of a broken pattern, it hears of the chords that play at the moment. -/
theorem act_arpeggiate_playing (hp : Seamless p) (hat : isIn a t) :
    act (arpeggiate p) m a t =
      ∑ w ∈ ((behaviour p m t).map Prod.fst).toFinset, act (arpeggiate (chord w p)) m a t := by
  have hnow : act p m a t = behaviour p m t := hp.steady a ⟨t, t + 1⟩ m t hat ⟨le_rfl, lt_add_one t⟩
  rw [act_arpeggiate]
  symm
  refine Finset.sum_subset ?_ ?_
  · intro w hw
    obtain ⟨x, hx, rfl⟩ := Multiset.mem_map.mp (Multiset.mem_toFinset.mp hw)
    rw [← hnow] at hx
    obtain ⟨e, he, _, rfl⟩ := mem_activeIn.mp hx
    exact List.mem_toFinset.mpr (List.mem_map.mpr ⟨e, he, rfl⟩)
  · intro w _ hw
    rw [act_chord]
    refine activeIn_spreadOut_eq_zero fun e he hin => hw ?_
    obtain ⟨he, hew⟩ := List.mem_filter.mp he
    have hmem : (e.whole, e.value) ∈ behaviour p m t := by
      rw [← hnow]
      exact mem_activeIn.mpr ⟨e, he, hin, rfl⟩
    exact Multiset.mem_toFinset.mpr (Multiset.mem_map.mpr ⟨_, hmem, by simpa using hew⟩)

/-- A broken pattern is heard chord by chord. All queries hear the same at a moment, and of each chord that
plays there the note of the moment if its whole is cut into as many notes as the chord has, exactly if every
query lists each event of these chords once, and with the same value on the step of the moment. -/
theorem arpeggiate_slicing_iff (p : Pattern Γ α) (hp : Seamless p) (m : Γ) (t : Time) :
    (∀ a, act (arpeggiate p) m a t =
      ∑ w ∈ ((p.query ⟨a, m⟩).map EventF.whole).toFinset, act (arpeggiate (chord w p)) m a t) ∧
    (((∀ a b, isIn a t → isIn b t → act (arpeggiate p) m a t = act (arpeggiate p) m b t) ∧
      ∀ w, 0 < voices p m t w → ∃ v, ∀ a, isIn a t → act (arpeggiate (chord (some w) p)) m a t =
        {(some (cell w (voices p m t w) (beat w (voices p m t w) t)), v)}) ↔
      ∀ w, 0 < voices p m t w → ∃ v, ∀ a, isIn a t →
        (listed p m a w).length = voices p m t w ∧
        ((listed p m a w)[beat w (voices p m t w) t]?).map EventF.value = some v) := by
  refine ⟨fun a => act_arpeggiate p m a t, ⟨fun ⟨_, h⟩ w hw => ?_, fun h => ⟨fun a b ha hb => ?_, fun w hw => ?_⟩⟩⟩
  · obtain ⟨v, hv⟩ := h w hw
    exact ⟨v, fun a ha => (act_chord_iff hp ha hw v).mp (hv a ha)⟩
  · rw [act_arpeggiate_playing hp ha, act_arpeggiate_playing hp hb]
    refine Finset.sum_congr rfl fun w hw => ?_
    obtain ⟨x, hx, rfl⟩ := Multiset.mem_map.mp (Multiset.mem_toFinset.mp hw)
    obtain ⟨w, hxw, _⟩ := hp.whole_isIn hx
    have hvoices : 0 < voices p m t w := voices_pos (v := x.2) (hxw ▸ hx)
    obtain ⟨v, hv⟩ := h w hvoices
    rw [hxw, (act_chord_iff hp ha hvoices v).mpr (hv a ha), (act_chord_iff hp hb hvoices v).mpr (hv b hb)]
  · obtain ⟨v, hv⟩ := h w hw
    exact ⟨v, fun a ha => (act_chord_iff hp ha hw v).mpr (hv a ha)⟩

/-- An event of two cycles, answered cycle by cycle. -/
def cutNote : Pattern Unit ℕ := splitQueries (_slow 2 (Pattern.pure 0))

theorem seamless_cutNote : Seamless cutNote := by
  have hslow : Regular (_slow 2 (Pattern.pure 0) : Pattern Unit ℕ) := by
    rw [_slow, if_neg (by decide)]
    exact regular_fast _ (regular_pure 0)
  obtain ⟨hw, hs⟩ := regular_iff.mp hslow
  exact (regular_iff.mpr ⟨wellFormed_splitQueries hw, steady_splitQueries hw hs⟩).seamless

theorem arpeggiate_slicing_iff_cutNote :
    (∀ a, act (arpeggiate cutNote) () a (1 / 2) =
      ∑ w ∈ ((cutNote.query ⟨a, ()⟩).map EventF.whole).toFinset,
        act (arpeggiate (chord w cutNote)) () a (1 / 2)) ∧
    (((∀ a b, isIn a (1 / 2) → isIn b (1 / 2) →
        act (arpeggiate cutNote) () a (1 / 2) = act (arpeggiate cutNote) () b (1 / 2)) ∧
      ∀ w, 0 < voices cutNote () (1 / 2) w → ∃ v, ∀ a, isIn a (1 / 2) →
        act (arpeggiate (chord (some w) cutNote)) () a (1 / 2) =
          {(some (cell w (voices cutNote () (1 / 2) w) (beat w (voices cutNote () (1 / 2) w) (1 / 2))), v)}) ↔
      ∀ w, 0 < voices cutNote () (1 / 2) w → ∃ v, ∀ a, isIn a (1 / 2) →
        (listed cutNote () a w).length = voices cutNote () (1 / 2) w ∧
        ((listed cutNote () a w)[beat w (voices cutNote () (1 / 2) w) (1 / 2)]?).map EventF.value = some v) :=
  arpeggiate_slicing_iff cutNote seamless_cutNote () (1 / 2)

/-- A query of both cycles of the event makes two notes of it, a query of the first cycle makes one. -/
theorem arpeggiate_cutNote_doubled :
    Seamless cutNote ∧ voices cutNote () (1 / 2) ⟨0, 2⟩ = 1 ∧
    act (arpeggiate cutNote) () ⟨0, 2⟩ (1 / 2) = {(some ⟨0, 1⟩, 0)} ∧
    act (arpeggiate cutNote) () ⟨0, 1⟩ (1 / 2) = {(some ⟨0, 2⟩, 0)} :=
  ⟨seamless_cutNote, by with_unfolding_all decide, by with_unfolding_all decide, by with_unfolding_all decide⟩

end Tidal
