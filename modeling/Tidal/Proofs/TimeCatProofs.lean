import Tidal.Proofs.CompressProofs

/-!
# Proofs: patterns laid end to end

`timeCat` stacks its patterns, each compressed into its slot of the cycle. At every position exactly one
slot has something to play, and there the compressed pattern plays its own cycle, moved by the map of the
slot.
-/

namespace Tidal

open EventF Pattern

variable {Γ α : Type} {p : Pattern Γ α} {m : Γ} {a b : Arc} {t : Time}

/-! ## One slot -/

theorem Cyclewise.sam_whole (hp : Cyclewise p) {u : Time} {y : Option Arc × α}
    (hy : y ∈ behaviour p m u) {w : Arc} (hw : y.1 = some w) : sam w.start = sam u := by
  obtain ⟨e, he, hu, rfl⟩ := mem_activeIn.mp hy
  have hin := hp.inWhole ⟨u, u + 1⟩ m (by simp) e he w hw
  obtain ⟨k, hk⟩ := hp.single ⟨u, u + 1⟩ m (by simp) e he w hw
  have hwu := hin.isIn hu
  have hku := hk.isIn hwu
  rw [sam_eq hku.1 hku.2, sam_eq hk.1 (hwu.1.trans_lt hku.2)]

/-- A pattern compressed into the slot from `s` to `s + w` of a cycle cut into `W`. -/
theorem act_slot (hp : Cyclewise p) {s w W : Time} (hs : 0 ≤ s) (hw : 0 < w) (hW : s + w ≤ W) {c : ℤ}
    {x : Time} (hx0 : 0 ≤ x) (hx1 : x < 1) (hat : isIn a (c + x)) :
    act (compressArc ⟨s / W, (s + w) / W⟩ p) m a (c + x) =
      if s ≤ x * W ∧ x * W < s + w then
        (behaviour p m (c + (x * W - s) / w)).map
          (onWhole (ArcF.map fun y => c + (s + (y - c) * w) / W)) else 0 := by
  have hW0 : 0 < W := by linarith
  have hlt : s / W < (s + w) / W := by rw [div_lt_div_iff_of_pos_right hW0]; linarith
  have hiff : s / W ≤ x ∧ x < (s + w) / W ↔ s ≤ x * W ∧ x * W < s + w := by
    rw [div_le_iff₀ hW0, lt_div_iff₀ hW0]
  obtain ⟨q, hq, hact⟩ := act_compressArc (m := m) hp.cutFree.isLocal (div_nonneg hs hW0.le) hlt
    (by rw [div_le_one hW0]; exact hW) hx0 hx1 hat
  rw [hact, if_congr hiff rfl rfl]
  split_ifs with hin
  · rw [hp.cutFree.steady.act_eq m (hq (hiff.mpr hin))]
    have hwidth : (s + w) / W - s / W = w / W := by ring
    have htime : (x - s / W) / (w / W) = (x * W - s) / w := by field_simp
    rw [hwidth, htime]
    refine Multiset.map_congr rfl fun y hy => ?_
    obtain ⟨_ | v, z⟩ := y
    · rfl
    · have hsam : sam v.start = c := by
        rw [hp.sam_whole hy rfl]
        refine sam_eq ?_ ?_
        · have : 0 ≤ (x * W - s) / w := div_nonneg (by linarith [hin.1]) hw.le
          linarith
        · have : (x * W - s) / w < 1 := by rw [div_lt_one hw]; linarith [hin.2]
          linarith
      simp only [onWhole, Option.map_some, gapArc, ArcF.map, hsam, one_div_div]
      congr 3 <;> field_simp <;> ring
  · rfl

/-! ## All slots -/

/-- Before its first slot, an arrangement has nothing. -/
theorem sum_arrange_eq_zero {G : Time → Time → Pattern Γ α → Multiset (Option Arc × α)} {y : Time}
    (l : List (Time × Pattern Γ α)) (hl : ∀ x ∈ l, 0 ≤ x.1) (T : Time) (hy : y < T) :
    ((Pattern.arrange T l).map fun z => if z.1 ≤ y ∧ y < z.2.1 then G z.1 z.2.1 z.2.2 else 0).sum = 0 := by
  induction l generalizing T with
  | nil => rfl
  | cons x l ih =>
    have hx := hl x (List.mem_cons_self ..)
    simp only [Pattern.arrange, List.map_cons, List.sum_cons]
    rw [if_neg fun h => absurd h.1 (not_le.mpr hy), zero_add]
    exact ih (fun z hz => hl z (List.mem_cons_of_mem _ hz)) (T + x.1) (by linarith)

/-- Of an arrangement, only the slot that holds the position counts. -/
theorem sum_arrange {G : Time → Time → Pattern Γ α → Multiset (Option Arc × α)} {y : Time}
    (l : List (Time × Pattern Γ α)) (hl : ∀ x ∈ l, 0 ≤ x.1) (T : Time) (i : ℕ) (hi : i < l.length)
    (hslot : Slots.InSlot (l.map Prod.fst) (y - T) i) :
    ((Pattern.arrange T (l.filter fun x => x.1 > 0)).map fun z =>
        if z.1 ≤ y ∧ y < z.2.1 then G z.1 z.2.1 z.2.2 else 0).sum =
      G (T + Slots.before (l.map Prod.fst) i) (T + Slots.before (l.map Prod.fst) (i + 1)) l[i].2 := by
  induction l generalizing T i with
  | nil => cases hi
  | cons x l ih =>
    obtain ⟨hpos, h1, h2⟩ := hslot
    have hl' : ∀ z ∈ l, 0 ≤ z.1 := fun z hz => hl z (List.mem_cons_of_mem _ hz)
    have hws : ∀ w ∈ l.map Prod.fst, 0 ≤ w := by
      intro w hw
      obtain ⟨z, hz, rfl⟩ := List.mem_map.mp hw
      exact hl' z hz
    cases i with
    | zero =>
      simp only [List.map_cons, Slots.before_zero, zero_add, Slots.before_cons, add_zero,
        List.getD_cons_zero] at hpos h1 h2
      rw [List.filter_cons_of_pos (by simpa using hpos)]
      simp only [Pattern.arrange, List.map_cons, List.sum_cons]
      rw [if_pos ⟨by linarith, by linarith⟩, sum_arrange_eq_zero _
        (fun z hz => hl' z (List.mem_filter.mp hz).1) _ (by linarith)]
      simp
    | succ i =>
      simp only [List.map_cons, Slots.before_cons, List.getD_cons_succ] at hpos h1 h2
      have hi' : i < l.length := by simpa using hi
      have hnn := Slots.before_nonneg hws i
      have hslot' : Slots.InSlot (l.map Prod.fst) (y - (T + x.1)) i :=
        ⟨hpos, by linarith, by linarith⟩
      have hrest := ih hl' (T + x.1) i hi' hslot'
      simp only [List.map_cons, Slots.before_cons, List.getElem_cons_succ, ← add_assoc]
      by_cases hx : x.1 > 0
      · rw [List.filter_cons_of_pos (by simpa using hx)]
        simp only [Pattern.arrange, List.map_cons, List.sum_cons]
        rw [if_neg fun h => absurd h.2 (not_lt.mpr (by linarith)), zero_add]
        exact hrest
      · -- a weight of zero takes no room
        have hx0 : x.1 = 0 := le_antisymm (not_lt.mp hx) (hl x (List.mem_cons_self ..))
        rw [List.filter_cons_of_neg (by simpa using hx)]
        rw [hx0, add_zero] at hrest ⊢
        exact hrest

theorem mem_arrange {l : List (Time × Pattern Γ α)} (hl : ∀ x ∈ l, 0 < x.1) {T : Time}
    {z : Time × Time × Pattern Γ α} (hz : z ∈ Pattern.arrange T l) :
    T ≤ z.1 ∧ z.1 < z.2.1 ∧ z.2.1 ≤ T + (l.map Prod.fst).sum ∧ ∃ x ∈ l, x.2 = z.2.2 := by
  induction l generalizing T with
  | nil => cases hz
  | cons x l ih =>
    have hx := hl x (List.mem_cons_self ..)
    have hl' : ∀ y ∈ l, 0 < y.1 := fun y hy => hl y (List.mem_cons_of_mem _ hy)
    have hsum : 0 ≤ (l.map Prod.fst).sum := List.sum_nonneg fun w hw => by
      obtain ⟨y, hy, rfl⟩ := List.mem_map.mp hw
      exact (hl' y hy).le
    rw [List.map_cons, List.sum_cons]
    rcases List.mem_cons.mp hz with rfl | hz
    · exact ⟨le_rfl, by simpa using hx, by simp only; linarith, x, List.mem_cons_self .., rfl⟩
    · obtain ⟨h1, h2, h3, y, hy, heq⟩ := ih hl' hz
      exact ⟨by linarith, h2, by linarith, y, List.mem_cons_of_mem _ hy, heq⟩

/-! ## Sequences -/

section TimeCat

variable {tps : List (Time × Pattern Γ α)}

theorem weights_nonneg (hw : ∀ x ∈ tps, 0 ≤ x.1) : ∀ w ∈ tps.map Prod.fst, 0 ≤ w := by
  intro w h
  obtain ⟨x, hx, rfl⟩ := List.mem_map.mp h
  exact hw x hx

theorem slotTime_singleton {w : Time} (hw : 0 < w) (c x : Time) : slotTime [w] c x 0 = c + x := by
  simp only [slotTime, List.sum_cons, List.sum_nil, add_zero, Slots.before_zero, sub_zero,
    List.getD_cons_zero]
  rw [mul_div_cancel_right₀ _ hw.ne']

theorem intoSlot_singleton {w : Time} (hw : 0 < w) (c : Time) : intoSlot [w] c 0 = id := by
  funext y
  simp only [intoSlot, List.sum_cons, List.sum_nil, add_zero, Slots.before_zero, zero_add,
    List.getD_cons_zero, id]
  rw [mul_div_cancel_right₀ _ hw.ne']
  ring

theorem onWhole_map_id : (onWhole (ArcF.map id) : Option Arc × α → Option Arc × α) = id := by
  funext ⟨w, v⟩
  cases w <;> rfl

/-- A slot plays the cycle that it is in. -/
theorem sam_slotTime {ws : List Time} {c : ℤ} {x : Time} {i : ℕ}
    (hslot : Slots.InSlot ws (x * ws.sum) i) : sam (slotTime ws c x i) = c := by
  obtain ⟨hpos, h1, h2⟩ := hslot
  rw [Slots.before_succ] at h2
  have h0 : 0 ≤ (x * ws.sum - Slots.before ws i) / ws.getD i 0 := div_nonneg (by linarith) hpos.le
  have hlt : (x * ws.sum - Slots.before ws i) / ws.getD i 0 < 1 := by
    rw [div_lt_one hpos]; linarith
  exact sam_eq (le_add_of_nonneg_right h0) (by rw [slotTime]; linarith)

theorem intoSlot_start (ws : List Time) (c : Time) (i : ℕ) :
    intoSlot ws c i c = c + Slots.before ws i / ws.sum := by
  rw [intoSlot, sub_self, zero_mul, add_zero]

theorem intoSlot_stop (ws : List Time) (c : Time) (i : ℕ) :
    intoSlot ws c i (c + 1) = c + Slots.before ws (i + 1) / ws.sum := by
  rw [intoSlot, add_sub_cancel_left, one_mul, Slots.before_succ]

/-- At a position of the cycle, `timeCat` plays the pattern of the slot that holds the position. -/
theorem act_timeCat (hw : ∀ x ∈ tps, 0 ≤ x.1) (hW : 0 < (tps.map Prod.fst).sum)
    (hp : ∀ x ∈ tps, Cyclewise x.2) {c : ℤ} {x : Time} (hx0 : 0 ≤ x) (hx1 : x < 1)
    (hat : isIn a (c + x)) {i : ℕ} (hi : i < tps.length)
    (hslot : Slots.InSlot (tps.map Prod.fst) (x * (tps.map Prod.fst).sum) i) :
    act (timeCat tps) m a (c + x) =
      (behaviour tps[i].2 m (slotTime (tps.map Prod.fst) c x i)).map
        (onWhole (ArcF.map (intoSlot (tps.map Prod.fst) c i))) := by
  match tps, hw, hW, hp, hi, hslot with
  | [(w, p)], _, hW, hp, hi, _ =>
    -- a single pattern is played as it is
    have hi0 : i = 0 := by simpa using hi
    subst hi0
    have hw0 : 0 < w := by simpa using hW
    show _ = (behaviour p m (slotTime [w] c x 0)).map (onWhole (ArcF.map (intoSlot [w] c 0)))
    rw [slotTime_singleton hw0, intoSlot_singleton hw0, onWhole_map_id, Multiset.map_id]
    have hc := (hp _ (List.mem_singleton_self _)).cutFree
    exact hc.steady.act_eq m hat
  | y :: z :: l, hw, hW, hp, hi, hslot =>
    set tps := y :: z :: l with htps
    set W := (tps.map Prod.fst).sum with hWdef
    set G : Time → Time → Pattern Γ α → Multiset (Option Arc × α) := fun s e q =>
      (behaviour q m (c + (x * W - s) / (e - s))).map
        (onWhole (ArcF.map fun y => c + (s + (y - c) * (e - s)) / W)) with hG
    have hstack : act (timeCat tps) m a (c + x) = (((Pattern.arrange 0 (tps.filter fun x => x.1 > 0)).map
        fun z => act (compressArc ⟨z.1 / W, z.2.1 / W⟩ z.2.2) m a (c + x))).sum := by
      have h := act_stack (m := m) (a := a) (t := c + x)
        ((Pattern.arrange 0 (tps.filter fun x => x.1 > 0)).map fun z =>
          compressArc ⟨z.1 / W, z.2.1 / W⟩ z.2.2)
      rw [List.map_map] at h
      exact h
    have hslots : ∀ z ∈ Pattern.arrange 0 (tps.filter fun x => x.1 > 0),
        act (compressArc ⟨z.1 / W, z.2.1 / W⟩ z.2.2) m a (c + x) =
          if z.1 ≤ x * W ∧ x * W < z.2.1 then G z.1 z.2.1 z.2.2 else 0 := by
      intro z hz
      obtain ⟨h1, h2, h3, v, hv, heq⟩ := mem_arrange
        (fun v hv => by simpa using (List.mem_filter.mp hv).2) hz
      have hle : ((tps.filter fun x => x.1 > 0).map Prod.fst).sum ≤ W :=
        List.Sublist.sum_le_sum ((List.filter_sublist).map _) (weights_nonneg hw)
      have hq : Cyclewise z.2.2 := heq ▸ hp v (List.mem_filter.mp hv).1
      have h := act_slot (m := m) (a := a) (s := z.1) (w := z.2.1 - z.1) (W := W) hq h1
        (sub_pos.mpr h2) (by linarith) hx0 hx1 hat
      rwa [add_sub_cancel] at h
    rw [hstack, List.map_congr_left hslots]
    have hsum := sum_arrange (G := G) tps hw 0 i hi (by rwa [sub_zero])
    rw [hsum]
    simp only [zero_add, hG, Slots.before_succ, add_sub_cancel_left]
    rfl

/-- With two patterns or more, `fastCat` speeds up `cat`; the tactus has no part in it. -/
theorem act_fastCat {ps : List (Pattern Γ α)} (hlen : 2 ≤ ps.length) :
    act (fastCat ps) m b t = (act (cat ps) m (b.map (· * (ps.length : Time))) (t * ps.length)).map
      (onWhole (ArcF.map (· / (ps.length : Time)))) := by
  have hn : (0 : Time) < ps.length := by exact_mod_cast (by omega : 0 < ps.length)
  rw [← act_fastForward hn, ← fast_of_pos hn]
  match ps, hlen with
  | p₁ :: p₂ :: ps, _ =>
    simp only [fastCat]
    split <;> rfl

/-! Slots of equal weight are the cycles of `cat`, sped up: of `n` cycles that `cat` plays in the time of
one, the one that holds `t * n` is the slot that holds `t`. -/

section EqualWeights

variable {n : ℕ} {w : Time}

theorem floor_mul_div (hn : n ≠ 0) (t : Time) : ⌊t * n⌋ / (n : ℤ) = ⌊t⌋ := by
  have hn' : (n : Time) ≠ 0 := by exact_mod_cast hn
  rw [← Int.floor_div_natCast, mul_div_cancel_right₀ _ hn']

/-- The slot that holds `t`, counted from the start of the cycle. -/
def slotOf (n : ℕ) (t : Time) : ℕ := (⌊t * n⌋ % (n : ℤ)).toNat

theorem slotOf_lt (hn : n ≠ 0) (t : Time) : slotOf n t < n := by
  have h0 : 0 ≤ ⌊t * n⌋ % (n : ℤ) := Int.emod_nonneg _ (by omega)
  have h1 : ⌊t * n⌋ % (n : ℤ) < n := Int.emod_lt_of_pos _ (by omega)
  unfold slotOf
  omega

theorem slotOf_cast (hn : n ≠ 0) (t : Time) :
    (slotOf n t : Time) = (⌊t * n⌋ : Time) - n * (⌊t⌋ : Time) := by
  have h0 : 0 ≤ ⌊t * n⌋ % (n : ℤ) := Int.emod_nonneg _ (by omega)
  have h : ((slotOf n t : ℕ) : ℤ) = ⌊t * n⌋ - n * ⌊t⌋ := by
    rw [slotOf, Int.toNat_of_nonneg h0, Int.emod_def, floor_mul_div hn]
  exact_mod_cast h

theorem position_eq (n : ℕ) (w t : Time) :
    Int.fract t * (List.replicate n w).sum = (t * n - n * (⌊t⌋ : Time)) * w := by
  rw [List.sum_replicate, nsmul_eq_mul, Int.fract]; ring

theorem getD_slotOf (hn : n ≠ 0) (t : Time) : (List.replicate n w).getD (slotOf n t) 0 = w := by
  rw [List.getD_eq_getElem _ _ (by simpa using slotOf_lt hn t), List.getElem_replicate]

theorem before_slotOf (hn : n ≠ 0) (t : Time) :
    Slots.before (List.replicate n w) (slotOf n t) = slotOf n t * w := by
  rw [Slots.before_replicate w _ (slotOf_lt hn t).le, nsmul_eq_mul]

theorem inSlot_slotOf (hn : n ≠ 0) (hw : 0 < w) (t : Time) :
    Slots.InSlot (List.replicate n w) (Int.fract t * (List.replicate n w).sum) (slotOf n t) := by
  have h1 := Int.floor_le (t * n)
  have h2 := Int.lt_floor_add_one (t * n)
  refine ⟨by rw [getD_slotOf hn]; exact hw, ?_, ?_⟩
  · rw [before_slotOf hn, position_eq]
    exact mul_le_mul_of_nonneg_right (by rw [slotOf_cast hn]; linarith) hw.le
  · rw [Slots.before_succ, before_slotOf hn, getD_slotOf hn, position_eq, ← add_one_mul]
    exact mul_lt_mul_of_pos_right (by rw [slotOf_cast hn]; linarith) hw

/-- How many cycles later `cat` plays the cycle that is heard at `t`. -/
theorem catOffset_eq {ps : List (Pattern Γ α)} (hn : ps.length ≠ 0) (t : Time) :
    catOffset ps ⌊t * ps.length⌋ = (⌊t * ps.length⌋ : Time) - ⌊t⌋ := by
  have hnz : (ps.length : ℤ) ≠ 0 := by omega
  rw [catOffset, Int.emod_def, sub_sub_cancel, Int.mul_ediv_cancel_left _ hnz, floor_mul_div hn]
  push_cast; ring

theorem slotTime_eq (hn : n ≠ 0) (hw : 0 < w) (t : Time) :
    slotTime (List.replicate n w) ⌊t⌋ (Int.fract t) (slotOf n t) =
      t * n - ((⌊t * n⌋ : Time) - ⌊t⌋) := by
  rw [slotTime, position_eq, before_slotOf hn, getD_slotOf hn, slotOf_cast hn, ← sub_mul,
    mul_div_cancel_right₀ _ hw.ne']
  ring

theorem intoSlot_eq (hn : n ≠ 0) (hw : 0 < w) (t y : Time) :
    intoSlot (List.replicate n w) ⌊t⌋ (slotOf n t) y = (y + ((⌊t * n⌋ : Time) - ⌊t⌋)) / n := by
  have hn' : (n : Time) ≠ 0 := by exact_mod_cast hn
  rw [intoSlot, before_slotOf hn, getD_slotOf hn, List.sum_replicate, nsmul_eq_mul, slotOf_cast hn]
  field_simp
  ring

end EqualWeights

theorem timeCat_eq_fastCat (hW : 0 < (tps.map Prod.fst).sum) (hp : ∀ x ∈ tps, Cyclewise x.2) {w : Time}
    (hweq : ∀ x ∈ tps, x.1 = w) (ha : isIn a t) (hb : isIn b t) :
    act (timeCat tps) m a t = act (fastCat (tps.map Prod.snd)) m b t := by
  have hws : tps.map Prod.fst = List.replicate tps.length w := List.eq_replicate_iff.mpr
    ⟨List.length_map .., fun v hv => by obtain ⟨x, hx, rfl⟩ := List.mem_map.mp hv; exact hweq x hx⟩
  have hsum : (tps.map Prod.fst).sum = tps.length * w := by rw [hws]; simp
  have hn0 : tps.length ≠ 0 := fun h => by rw [hsum, h] at hW; simp at hW
  have hn : (0 : Time) < tps.length := by exact_mod_cast Nat.pos_of_ne_zero hn0
  have hw0 : 0 < w := by
    rw [hsum] at hW; exact (mul_pos_iff_of_pos_left hn).mp hW
  rcases Nat.lt_or_ge 1 tps.length with hlen | hlen
  · have hlen2 : 2 ≤ (tps.map Prod.snd).length := by rw [List.length_map]; exact hlen
    have hlocal : ∀ p ∈ tps.map Prod.snd, Local p := by
      intro p hpm
      obtain ⟨x, hx, rfl⟩ := List.mem_map.mp hpm
      exact (hp x hx).cutFree.isLocal
    have hi := slotOf_lt hn0 t
    have hfloor : ((⌊t⌋ : ℤ) : Time) + Int.fract t = t := Int.floor_add_fract t
    have hpick : (tps.map Prod.snd).getD (catIndex (tps.map Prod.snd) ⌊t * tps.length⌋) silence =
        tps[slotOf tps.length t].2 := by
      rw [catIndex, List.length_map, ← slotOf, List.getD_eq_getElem _ _ (by simpa using hi),
        List.getElem_map]
    have hmap0 : (tps.map Prod.snd).length ≠ 0 := by rw [List.length_map]; exact hn0
    have hoffset := catOffset_eq hmap0 t
    rw [List.length_map] at hoffset
    have hslot := act_timeCat (m := m) (a := a) (fun x hx => (hweq x hx).symm ▸ hw0.le) hW hp
      (Int.fract_nonneg t) (Int.fract_lt_one t) (by rw [hfloor]; exact ha) hi
      (by rw [hws]; exact inSlot_slotOf hn0 hw0 t)
    rw [hfloor, hws, slotTime_eq hn0 hw0] at hslot
    have hsteady := (hp _ (List.getElem_mem hi)).cutFree.steady
    rw [hslot, act_fastCat hlen2, List.length_map, act_cat hlen2 hlocal (isIn_map_mul hn hb), hpick,
      hoffset, Multiset.map_map, hsteady.act_eq m
        (isIn_map_sub.mpr (isIn_piece (isIn_map_mul hn hb)))]
    refine Multiset.map_congr rfl fun y _ => ?_
    obtain ⟨_ | v, z⟩ := y
    · rfl
    · simp [onWhole, ArcF.map, intoSlot_eq hn0 hw0]
  · -- a single pattern
    obtain ⟨⟨v, p⟩, rfl⟩ := List.length_eq_one_iff.mp (by omega : tps.length = 1)
    exact (hp _ (List.mem_singleton_self _)).cutFree.steady a b m t ha hb

/-- **`timeCat` lays its patterns end to end.** Every position of a cycle lies in exactly one slot; there
the pattern of the slot plays, at the time and with the wholes that the slot gives it. With equal
weights this is `fastCat`. -/
theorem timeCat_end_to_end (tps : List (Time × Pattern Γ α)) (hw : ∀ x ∈ tps, 0 ≤ x.1)
    (hW : 0 < (tps.map Prod.fst).sum) (hp : ∀ x ∈ tps, Cyclewise x.2) (m : Γ) :
    (∀ (c : ℤ) (x : Time), 0 ≤ x → x < 1 →
      (∃! i, Slots.InSlot (tps.map Prod.fst) (x * (tps.map Prod.fst).sum) i) ∧
      ∀ a, isIn a (c + x) → ∀ i, ∀ hi : i < tps.length,
        Slots.InSlot (tps.map Prod.fst) (x * (tps.map Prod.fst).sum) i →
          act (timeCat tps) m a (c + x) =
            (behaviour tps[i].2 m (slotTime (tps.map Prod.fst) c x i)).map
              (onWhole (ArcF.map (intoSlot (tps.map Prod.fst) c i)))) ∧
    (∀ w, (∀ x ∈ tps, x.1 = w) → ∀ a b t, isIn a t → isIn b t →
      act (timeCat tps) m a t = act (fastCat (tps.map Prod.snd)) m b t) := by
  constructor
  · intro c x hx0 hx1
    refine ⟨Slots.existsUnique_slot (weights_nonneg hw) (mul_nonneg hx0 hW.le) ?_,
      fun a hat i hi hslot => act_timeCat hw hW hp hx0 hx1 hat hi hslot⟩
    simpa using mul_lt_mul_of_pos_right hx1 hW
  · intro w hweq a b t ha hb
    exact timeCat_eq_fastCat hW hp hweq ha hb

end TimeCat

theorem cyclewise_pure (v : α) : Cyclewise (Pattern.pure v : Pattern Γ α) where
  digital := (regular_pure v).digital
  inWhole := (regular_pure v).inWhole
  single a m _ e he w hw := by
    simp only [Pattern.pure, cycleArcsInArc, List.map_map] at he
    obtain ⟨c, _, rfl⟩ := List.mem_map.mp he
    obtain rfl := Option.some.inj hw
    exact ⟨c, by simp [timeToCycleArc, sam_intCast], by simp [timeToCycleArc],
      by simp [timeToCycleArc, sam_intCast]⟩
  cutFree := (regular_pure v).seamless.cutFree

/-- Three quarters of the cycle and a quarter, as in the sequence `a@3 b`. -/
def threeToOne : List (Time × Pattern Unit ℕ) := [(3, Pattern.pure 0), (1, Pattern.pure 1)]

theorem timeCat_end_to_end_three :
    (∀ (c : ℤ) (x : Time), 0 ≤ x → x < 1 →
      (∃! i, Slots.InSlot (threeToOne.map Prod.fst) (x * (threeToOne.map Prod.fst).sum) i) ∧
      ∀ a, isIn a (c + x) → ∀ i, ∀ hi : i < threeToOne.length,
        Slots.InSlot (threeToOne.map Prod.fst) (x * (threeToOne.map Prod.fst).sum) i →
          act (timeCat threeToOne) () a (c + x) =
            (behaviour threeToOne[i].2 () (slotTime (threeToOne.map Prod.fst) c x i)).map
              (onWhole (ArcF.map (intoSlot (threeToOne.map Prod.fst) c i)))) ∧
    (∀ w, (∀ x ∈ threeToOne, x.1 = w) → ∀ a b t, isIn a t → isIn b t →
      act (timeCat threeToOne) () a t = act (fastCat (threeToOne.map Prod.snd)) () b t) :=
  timeCat_end_to_end threeToOne (by simp [threeToOne]) (by norm_num [threeToOne])
    (by simp [threeToOne, cyclewise_pure]) ()

end Tidal
