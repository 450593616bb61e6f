import Tidal.Proofs.ActiveProofs

/-!
# Proofs: the behaviour of each combinator

One equation for each combinator: what it plays at `t`, in terms of what its arguments play. Arguments
that are queried again over other arcs (the wholes and parts of outer events) have to be coherent.
-/

namespace Tidal

open EventF Pattern

variable {Γ α β : Type} {m : Γ} {a : Arc} {t : Time}

/-! ## Sources -/

theorem pure_query_cycle (v : α) (k : ℤ) :
    (Pattern.pure v : Pattern Γ α).query ⟨⟨k, k + 1⟩, m⟩ = [⟨⟨[]⟩, some ⟨k, k + 1⟩, ⟨k, k + 1⟩, v⟩] := by
  have hcycles : cyclesInArc ⟨(k : Time), k + 1⟩ = [k] := by
    have hceil : ⌈(k : Time) + 1⌉ = k + 1 := by rw [← Int.cast_one, ← Int.cast_add, Int.ceil_intCast]
    simp [cyclesInArc, hceil]
  simp [Pattern.pure, cycleArcsInArc, hcycles, timeToCycleArc, sam_intCast, sect]

theorem act_pure (v : α) (hat : isIn a t) :
    act (Pattern.pure v) m a t = {(some (timeToCycleArc t), v)} := by
  have hc : ∀ c : ℤ, isIn (sect a (timeToCycleArc (c : Time))) t ↔ c = ⌊t⌋ := by
    intro c
    rw [isIn_sect, isIn_timeToCycleArc_iff]; exact ⟨fun h => h.2.symm, fun h => ⟨hat, h.symm⟩⟩
  have hone : (cyclesInArc a).filter (fun c => c = ⌊t⌋) = [⌊t⌋] := by
    rw [List.filter_eq, List.count_eq_one_of_mem (cyclesInArc_nodup a) (floor_mem_cyclesInArc hat)]
    rfl
  have hcyc : timeToCycleArc ((⌊t⌋ : ℤ) : Time) = timeToCycleArc t := by
    simp [timeToCycleArc, sam]
  simp only [act, activeIn, Pattern.pure, cycleArcsInArc, List.map_map, List.filter_map]
  rw [show ((fun e : Event α => decide (isIn e.part t)) ∘ (fun a' => (⟨⟨[]⟩, some a', sect a a', v⟩ : Event α)) ∘
      fun c : ℤ => timeToCycleArc (c : Time)) = fun c => decide (c = ⌊t⌋) from
    funext fun c => by simp only [Function.comp, hc], hone]
  simp [hcyc]

@[simp] theorem act_silence : act (silence : Pattern Γ α) m a t = 0 := rfl

theorem act_overlay (p p' : Pattern Γ α) : act (overlay p p') m a t = act p m a t + act p' m a t :=
  activeIn_append _ _ t

theorem stack_query (ps : List (Pattern Γ α)) (st : State Γ) :
    (stack ps).query st = ps.flatMap fun p => p.query st := by
  show (ps.foldr overlay silence).query st = _
  induction ps with
  | nil => rfl
  | cons p ps ih => rw [List.foldr_cons, List.flatMap_cons, ← ih]; rfl

theorem act_stack (ps : List (Pattern Γ α)) :
    act (stack ps) m a t = (ps.map fun p => act p m a t).sum := by
  have h : ∀ ps : List (Pattern Γ α), act (ps.foldr overlay silence) m a t =
      (ps.map fun p => act p m a t).sum := by
    intro ps
    induction ps with
    | nil => rfl
    | cons p ps ih => rw [List.foldr_cons, act_overlay, ih, List.map_cons, List.sum_cons]
  exact h ps

/-! ## Values -/

theorem act_fmap (f : α → β) (p : Pattern Γ α) :
    act (fmap f p) m a t = (act p m a t).map fun x => (x.1, f x.2) :=
  activeIn_map_value f _ t

theorem act_filterValues (f : α → Bool) (p : Pattern Γ α) :
    act (filterValues f p) m a t = (act p m a t).filter fun x => f x.2 :=
  activeIn_filter _ (fun x => f x.2) fun _ _ _ => rfl

/-- What a test on times says about a pair, whose whole has to be known. -/
def onsetTest (test : Time → Bool) (x : Option Arc × α) : Bool := x.1.elim false fun w => test w.start

theorem act_filterWhen (test : Time → Bool) {p : Pattern Γ α} (hd : ∀ e ∈ p.query ⟨a, m⟩, e.isDigital) :
    act (filterWhen test p) m a t = (act p m a t).filter fun x => onsetTest test x := by
  refine activeIn_filter _ (onsetTest test) fun e he _ => ?_
  obtain ⟨w, hw⟩ := isDigital_iff.mp (hd e he)
  simp [wholeStart, wholeOrPart, onsetTest, hw]

/-! ## Time -/

theorem act_rotL (s : Time) (p : Pattern Γ α) :
    act (rotL s p) m a t = (act p m (a.map (· + s)) (t + s)).map (onWhole (ArcF.map (· - s))) := by
  refine activeIn_mapArc fun e _ => ?_
  simp only [isIn, ArcF.map]
  constructor <;> rintro ⟨h1, h2⟩ <;> constructor <;> linarith

theorem fast_of_pos {r : Time} (hr : 0 < r) (p : Pattern Γ α) : _fast r p = _fastForward r p := by
  rw [_fast, if_neg hr.ne', if_neg (not_lt.mpr hr.le)]

theorem act_fastForward {r : Time} (hr : 0 < r) (p : Pattern Γ α) :
    act (_fastForward r p) m a t =
      (act p m (a.map (· * r)) (t * r)).map (onWhole (ArcF.map (· / r))) := by
  refine activeIn_mapArc fun e _ => ?_
  simp only [isIn, ArcF.map, div_le_iff₀ hr, lt_div_iff₀ hr]

theorem isIn_map_add {s : Time} (hat : isIn a t) : isIn (a.map (· + s)) (t + s) :=
  ⟨by simpa [ArcF.map] using hat.1, by simpa [ArcF.map] using hat.2⟩

theorem isIn_map_mul {r : Time} (hr : 0 < r) (hat : isIn a t) : isIn (a.map (· * r)) (t * r) :=
  ⟨mul_le_mul_of_nonneg_right hat.1 hr.le, mul_lt_mul_of_pos_right hat.2 hr⟩

/-- Patterns that answer a query cycle by cycle: at `t` the piece in the cycle of `t` answers. -/
theorem act_cycles {g : State Γ → List (Event α)} (hat : isIn a t)
    (hg : ∀ b, b.start < b.stop → b.stop ≤ nextSam b.start → ¬ isIn b t →
      activeIn (g ⟨b, m⟩) t = 0) :
    activeIn ((arcCyclesZW a).flatMap fun b => g ⟨b, m⟩) t =
      activeIn (g ⟨sect a (timeToCycleArc t), m⟩) t :=
  activeIn_arcCyclesZW (g := fun b => g ⟨b, m⟩) hat fun b hb hbt =>
    hg b ((piece_of_mem hb).pos (isIn_pos hat)) (piece_of_mem hb).stop_le_nextSam hbt

theorem act_splitQueries {p : Pattern Γ α} (hp : Local p) (hat : isIn a t) :
    act (splitQueries p) m a t = act p m (sect a (timeToCycleArc t)) t :=
  act_cycles hat fun b hb _ => hp b m t hb

theorem floor_piece_start (hat : isIn a t) : ⌊(sect a (timeToCycleArc t)).start⌋ = ⌊t⌋ := by
  have h := (isIn_piece hat).1
  refine Int.floor_eq_iff.mpr ⟨?_, h.trans_lt (Int.lt_floor_add_one t)⟩
  exact le_max_right a.start (sam t)

theorem sam_piece_start (hat : isIn a t) : sam (sect a (timeToCycleArc t)).start = sam t := by
  rw [sam, floor_piece_start hat, sam]

theorem piece_stop_le (hat : isIn a t) :
    (sect a (timeToCycleArc t)).stop ≤ nextSam (sect a (timeToCycleArc t)).start := by
  rw [nextSam, sam_piece_start hat, add_comm]
  exact min_le_right _ _

theorem act_when {test : ℤ → Bool} {f : Pattern Γ α → Pattern Γ α} {p : Pattern Γ α} (hp : Local p)
    (hf : Local (f p)) (hat : isIn a t) :
    act (when test f p) m a t =
      if test ⌊t⌋ then act (f p) m (sect a (timeToCycleArc t)) t
      else act p m (sect a (timeToCycleArc t)) t := by
  have h : act (when test f p) m a t = activeIn (whenCycle test f p ⟨sect a (timeToCycleArc t), m⟩) t :=
    act_cycles (g := whenCycle test f p) hat fun b hb _ hbt => by
      unfold whenCycle
      split
      · exact hf b m t hb hbt
      · exact hp b m t hb hbt
  rw [h, whenCycle]
  simp only [floor_piece_start hat]
  split <;> rfl

/-! ## Mirrored cycles -/

/-- What `p` plays just before `u`, as seen by a query over `a`. -/
def actLeft (p : Pattern Γ α) (m : Γ) (a : Arc) (u : Time) : Multiset (Option Arc × α) :=
  HalfOpen.sampleLeft (fun e => e.part.start) (fun e => e.part.stop) (fun e => (e.whole, e.value))
    (p.query ⟨a, m⟩) u

/-- What a steady pattern plays just before a moment does not depend on the query either. -/
theorem Steady.actLeft_eq {p : Pattern Γ α} (hp : Steady p) {a b : Arc} {u : Time}
    (ha : a.start < u ∧ u ≤ a.stop) (hb : b.start < u ∧ u ≤ b.stop) :
    actLeft p m a u = actLeft p m b u :=
  HalfOpen.sampleLeft_congr (max_lt ha.1 hb.1) fun t ht htu =>
    hp a b m t ⟨((le_max_left _ _).trans_lt ht).le, htu.trans_le ha.2⟩
      ⟨((le_max_right _ _).trans_lt ht).le, htu.trans_le hb.2⟩

/-- Just before a moment is at some moment before it. -/
theorem exists_actLeft_eq (p : Pattern Γ α) (m : Γ) (a : Arc) {c u : Time} (hcu : c < u) :
    ∃ t, c < t ∧ t < u ∧ actLeft p m a u = act p m a t := by
  obtain ⟨b, hcb, hbu, hb⟩ := HalfOpen.exists_sampleLeft_eq (fun e : Event α => e.part.start)
    (fun e => e.part.stop) (fun e => (e.whole, e.value)) (p.query ⟨a, m⟩) hcu
  obtain ⟨t, hbt, htu⟩ := exists_between hbu
  exact ⟨t, hcb.trans_lt hbt, htu, hb t hbt htu⟩

theorem Local.actLeft_eq_zero {p : Pattern Γ α} (hp : Local p) (ha : a.start < a.stop) {u : Time}
    (hu : ¬ (a.start < u ∧ u ≤ a.stop)) : actLeft p m a u = 0 := by
  rcases lt_or_ge a.start u with hau | hua
  · have hsu : a.stop < u := not_le.mp fun h => hu ⟨hau, h⟩
    obtain ⟨t, hst, _, heq⟩ := exists_actLeft_eq p m a hsu
    rw [heq]
    exact hp a m t ha fun h => absurd h.2 (not_lt.mpr hst.le)
  · obtain ⟨t, _, htu, heq⟩ := exists_actLeft_eq p m a (sub_one_lt u)
    rw [heq]
    exact hp a m t ha fun h => absurd (htu.trans_le hua) (not_lt.mpr h.1)

/-- Measuring the whole relative to the part, mirroring the part and measuring back mirrors both. -/
theorem revCycle_eq (p : Pattern Γ α) (st : State Γ) :
    revCycle p st = (p.query { st with arc := mirrorArc (midCycle st.arc) st.arc }).map
      (mapArc (mirrorArc (midCycle st.arc))) := by
  simp only [revCycle, mapParts, List.map_map]
  refine List.map_congr_left fun e _ => ?_
  obtain ⟨c, w, ⟨s', e'⟩, v⟩ := e
  cases w with
  | none => rfl
  | some w =>
    simp only [Function.comp, makeWholeRelative, makeWholeAbsolute, mapArc, mirrorArc, Option.map_some]
    congr 3 <;> ring

theorem isIn_mirrorArc {mid : Time} {b : Arc} :
    isIn (mirrorArc mid b) t ↔ b.start < 2 * mid - t ∧ 2 * mid - t ≤ b.stop := by
  simp only [isIn, mirrorArc]
  constructor <;> rintro ⟨h1, h2⟩ <;> constructor <;> linarith

theorem activeIn_revCycle (p : Pattern Γ α) (b : Arc) :
    activeIn (revCycle p ⟨b, m⟩) t =
      (actLeft p m (mirrorArc (midCycle b) b) (2 * midCycle b - t)).map
        (onWhole (mirrorArc (midCycle b))) := by
  rw [revCycle_eq]
  exact HalfOpen.pick_map (fun _ _ => isIn_mirrorArc) fun _ _ _ => rfl

theorem within_mirrorArc (mid : Time) {b c : Arc} (h : Within b c) :
    Within (mirrorArc mid b) (mirrorArc mid c) := by
  obtain ⟨h1, h2, h3⟩ := h
  simp only [Within, mirrorArc]
  exact ⟨by linarith, by linarith, by linarith⟩

theorem mirrorArc_mirrorArc (mid : Time) (b : Arc) : mirrorArc mid (mirrorArc mid b) = b := by
  cases b; simp only [mirrorArc]; congr 1 <;> ring

theorem mirrorArc_le {mid : Time} {b : Arc} (h : b.start ≤ b.stop) :
    (mirrorArc mid b).start ≤ (mirrorArc mid b).stop := by
  simp only [mirrorArc]; linarith

theorem activeIn_revCycle_eq_zero {p : Pattern Γ α} (hp : Local p) {b : Arc} (hb : b.start < b.stop)
    (ht : ¬ isIn b t) : activeIn (revCycle p ⟨b, m⟩) t = 0 := by
  have hlt : (mirrorArc (midCycle b) b).start < (mirrorArc (midCycle b) b).stop := by
    simp only [mirrorArc]; linarith
  rw [activeIn_revCycle, hp.actLeft_eq_zero hlt, Multiset.map_zero]
  rw [← isIn_mirrorArc, mirrorArc_mirrorArc]
  exact ht

theorem act_rev {p : Pattern Γ α} (hp : Local p) (hat : isIn a t) :
    act (rev p) m a t =
      (actLeft p m (mirrorArc (sam t + 1 / 2) (sect a (timeToCycleArc t)))
        (2 * (sam t + 1 / 2) - t)).map (onWhole (mirrorArc (sam t + 1 / 2))) := by
  have h : act (rev p) m a t = activeIn (revCycle p ⟨sect a (timeToCycleArc t), m⟩) t :=
    act_cycles hat fun b hb _ hbt => activeIn_revCycle_eq_zero hp hb hbt
  rw [h, activeIn_revCycle, midCycle, sam_piece_start hat]

/-! ## Cycles in turn -/

theorem isIn_map_sub {s : Time} : isIn (a.map (· - s)) (t - s) ↔ isIn a t := by
  simp [isIn, ArcF.map]

/-- The pattern that `cat` plays in a cycle, and how many cycles later it plays it. -/
def catIndex (ps : List (Pattern Γ α)) (c : ℤ) : ℕ := (c % (ps.length : ℤ)).toNat

def catOffset (ps : List (Pattern Γ α)) (c : ℤ) : Time :=
  ((c - (c - c % (ps.length : ℤ)) / (ps.length : ℤ) : ℤ) : Time)

theorem activeIn_catCycle (ps : List (Pattern Γ α)) (b : Arc) :
    activeIn (catCycle ps ⟨b, m⟩ b) t =
      (act (ps.getD (catIndex ps ⌊b.start⌋) silence) m (b.map (· - catOffset ps ⌊b.start⌋))
        (t - catOffset ps ⌊b.start⌋)).map (onWhole (ArcF.map (· + catOffset ps ⌊b.start⌋))) := by
  refine activeIn_mapArc fun e _ => ?_
  simp only [isIn, ArcF.map, catOffset]
  constructor <;> rintro ⟨h1, h2⟩ <;> constructor <;> linarith

/-- Out of range there is nothing to play. -/
theorem getD_silence {P : Pattern Γ α → Prop} {ps : List (Pattern Γ α)} (hps : ∀ p ∈ ps, P p)
    (hs : P silence) (i : ℕ) : P (ps.getD i silence) := by
  by_cases hi : i < ps.length
  · rw [List.getD_eq_getElem _ _ hi]; exact hps _ (List.getElem_mem hi)
  · rwa [List.getD_eq_default _ _ (not_lt.mp hi)]

theorem activeIn_catCycle_eq_zero {ps : List (Pattern Γ α)} (hps : ∀ p ∈ ps, Local p) {b : Arc}
    (hb : b.start < b.stop) (ht : ¬ isIn b t) : activeIn (catCycle ps ⟨b, m⟩ b) t = 0 := by
  have hl : Local (ps.getD (catIndex ps ⌊b.start⌋) silence) :=
    getD_silence hps (fun _ _ _ _ _ => act_silence) _
  rw [activeIn_catCycle, hl _ m _ (sub_lt_sub_right hb _) (mt isIn_map_sub.mp ht)]
  rfl

theorem act_cat {ps : List (Pattern Γ α)} (hlen : 2 ≤ ps.length) (hps : ∀ p ∈ ps, Local p)
    (hat : isIn a t) :
    act (cat ps) m a t =
      (act (ps.getD (catIndex ps ⌊t⌋) silence) m
        ((sect a (timeToCycleArc t)).map (· - catOffset ps ⌊t⌋)) (t - catOffset ps ⌊t⌋)).map
          (onWhole (ArcF.map (· + catOffset ps ⌊t⌋))) := by
  match ps, hlen with
  | p₁ :: p₂ :: ps, _ =>
    have h : act (cat (p₁ :: p₂ :: ps)) m a t = activeIn (catCycle (p₁ :: p₂ :: ps)
        ⟨sect a (timeToCycleArc t), m⟩ (sect a (timeToCycleArc t))) t :=
      act_cycles (g := fun st => catCycle (p₁ :: p₂ :: ps) st st.arc) hat
        fun b hb _ hbt => activeIn_catCycle_eq_zero hps hb hbt
    rw [h, activeIn_catCycle, floor_piece_start hat]

end Tidal
