import Tidal.Meaning
import Tidal.Proofs.RegularProofs
import Tidal.Proofs.SewProofs
import Tidal.Proofs.ReverseProofs
import Tidal.Proofs.CyclesProofs
import Tidal.Proofs.RandomProofs

/-!
# Proofs: transformers mean what they play

For each transformer: it keeps answers strictly well-formed and independent of the cut, and what it plays
is the operation on behaviours that it means. What a program of transformers plays follows by induction on
the program.
-/

namespace Tidal

open EventF Pattern

variable {Γ α β ι : Type}

/-! ## Patterns and behaviours -/

/-- `p` answers strictly and independently of the cut, and what it plays is `S`. -/
structure Sounds (p : Pattern Γ α) (S : Γ → Behaviour α) : Prop where
  wellFormed : WellFormed True p
  steady : Steady p
  eq : ∀ m, behaviour p m = S m

namespace Sounds

variable {p q : Pattern Γ α} {S T : Γ → Behaviour α}

theorem strictlyRegular (h : Sounds p S) : StrictlyRegular p := ⟨h.wellFormed, h.steady⟩

theorem coherent (h : Sounds p S) : Coherent p := h.strictlyRegular.coherent

theorem isLocal (h : Sounds p S) : Local p := h.wellFormed.isLocal

/-- Every query that holds a moment sees there what is played. -/
theorem act_eq (h : Sounds p S) {a : Arc} (m : Γ) {t : Time} (hat : isIn a t) : act p m a t = S m t := by
  rw [h.steady.act_eq m hat, h.eq]

/-- What every query around a moment sees there is what is played. -/
theorem of_act (hw : WellFormed True p) (h : ∀ a m t, isIn a t → act p m a t = S m t) : Sounds p S where
  wellFormed := hw
  steady a b m t ha hb := by rw [h a m t ha, h b m t hb]
  eq m := funext fun t => h _ m t (isIn_now t)

/-- What else a pattern carries does not matter. -/
theorem of_query (h : Sounds p S) (hq : q.query = p.query) : Sounds q S := by
  obtain ⟨hw, hs, heq⟩ := h
  refine ⟨fun a m ha e he => hw a m ha e (hq ▸ he), fun a b m t ha hb => ?_, fun m => ?_⟩
  · rw [act, act, hq]
    exact hs a b m t ha hb
  · rw [← heq m]
    funext t
    rw [behaviour, act, hq]
    rfl

theorem congr (h : Sounds p S) (heq : S = T) : Sounds p T := heq ▸ h

end Sounds

/-- A strictly regular pattern plays what it plays: the way into the algebra of behaviours. -/
theorem StrictlyRegular.sounds {p : Pattern Γ α} (h : StrictlyRegular p) : Sounds p (behaviour p) :=
  ⟨h.1, h.2, fun _ => rfl⟩

theorem Sure.sounds (p : Sure Γ α) : Sounds p.pat (behaviour p.pat) :=
  StrictlyRegular.sounds ⟨p.wellFormed, p.steady⟩

section Basics

variable {p q : Pattern Γ α} {S T : Γ → Behaviour α}

/-- Silence plays nothing. -/
theorem sounds_silence : Sounds (silence : Pattern Γ α) 0 :=
  ⟨wellFormed_silence, steady_silence, fun _ => rfl⟩

theorem sounds_pure (v : α) : Sounds (Pattern.pure v : Pattern Γ α) fun _ => Behaviour.pure v :=
  .of_act (wellFormed_pure v) fun _ _ _ hat => act_pure v hat

/-- A stack plays the sum of what its layers play. -/
theorem sounds_stack {f : ι → Pattern Γ α} {F : ι → Γ → Behaviour α} {xs : List ι}
    (h : ∀ x ∈ xs, Sounds (f x) (F x)) :
    Sounds (stack (xs.map f)) fun m => (xs.map fun x => F x m).sum := by
  refine .of_act (wellFormed_stack (List.forall_mem_map.mpr fun x hx => (h x hx).wellFormed)) ?_
  intro a m t hat
  rw [act_stack, List.map_map]
  have hsum : ∀ l : List (Behaviour α), l.sum t = (l.map fun S => S t).sum := by
    intro l
    induction l with
    | nil => rfl
    | cons S l ih => rw [List.sum_cons, List.map_cons, List.sum_cons, ← ih]; rfl
  rw [hsum, List.map_map]
  exact congrArg List.sum (List.map_congr_left fun x hx => (h x hx).act_eq m hat)

theorem sounds_both (hp : Sounds p S) (hq : Sounds q T) : Sounds (stack [p, q]) fun m => S m + T m := by
  have hboth : ∀ x ∈ [(p, S), (q, T)], Sounds x.1 x.2 := by
    intro x hx
    rcases List.mem_cons.mp hx with rfl | hx
    · exact hp
    · rw [List.mem_singleton.mp hx]
      exact hq
  exact (sounds_stack hboth).congr (funext fun m => congrArg (S m + ·) (add_zero (T m)))

/-- `overlay` plays what a stack of the two plays. -/
theorem sounds_overlay (hp : Sounds p S) (hq : Sounds q T) : Sounds (overlay p q) fun m => S m + T m := by
  refine (sounds_both hp hq).of_query (funext fun st => ?_)
  rw [stack_query]
  simp [overlay, pattern]

/-- Shifts of a pattern are shifts of what is played. -/
theorem sounds_rotL (s : Time) (h : Sounds p S) : Sounds (rotL s p) fun m => Behaviour.rotL s (S m) := by
  refine .of_act (wellFormed_rotL s h.wellFormed) fun a m t hat => ?_
  rw [act_rotL, h.act_eq m (isIn_map_add hat)]
  rfl

theorem sounds_rotR (s : Time) (h : Sounds p S) : Sounds (rotR s p) fun m => Behaviour.rotR s (S m) :=
  sounds_rotL (-s) h

/-- Values are mapped, and wholes stay. -/
theorem sounds_fmap (f : α → β) (h : Sounds p S) : Sounds (fmap f p) fun m => Behaviour.map f (S m) := by
  refine .of_act (wellFormed_fmap f h.wellFormed) fun a m t hat => ?_
  rw [act_fmap, h.act_eq m hat]
  rfl

/-! ## Cycles -/

/-- The changed pattern in the cycles that pass the test, and the pattern in the others. -/
theorem sounds_when (test : ℤ → Bool) {f : Pattern Γ α → Pattern Γ α} (h : Sounds p S) (hf : Sounds (f p) T) :
    Sounds (when test f p) fun m => Behaviour.choose test (T m) (S m) := by
  refine .of_act (wellFormed_when test h.wellFormed hf.wellFormed) fun a m t hat => ?_
  rw [act_when h.isLocal hf.isLocal hat, h.act_eq m (isIn_piece hat), hf.act_eq m (isIn_piece hat)]
  rfl

/-- Both functions of `ifp` could as well be applied before. -/
theorem sounds_ifp (test : ℤ → Bool) {f g : Pattern Γ α → Pattern Γ α} (hf : Sounds (f p) S)
    (hg : Sounds (g p) T) : Sounds (ifp test f g p) fun m => Behaviour.choose test (S m) (T m) :=
  (sounds_when (f := fun _ => f p) test hg hf).of_query rfl

/-- The pattern at a place of a list plays what is at that place, and out of range nothing. -/
theorem getD_map {f : ι → Pattern Γ α} {F : ι → Γ → Behaviour α} {xs : List ι}
    (h : ∀ x ∈ xs, Sounds (f x) (F x)) (i : ℕ) :
    Sounds ((xs.map f).getD i silence) fun m => (xs.map fun x => F x m).getD i 0 := by
  by_cases hi : i < xs.length
  · have hx := h xs[i] (List.getElem_mem hi)
    rw [List.getD_eq_getElem _ _ (by rwa [List.length_map]), List.getElem_map]
    refine hx.congr (funext fun m => ?_)
    rw [List.getD_eq_getElem _ _ (by rwa [List.length_map]), List.getElem_map]
  · rw [List.getD_eq_default _ _ (by rw [List.length_map]; exact not_lt.mp hi)]
    refine sounds_silence.congr (funext fun m => ?_)
    rw [List.getD_eq_default _ _ (by rw [List.length_map]; exact not_lt.mp hi)]
    rfl

/-- In each cycle one of the patterns, at its own pace: pattern `i` of `n` plays its cycle `k` in cycle `k * n + i`. -/
theorem sounds_cat {f : ι → Pattern Γ α} {F : ι → Γ → Behaviour α} {xs : List ι}
    (h : ∀ x ∈ xs, Sounds (f x) (F x)) :
    Sounds (cat (xs.map f)) fun m => Behaviour.cat (xs.map fun x => F x m) := by
  have hwf : ∀ p ∈ xs.map f, WellFormed True p := List.forall_mem_map.mpr fun x hx => (h x hx).wellFormed
  have hsteady : ∀ p ∈ xs.map f, Steady p := List.forall_mem_map.mpr fun x hx => (h x hx).steady
  refine .of_act (wellFormed_cat hwf) fun a m t hat => ?_
  by_cases hxs : xs = []
  · subst hxs
    simp [Behaviour.cat, cat]
  · -- the moment belongs to cycle `k` of the pattern `i`
    have hne : xs.map f ≠ [] := by simpa using hxs
    have hi := catIndex_lt hne ⌊t⌋
    have hpos : (0 : ℤ) < (xs.map f).length := by omega
    have hmod := Int.emod_nonneg ⌊t⌋ hpos.ne'
    have hc : ⌊t⌋ = ⌊t⌋ / (xs.map f).length * (xs.map f).length + catIndex (xs.map f) ⌊t⌋ := by
      have hdiv := Int.emod_add_mul_ediv ⌊t⌋ (xs.map f).length
      rw [mul_comm] at hdiv
      unfold catIndex
      omega
    have hoffset := sub_catOffset hne ⌊t⌋
    have hplays := getD_map h (catIndex (xs.map f) ⌊t⌋)
    rw [List.getD_eq_getElem _ _ hi] at hplays
    rw [act_cat_cycle (fun p hp => (hwf p hp).isLocal) hsteady hi hc hat, hplays.eq, ← hoffset]
    simp only [Behaviour.cat, catIndex, catOffset, List.length_map]
    congr 2
    · exact funext fun x => congrArg (fun g => onWhole (ArcF.map g) x) (funext fun y => by ring)
    · ring_nf

/-- Moving nothing changes nothing. -/
theorem Behaviour.moved_id (S : Behaviour α) : Behaviour.moved (fun x => x) (fun x => x) S = S := by
  funext t
  have hid : (onWhole (ArcF.map fun x : Time => x) : Option Arc × α → _) = id := by
    funext x
    obtain ⟨w, v⟩ := x
    cases w <;> rfl
  rw [Behaviour.moved, hid, Multiset.map_id]

theorem Behaviour.cat_singleton (S : Behaviour α) : Behaviour.cat [S] = S := by
  conv_rhs => rw [← Behaviour.moved_id S]
  funext t
  simp [Behaviour.cat, Behaviour.moved]

/-! ## Speed -/

/-- What is played up to a moment, if it settles before it, is what it settles to. -/
theorem Behaviour.before_eq {S : Behaviour α} {u v : Time} {x : Multiset (Option Arc × α)} (hv : v < u)
    (h : ∀ t, v < t → t < u → S t = x) : Behaviour.before S u = x := by
  have hex : ∃ x, ∃ v < u, ∀ t, v < t → t < u → S t = x := ⟨x, v, hv, h⟩
  obtain ⟨v', hv', h'⟩ := hex.choose_spec
  obtain ⟨t, ht, htu⟩ := exists_between (max_lt hv hv')
  rw [Behaviour.before, dif_pos hex, ← h' t ((le_max_right _ _).trans_lt ht) htu,
    h t ((le_max_left _ _).trans_lt ht) htu]

/-- For a while before a moment, a pattern plays what it plays just before the moment. -/
theorem Steady.settles (hs : Steady p) (m : Γ) (u : Time) :
    ∃ v < u, ∀ t, v < t → t < u → behaviour p m t = justBefore p m u := by
  obtain ⟨v, huv, hvu, hv⟩ := HalfOpen.exists_sampleLeft_eq (fun e : Event α => e.part.start)
    (fun e => e.part.stop) (fun e => (e.whole, e.value)) (p.query ⟨⟨u - 1, u⟩, m⟩) (sub_one_lt u)
  refine ⟨v, hvu, fun t hvt htu => ?_⟩
  rw [← hs.act_eq m (a := ⟨u - 1, u⟩) ⟨(huv.trans_lt hvt).le, htu⟩]
  exact (hv t hvt htu).symm

/-- So the left limit can be taken on the side of behaviours, where there are no queries. -/
theorem before_behaviour (hs : Steady p) (m : Γ) (u : Time) :
    Behaviour.before (behaviour p m) u = justBefore p m u := by
  obtain ⟨v, hvu, hv⟩ := hs.settles m u
  exact Behaviour.before_eq hvu hv

/-- Backwards: in each cycle what was played just before the mirrored moment. -/
theorem sounds_rev (h : Sounds p S) : Sounds (rev p) fun m => Behaviour.rev (S m) := by
  refine .of_act (wellFormed_rev h.wellFormed) fun a m t hat => ?_
  rw [act_rev_justBefore h.isLocal h.steady hat, ← before_behaviour h.steady, h.eq]
  rfl

/-- Wholes are divided by a positive factor, and the moment is multiplied by it. -/
theorem sounds_fastForward {r : Time} (hr : 0 < r) (h : Sounds p S) :
    Sounds (_fastForward r p) fun m => Behaviour.moved (· / r) (· * r) (S m) := by
  refine .of_act (wellFormed_fastForward hr h.wellFormed) fun a m t hat => ?_
  rw [act_fastForward hr, h.act_eq m (isIn_map_mul hr hat)]
  rfl

/-- For every factor: silence for zero, and backwards for a negative one. -/
theorem sounds_fast (r : Time) (h : Sounds p S) : Sounds (_fast r p) fun m => Behaviour.fast r (S m) := by
  unfold _fast Behaviour.fast
  by_cases hr : r = 0
  · simp only [if_pos hr]
    exact sounds_silence
  · simp only [if_neg hr]
    by_cases hneg : r < 0
    · simp only [if_pos hneg]
      exact sounds_rev (sounds_fastForward (neg_pos.mpr hneg) h)
    · simp only [if_neg hneg]
      exact sounds_fastForward (lt_of_le_of_ne (not_lt.mp hneg) (Ne.symm hr)) h

theorem sounds_slow (r : Time) (h : Sounds p S) : Sounds (_slow r p) fun m => Behaviour.slow r (S m) := by
  unfold _slow Behaviour.slow
  by_cases hr : r = 0
  · simp only [if_pos hr]
    exact sounds_silence
  · simp only [if_neg hr]
    exact sounds_fast (1 / r) h

/-- At its own pace, a behaviour is itself. -/
theorem Behaviour.fast_one (S : Behaviour α) : Behaviour.fast 1 S = S := by
  conv_rhs => rw [← Behaviour.moved_id S]
  rw [Behaviour.fast, if_neg one_ne_zero, if_neg (not_lt.mpr zero_le_one)]
  simp only [div_one, mul_one]

/-- One pattern plays as it is, which is also what it would play at its own pace. -/
theorem sounds_fastCat {f : ι → Pattern Γ α} {F : ι → Γ → Behaviour α} {xs : List ι}
    (h : ∀ x ∈ xs, Sounds (f x) (F x)) :
    Sounds (fastCat (xs.map f)) fun m => Behaviour.fastCat (xs.map fun x => F x m) := by
  have hfast := sounds_fast xs.length (sounds_cat h)
  by_cases hone : ∃ x, xs = [x]
  · obtain ⟨x, rfl⟩ := hone
    refine (h x (List.mem_singleton_self x)).congr (funext fun m => ?_)
    simp [Behaviour.fastCat, Behaviour.cat_singleton, Behaviour.fast_one]
  · have hquery : (fastCat (xs.map f)).query = (_fast (xs.length : Time) (cat (xs.map f))).query := by
      rcases xs with _ | ⟨x, _ | ⟨y, xs⟩⟩
      · rfl
      · exact absurd ⟨x, rfl⟩ hone
      · simp only [fastCat, List.map_cons]
        split <;> simp [setTactus]
    refine (hfast.congr (funext fun m => ?_)).of_query hquery
    simp [Behaviour.fastCat]

/-- A pattern in the steps of a rhythm that are onsets. -/
theorem sounds_onsets (bs : List Bool) (h : Sounds p S) :
    Sounds (fastCat (bs.map fun b => if b then p else silence)) fun m =>
      Behaviour.fastCat (bs.map fun b => if b then S m else 0) := by
  refine sounds_fastCat (f := fun b : Bool => if b then p else silence) (F := fun b m => if b then S m else 0)
    fun b _ => ?_
  cases b
  · exact sounds_silence
  · exact h

/-- Likewise in the steps that are not. -/
theorem sounds_rests (bs : List Bool) (h : Sounds p S) :
    Sounds (fastCat (bs.map fun b => if b then silence else p)) fun m =>
      Behaviour.fastCat (bs.map fun b => if b then 0 else S m) := by
  refine sounds_fastCat (f := fun b : Bool => if b then silence else p) (F := fun b m => if b then 0 else S m)
    fun b _ => ?_
  cases b
  · exact h
  · exact sounds_silence

/-! ## Structure -/

theorem wellFormed_filterWhen (test : Time → Bool) (h : WellFormed True p) :
    WellFormed True (filterWhen test p) := fun a m ha => Sound.filter (h a m ha) _

/-- Events are kept by the start of their wholes, which all strictly regular answers have. -/
theorem sounds_filterWhen (test : Time → Bool) (h : Sounds p S) :
    Sounds (filterWhen test p) fun m => Behaviour.keep (fun w => test w.start) (S m) := by
  refine .of_act (wellFormed_filterWhen test h.wellFormed) fun a m t hat => ?_
  rw [act_filterWhen test (h.coherent.digital a m (isIn_pos hat).le), h.act_eq m hat]
  rfl

/-- Once for each active `true`, with the wholes of the pattern that is masked. -/
theorem sounds_mask {b : Pattern Γ Bool} {B : Γ → Behaviour Bool} (hb : Sounds b B) (h : Sounds p S) :
    Sounds (mask b p) fun m => Behaviour.each (B m) fun x => if x then S m else 0 := by
  refine .of_act (wellFormed_apLeft (wellFormed_fmap _ h.wellFormed) (wellFormed_filterValues _ hb.wellFormed))
    fun a m t hat => ?_
  rw [act_mask hb.coherent h.coherent hat, hb.act_eq m hat, h.eq, Multiset.bind_filter]
  refine Multiset.bind_congr fun y _ => ?_
  obtain ⟨w, _ | _⟩ := y <;> rfl

/-- Of what is played, the values that are there, and their wholes. -/
theorem act_filterJust (p : Pattern Γ (Option α)) (m : Γ) (a : Arc) (t : Time) :
    act (filterJust p) m a t = (act p m a t).filterMap fun x => x.2.map fun v => (x.1, v) := by
  have hq : (filterJust p).query ⟨a, m⟩ = (p.query ⟨a, m⟩).filterMap fun e =>
      e.value.map fun v => (⟨e.context, e.whole, e.part, v⟩ : Event α) := by
    simp only [filterJust, Pattern.filterValues, List.filterMap_filter]
    refine List.filterMap_congr fun e _ => ?_
    cases e.value <;> rfl
  rw [act, hq]
  refine activeIn_filterMap (fun e _ hnone _ => ?_) fun e _ e' he' => ?_
  · rwa [Option.map_eq_none_iff] at hnone ⊢
  · obtain ⟨v, hv, rfl⟩ := Option.map_eq_some_iff.mp he'
    exact ⟨Iff.rfl, fun _ => by rw [hv, Option.map_some]⟩

theorem wellFormed_filterJust {p : Pattern Γ (Option α)} (h : WellFormed True p) :
    WellFormed True (filterJust p) := by
  intro a m ha e he
  obtain ⟨e', he', hv⟩ := List.mem_filterMap.mp he
  obtain ⟨v, _, rfl⟩ := Option.map_eq_some_iff.mp hv
  exact h a m ha e' (List.mem_filter.mp he').1

/-- The wholes of the boolean pattern, with the values of the other one: once for each active `true`. -/
theorem sounds_struct {b : Pattern Γ Bool} {B : Γ → Behaviour Bool} (hb : Sounds b B) (h : Sounds p S) :
    Sounds (Pattern.struct b p) fun m => Behaviour.struct (B m) (S m) := by
  refine .of_act (wellFormed_filterJust (wellFormed_apLeft (wellFormed_fmap _ hb.wellFormed) h.wellFormed))
    fun a m t hat => ?_
  rw [Pattern.struct, act_filterJust, act_apLeft (coherent_fmap _ hb.coherent) h.coherent hat, act_fmap,
    hb.act_eq m hat, h.eq, TaggedBag.ap,
    TaggedBag.bind_map_left fun (a : Bool) (b : α) => if a then some b else none, TaggedBag.bind,
    Multiset.filterMap_bind, Behaviour.struct, Multiset.bind_filter]
  refine Multiset.bind_congr fun y _ => ?_
  rw [Multiset.map_map, Multiset.filterMap_map]
  obtain ⟨w, _ | _⟩ := y
  · refine Multiset.eq_zero_of_forall_notMem fun z hz => ?_
    obtain ⟨x, _, hxz⟩ := (Multiset.mem_filterMap _ _).mp hz
    exact absurd hxz (Option.some_ne_none z).symm
  · exact congrArg (fun f => Multiset.filterMap f (S m t)) (funext fun _ => rfl) |>.trans
      (congrFun (Multiset.filterMap_eq_map _) _)

/-- Both sources are asked about the hull of the parts of the boolean events, and the answers are cut down to
these parts again. -/
theorem wellFormed_sew {b : Pattern Γ Bool} (hb : WellFormed True b) (hp : WellFormed True p)
    (hq : WellFormed True q) : WellFormed True (sew b p q) := by
  intro a m ha e he
  obtain ⟨bev, hbev, he⟩ := List.mem_flatMap.mp he
  have hba := hb a m ha bev hbev
  have hpart : bev.part ∈ (b.query ⟨a, m⟩).map part := List.mem_map_of_mem hbev
  have hhull : Within bev.part (partsHull (b.query ⟨a, m⟩)) :=
    ⟨getD_min?_le (List.mem_map_of_mem hpart), hba.fits.1.2.1, le_getD_max? (List.mem_map_of_mem hpart)⟩
  -- both sources are asked about the same arc, and cut down in the same way
  have hcut : ∀ s : Pattern Γ α, WellFormed True s →
      e ∈ ((s.query ⟨partsHull (b.query ⟨a, m⟩), m⟩).map (check bev)).reduceOption →
        Answers True a e.whole e.part := by
    intro s hs hes
    rw [List.reduceOption, List.filterMap_map] at hes
    obtain ⟨xev, hxev, hx⟩ := List.mem_filterMap.mp hes
    obtain ⟨p', hp', rfl⟩ := check_some.mp hx
    have hxa := hs _ m (hhull.1.trans (hhull.2.1.trans hhull.2.2)) xev hxev
    obtain ⟨hfit, -, hin⟩ := hba.fits.subArc hxa.fits
      (fun _ hpos => hhull.1.trans_lt ((hba.fits.2 trivial hpos).trans_le hhull.2.2)) hp'
    obtain ⟨w, hw, hlt, hxw⟩ := hxa.whole
    exact ⟨hfit, w, hw, hlt, hin.trans hxw⟩
  split_ifs at he with hv
  · exact hcut p hp he
  · exact hcut q hq he

/-- For each active boolean, the one pattern or the other. -/
theorem sounds_sew {b : Pattern Γ Bool} {B : Γ → Behaviour Bool} (hb : Sounds b B) (hp : Sounds p S)
    (hq : Sounds q T) :
    Sounds (sew b p q) fun m => Behaviour.each (B m) fun x => if x then S m else T m := by
  refine .of_act (wellFormed_sew hb.wellFormed hp.wellFormed hq.wellFormed) fun a m t hat => ?_
  rw [act_sew hp.steady hq.steady, hb.act_eq m hat, hp.eq, hq.eq]
  refine Multiset.bind_congr fun y _ => ?_
  obtain ⟨w, _ | _⟩ := y <;> rfl

/-- What is played by the patterns that are played, with their own wholes. -/
theorem sounds_innerJoin {q : Pattern Γ β} {B : Γ → Behaviour β} {f : β → Pattern Γ α}
    {F : β → Γ → Behaviour α} (hq : Sounds q B) (hf : ∀ x, Sounds (f x) (F x)) :
    Sounds (innerJoin (fmap f q)) fun m => Behaviour.each (B m) fun x => F x m := by
  refine .of_act (wellFormed_innerJoin (wellFormed_fmap f hq.wellFormed)
    (Values.fmap (fun x => (hf x).wellFormed) q)) fun a m t hat => ?_
  rw [act_innerJoin (coherent_fmap f hq.coherent) (Values.fmap (fun x => (hf x).coherent) q) hat,
    act_fmap, hq.act_eq m hat, TaggedBag.bind_map_left f, TaggedBag.bind]
  refine Multiset.bind_congr fun y _ => ?_
  rw [(hf y.2).eq]
  exact Multiset.map_id _

/-- Both patterns together, in whichever way an applicative makes pairs of what they play. -/
theorem sounds_pairs {r : Pattern Γ α} {B : Γ → Behaviour β} {w : Option Arc → Option Arc → Option Arc}
    (op : ι → β → α) {I : Γ → Behaviour ι} (hr : WellFormed True r)
    (h : ∀ a m t, isIn a t → act r m a t =
      TaggedBag.ap w ((I m t).map fun x => (x.1, op x.2)) (B m t)) :
    Sounds r fun m => Behaviour.both w op (I m) (B m) := by
  refine .of_act hr fun a m t hat => ?_
  rw [h a m t hat, TaggedBag.ap, TaggedBag.bind_map_left op, TaggedBag.bind]
  simp only [Multiset.map_map]
  rfl

/-- The applicatives differ in the wholes only: the intersection here, and those of one side below. -/
theorem sounds_opBoth {q : Pattern Γ β} {B : Γ → Behaviour β} (op : α → β → α) (h : Sounds p S)
    (hq : Sounds q B) : Sounds (opBoth op p q) fun m => Behaviour.both meet op (S m) (B m) := by
  have hf : Sounds (fmap op p) _ := sounds_fmap op h
  refine sounds_pairs op (wellFormed_ap hf.wellFormed hq.wellFormed hf.steady hq.steady) ?_
  intro a m t hat
  rw [opBoth, act_ap hf.coherent hq.coherent hat, hf.act_eq m hat, hq.eq]
  rfl

theorem sounds_apLeft {pf : Pattern Γ (β → α)} {F : Γ → Behaviour (β → α)} {q : Pattern Γ β}
    {B : Γ → Behaviour β} (hf : Sounds pf F) (hq : Sounds q B) :
    Sounds (apLeft pf q) fun m => Behaviour.both (fun w _ => w) (fun f x => f x) (F m) (B m) := by
  refine sounds_pairs (fun (f : β → α) x => f x) (wellFormed_apLeft hf.wellFormed hq.wellFormed) ?_
  intro a m t hat
  rw [act_apLeft hf.coherent hq.coherent hat, hf.act_eq m hat, hq.eq]
  simp

theorem sounds_opLeft {q : Pattern Γ β} {B : Γ → Behaviour β} (op : α → β → α) (h : Sounds p S)
    (hq : Sounds q B) : Sounds (opLeft op p q) fun m => Behaviour.both (fun w _ => w) op (S m) (B m) :=
  (sounds_apLeft (sounds_fmap op h) hq).congr <| funext fun m => funext fun t => by
    rw [Behaviour.both, Behaviour.map, Multiset.bind_map]
    rfl

theorem sounds_opRight {q : Pattern Γ β} {B : Γ → Behaviour β} (op : α → β → α) (h : Sounds p S)
    (hq : Sounds q B) :
    Sounds (opRight op p q) fun m => Behaviour.both (fun w _ => w) (fun y x => op x y) (B m) (S m) := by
  have hf : Sounds (fmap op p) _ := sounds_fmap op h
  refine .of_act (wellFormed_apRight hf.wellFormed hq.wellFormed) fun a m t hat => ?_
  rw [opRight, act_apRight hf.coherent hq.coherent hat, hq.act_eq m hat, hf.eq, TaggedBag.bind]
  simp only [Behaviour.map, Multiset.map_map]
  rfl

/-- The inner behaviour is shifted and sped up for the whole of each outer event, as `focusArc` does it. -/
theorem sounds_squeezeJoin {q : Pattern Γ β} {B : Γ → Behaviour β} {f : β → Pattern Γ α}
    {F : β → Γ → Behaviour α} (hq : Sounds q B) (hf : ∀ x, Sounds (f x) (F x)) :
    Sounds (squeezeJoin (fmap f q)) fun m => Behaviour.squeeze (B m) fun x => F x m := by
  have hfocus : ∀ (w : Arc) (x : β), Sounds (focusArc w (f x)) fun m =>
      Behaviour.rotR (cyclePos w.start) (Behaviour.fast (1 / (w.stop - w.start)) (F x m)) :=
    fun w x => sounds_rotR _ (sounds_fast _ (hf x))
  refine .of_act (wellFormed_squeezeJoin (wellFormed_fmap f hq.wellFormed)
    (Values.fmap (fun x => (hf x).wellFormed) q)) fun a m t hat => ?_
  have hv : ∀ a m, a.start ≤ a.stop → ∀ e ∈ (fmap f q).query ⟨a, m⟩, ∀ w, e.whole = some w →
      Coherent (focusArc w e.value) := by
    intro a m _ e he w _
    obtain ⟨e', _, rfl⟩ := List.mem_map.mp he
    exact (hfocus w e'.value).coherent
  rw [act_squeezeJoin (coherent_fmap f hq.coherent) hv hat, act_fmap, hq.act_eq m hat, Multiset.bind_map]
  refine Multiset.bind_congr fun y _ => ?_
  rw [squeezed, (hfocus _ y.2).eq]

/-! ## At random -/

section Luck

variable {r : Arc → ℚ} {prand : Pattern Γ ℚ}

/-- The source of random numbers has one number for an arc, whatever is asked around it. -/
theorem noise_rand : Noise luck (rand : Pattern Γ ℚ) := fun _ _ => rfl

/-- A seed moves the arc that the number is for. -/
theorem noise_seed (seed : Time) : Noise (luckAt seed) (rotL seed rand : Pattern Γ ℚ) := by
  intro a m
  obtain ⟨s, e⟩ := a
  simp [rotL, withResultTime, withResultArc, withQueryTime, withQueryArc, rand, pattern, mapArc, ArcF.map,
    luckAt]

/-- The event with its random number: that of its whole, whatever part of it is asked for. -/
def withLuck (r : Arc → ℚ) (e : Event α) : Event (α × ℚ) :=
  ⟨e.context, e.whole, e.part, (e.value, r e.wholeOrPart)⟩

/-- An event is asked for one random number: that of its whole. -/
theorem withFXWhole_noise (hr : Noise r prand) {e : Event α} {w : Arc} (hw : e.whole = some w)
    (hin : Within e.part w) (m : Γ) :
    (prand.query ⟨e.wholeOrPart, m⟩).filterMap (withFXWhole e.whole (e.map Prod.mk)) =
      ((subArc e.part e.wholeOrPart).map fun _ => withLuck r e).toList := by
  rw [hr]
  obtain ⟨⟨c⟩, w', part, v⟩ := e
  simp only at hw hin
  subst hw
  cases hp : subArc part w with
  | none => simp [withFXWhole, wholeOrPart, EventF.map, hp]
  | some p' =>
    have hpart : p' = part := by
      rw [(subArc_some hp).1, sect, max_eq_left hin.1, min_eq_left hin.2.2]
    subst hpart
    simp [withFXWhole, wholeOrPart, EventF.map, hp, withLuck, combineContexts]

/-- So pairing events with random numbers changes neither their wholes nor their parts. -/
theorem apLeft_noise_query (hr : Noise r prand) (h : WellFormed True p) {a : Arc} (ha : a.start ≤ a.stop)
    (m : Γ) : (apLeft (fmap Prod.mk p) prand).query ⟨a, m⟩ =
      (p.query ⟨a, m⟩).filterMap fun e => (subArc e.part e.wholeOrPart).map fun _ => withLuck r e := by
  simp only [apLeft, keepTactus, applyPatToPatLeft, pattern, reduceOption_flatMap_map, fmap,
    List.flatMap_map]
  rw [List.filterMap_eq_flatMap_toList]
  refine List.flatMap_congr fun e he => ?_
  obtain ⟨_, w, hw, _, hin⟩ := h a m ha e he
  exact withFXWhole_noise hr hw hin m

theorem wellFormed_byLuck (hr : Noise r prand) (test : ℚ → Bool) (h : WellFormed True p) :
    WellFormed True (byLuck prand test p) := by
  intro a m ha e he
  obtain ⟨e₁, he₁, rfl⟩ := List.mem_map.mp he
  have hmem := (List.mem_filter.mp he₁).1
  rw [apLeft_noise_query hr h ha] at hmem
  obtain ⟨e', he', hsome⟩ := List.mem_filterMap.mp hmem
  obtain ⟨_, _, rfl⟩ := Option.map_eq_some_iff.mp hsome
  exact h a m ha e' he'

/-- A query of some width is answered with some of the events, as they are. -/
theorem byLuck_query (hr : Noise r prand) (test : ℚ → Bool) (h : WellFormed True p) {a : Arc}
    (ha : a.start < a.stop) (m : Γ) : (byLuck prand test p).query ⟨a, m⟩ =
      (p.query ⟨a, m⟩).filter fun e => test (r e.wholeOrPart) := by
  have hsub : ∀ e ∈ p.query ⟨a, m⟩, subArc e.part e.wholeOrPart = some e.part := by
    intro e he
    obtain ⟨hfits, w, hw, _, hin⟩ := h a m ha.le e he
    rw [wholeOrPart, hw, Option.getD_some, subArc_comm]
    exact subArc_of_within hin (hfits.2 trivial ha)
  have hpaired : (apLeft (fmap Prod.mk p) prand).query ⟨a, m⟩ = (p.query ⟨a, m⟩).map (withLuck r) := by
    rw [apLeft_noise_query hr h ha.le, ← List.filterMap_eq_map]
    exact List.filterMap_congr fun e he => by rw [hsub e he, Option.map_some]; rfl
  show ((((apLeft (fmap Prod.mk p) prand).query ⟨a, m⟩).filter _).map _ : List (Event α)) = _
  rw [hpaired, List.filter_map, List.map_map]
  exact List.map_id _

/-- The events whose numbers pass the test, in every query the same ones. -/
theorem sounds_byLuck (hr : Noise r prand) (test : ℚ → Bool) (h : Sounds p S) :
    Sounds (byLuck prand test p) fun m => Behaviour.keep (fun w => test (r w)) (S m) := by
  refine .of_act (wellFormed_byLuck hr test h.wellFormed) fun a m t hat => ?_
  rw [act, byLuck_query hr test h.wellFormed (isIn_pos hat),
    activeIn_filter _ (fun x => x.1.elim false fun w => test (r w)), Behaviour.keep,
    ← h.act_eq m hat]
  · rfl
  · intro e he _
    obtain ⟨_, w, hw, _⟩ := h.wellFormed a m (isIn_pos hat).le e he
    rw [wholeOrPart, hw]
    rfl

/-- Kept are the events whose number is above the threshold, and `_unDegradeBy` keeps the others. -/
theorem sounds_degradeBy (x : ℚ) (h : Sounds p S) :
    Sounds (_degradeBy x p) fun m => Behaviour.keep (fun w => luck w > x) (S m) :=
  sounds_byLuck noise_rand (fun y => y > x) h

theorem sounds_unDegradeBy (x : ℚ) (h : Sounds p S) :
    Sounds (_unDegradeBy x p) fun m => Behaviour.keep (fun w => luck w ≤ x) (S m) :=
  sounds_byLuck noise_rand (fun y => y ≤ x) h

end Luck

end Basics

/-! ## Transformers -/

/-- Whatever plays `S`, the function makes something of it that plays `F m S` when the controls are `m`. -/
structure Means (f : Pattern Γ α → Pattern Γ α) (F : Γ → Behaviour α → Behaviour α) : Prop where
  sounds : ∀ {p : Pattern Γ α} {S : Γ → Behaviour α}, Sounds p S → Sounds (f p) fun m => F m (S m)

namespace Means

variable {f g : Pattern Γ α → Pattern Γ α} {F G : Γ → Behaviour α → Behaviour α} {p : Pattern Γ α}
  {S : Γ → Behaviour α}

/-- The cycles that are multiples of `n`; of zero, there are none. -/
theorem _every (n : ℤ) (hf : Means f F) :
    Means (Pattern._every n f) fun m S => Behaviour.choose (fun c => n ∣ c ∧ n ≠ 0) (F m S) S := by
  refine ⟨fun {p S} h => ?_⟩
  unfold Pattern._every
  by_cases hn : n = 0
  · rw [if_pos hn]
    refine h.congr (funext fun m => funext fun t => ?_)
    simp [Behaviour.choose, hn]
  · rw [if_neg hn]
    refine (sounds_when _ h (hf.sounds h)).congr (funext fun m => ?_)
    refine congrArg (fun test => Behaviour.choose test (F m (S m)) (S m)) (funext fun c => ?_)
    simp [hn, Int.dvd_iff_fmod_eq_zero]

/-- The function is applied to what the numbers after the first have made of the pattern. -/
theorem foldEvery (ns : List ℤ) (hf : Means f F) : Means (Pattern.foldEvery ns f) fun m S =>
    ns.foldr (fun n S => Behaviour.choose (fun c => n ∣ c ∧ n ≠ 0) (F m S) S) S := by
  refine ⟨fun {p S} h => ?_⟩
  induction ns with
  | nil => exact h
  | cons n ns ih => exact (hf._every n).sounds ih

/-- Every other cycle is squeezed into its first half, and is a quarter late. -/
theorem brak : Means (Pattern.brak : Pattern Γ α → Pattern Γ α) fun _ S =>
    Behaviour.choose (fun c => ¬ Even c) (Behaviour.rotR (1 / 4) (Behaviour.fastCat [S, 0])) S := by
  refine ⟨fun {p S} h => ?_⟩
  have hhalf : Sounds (fastCat [p, silence]) fun m => Behaviour.fastCat [S m, 0] := sounds_rests [false, true] h
  have hwhen : Sounds (Pattern.brak p) _ :=
    sounds_when (f := fun q => rotR (1 / 4) (fastCat [q, silence])) _ h (sounds_rotR (1 / 4) hhalf)
  refine hwhen.congr (funext fun m => ?_)
  refine congrArg (fun test => Behaviour.choose test _ (S m)) (funext fun c => decide_eq_decide.mpr ?_)
  rw [Int.fmod_eq_emod_of_nonneg _ zero_le_two, Int.not_even_iff]

theorem palindrome : Means (Pattern.palindrome : Pattern Γ α → Pattern Γ α) fun _ S =>
    Behaviour.cat [S, Behaviour.rev S] := by
  refine ⟨fun {p S} h => ?_⟩
  have hboth : ∀ r ∈ [false, true], Sounds (if r then rev p else p) fun m =>
      if r then Behaviour.rev (S m) else S m := by
    intro r _
    cases r
    · exact h
    · exact sounds_rev h
  exact sounds_cat hboth

/-- The recursion of the source, from the innermost echo out: each one is shifted and changed once more. -/
theorem _echoWith (n : ℤ) (t : Time) (hf : Means f F) : Means (Pattern._echoWith n t f) fun m S =>
    (fun T => F m (Behaviour.rotR t T) + S)^[(n - 1).toNat] S := by
  refine ⟨fun {p S} h => ?_⟩
  generalize hk : (n - 1).toNat = k
  induction k generalizing n with
  | zero =>
    rw [Pattern._echoWith, if_pos (by omega)]
    exact h
  | succ k ih =>
    rw [Pattern._echoWith, if_neg (by omega)]
    refine (sounds_overlay (hf.sounds (sounds_rotR t (ih (n - 1) (by omega)))) h).congr (funext fun m => ?_)
    exact (Function.iterate_succ_apply' (fun T => F m (Behaviour.rotR t T) + S m) k (S m)).symm

theorem iterate (hf : Means f F) (i : ℕ) : Means f^[i] fun m => (F m)^[i] := by
  refine ⟨fun {p S} h => ?_⟩
  induction i with
  | zero => exact h
  | succ i ih =>
    rw [Function.iterate_succ_apply']
    exact (hf.sounds ih).congr (funext fun m => (Function.iterate_succ_apply' (F m) i (S m)).symm)

theorem _euclid (n k : ℤ) : Means (Pattern._euclid n k : Pattern Γ α → Pattern Γ α) fun _ =>
    Fx.mean.euclidean n k := by
  refine ⟨fun {p S} h => ?_⟩
  unfold Pattern._euclid Fx.mean.euclidean
  by_cases hn : 0 ≤ n
  · simp only [if_pos hn]
    exact sounds_onsets _ h
  · simp only [if_neg hn]
    exact sounds_rests _ h

/-- Without steps there is silence; otherwise the rhythm is shifted by whole steps. -/
theorem _euclidOff (n k s : ℤ) : Means (Pattern._euclidOff n k s : Pattern Γ α → Pattern Γ α) fun _ S =>
    if k = 0 then 0 else Behaviour.rotL (s / k) (Fx.mean.euclidean n k S) := by
  refine ⟨fun {p S} h => ?_⟩
  unfold Pattern._euclidOff
  by_cases hk : k = 0
  · simp only [if_pos hk]
    exact sounds_silence
  · simp only [if_neg hk]
    exact sounds_rotL _ ((Means._euclid n k).sounds h)

/-- The second ghost is one of the first ghost too, as `superimpose` is applied twice. -/
theorem ghostWith (t : Time) (hf : Means f F) : Means (Pattern.ghostWith t f) fun m S =>
    S + Behaviour.rotR (t * (3 / 2)) (F m S) +
      Behaviour.rotR (t * (5 / 2)) (F m (S + Behaviour.rotR (t * (3 / 2)) (F m S))) := by
  refine ⟨fun {p S} h => ?_⟩
  have hfirst := sounds_both h (sounds_rotR (t * (3 / 2)) (hf.sounds h))
  exact sounds_both hfirst (sounds_rotR (t * (5 / 2)) (hf.sounds hfirst))

theorem euclidFull (n k : ℤ) (hf : Means f F) (hg : Means g G) :
    Means (fun p => Pattern.euclidFull (Pattern.pure n) (Pattern.pure k) (f p) (g p)) fun m S =>
      Fx.mean.euclidean n k (F m S) + Fx.mean.euclidean (-n) k (G m S) := by
  refine ⟨fun {p S} h => ?_⟩
  have hon : Sounds (euclid (Pattern.pure n) (Pattern.pure k) (f p)) _ :=
    ((Means._euclid n k).sounds (hf.sounds h)).of_query rfl
  have hoff : Sounds (euclidInv (Pattern.pure n) (Pattern.pure k) (g p)) _ :=
    ((Means._euclid (-n) k).sounds (hg.sounds h)).of_query rfl
  exact sounds_both hon hoff

/-- Each function is applied to the same pattern. -/
theorem layer {f : ι → Pattern Γ α → Pattern Γ α} {F : ι → Γ → Behaviour α → Behaviour α}
    (hf : ∀ x, Means (f x) (F x)) (xs : List ι) :
    Means (Pattern.layer (xs.map f)) fun m S => (xs.map fun x => F x m S).sum := by
  refine ⟨fun {p S} h => ?_⟩
  have hlayer : Pattern.layer (xs.map f) p = stack (xs.map fun x => f x p) := by
    rw [Pattern.layer, List.map_map]
    rfl
  rw [hlayer]
  exact sounds_stack fun x _ => (hf x).sounds h

/-- The window is in the part of the cycle in which a whole starts, before and after the function. -/
theorem within (s e : Time) (hf : Means f F) : Means (Pattern.within (s, e) f) fun m S =>
    Behaviour.keep (fun w => cyclePos w.start ≥ s ∧ cyclePos w.start < e) (F m S) +
      Behaviour.keep (fun w => ¬ (cyclePos w.start ≥ s ∧ cyclePos w.start < e)) S := by
  refine ⟨fun {p S} h => ?_⟩
  exact sounds_both (sounds_filterWhen _ (hf.sounds h)) (sounds_filterWhen _ h)

theorem «while» (b : Sure Γ Bool) (hf : Means f F) : Means (Pattern.while b.pat f) fun m S =>
    Behaviour.each (behaviour b.pat m) fun x => if x then F m S else S := by
  refine ⟨fun {p S} h => ?_⟩
  exact (sounds_sew b.sounds (hf.sounds h) h).of_query rfl

/-- Each event again as `n` cycles of its value. -/
theorem _ply (n : ℚ) : Means (Pattern._ply n : Pattern Γ α → Pattern Γ α) fun _ S =>
    Behaviour.squeeze S fun v => Behaviour.fast n (Behaviour.pure v) := by
  refine ⟨fun {p S} h => ?_⟩
  exact sounds_squeezeJoin (F := fun v _ => Behaviour.fast n (Behaviour.pure v)) h
    fun v => sounds_fast n (sounds_pure v)

/-- The wholes of `n` steps to a cycle, with the values that are played. -/
theorem _segment (n : Time) : Means (Pattern._segment n : Pattern Γ α → Pattern Γ α) fun _ =>
    Behaviour.both (fun w _ => w) (fun f x => f x) (Behaviour.fast n (Behaviour.pure fun x => x)) := by
  refine ⟨fun {p S} h => ?_⟩
  exact (sounds_apLeft (sounds_fast n (sounds_pure fun x => x)) h).of_query rfl

theorem opSqueeze (op : α → β → α) (q : Sure Γ β) : Means (fun p => Pattern.opSqueeze op p q.pat) fun m S =>
    Behaviour.squeeze S fun x => Behaviour.map (op x) (behaviour q.pat m) := by
  refine ⟨fun {p S} h => ?_⟩
  have hsqueeze : Sounds (squeezeJoin (fmap (fun x => fmap (op x) q.pat) p)) _ :=
    sounds_squeezeJoin h fun x => sounds_fmap (op x) q.sounds
  refine hsqueeze.of_query (funext fun st => ?_)
  simp only [Pattern.opSqueeze, apSqueeze, applyPatToPatSqueeze, squeezeJoin, fmap, List.map_map]
  rfl

/-- As a `cat` of copies, a cycle is played `n` times before the next. -/
theorem _repeatCycles (n : ℤ) : Means (Pattern._repeatCycles n : Pattern Γ α → Pattern Γ α) fun _ S =>
    Behaviour.cat (List.replicate n.toNat S) := by
  refine ⟨fun {p S} h => ?_⟩
  have hcat : Sounds (cat ((List.range n.toNat).map fun _ => p)) _ := sounds_cat fun _ _ => h
  rw [Pattern._repeatCycles]
  simpa using hcat

/-- The function gets the events that were left out, and them alone. -/
theorem sometimesBy (x : ℚ) (hf : Means f F) : Means (Pattern.sometimesBy (Pattern.pure x) f) fun m S =>
    Behaviour.keep (fun w => luck w > x) S + F m (Behaviour.keep (fun w => luck w ≤ x) S) := by
  refine ⟨fun {p S} h => ?_⟩
  have hkept : Sounds (degradeBy (Pattern.pure x) p) _ := (sounds_degradeBy x h).of_query rfl
  have hrest : Sounds (unDegradeBy (Pattern.pure x) p) _ := (sounds_unDegradeBy x h).of_query rfl
  exact sounds_overlay hkept (hf.sounds hrest)

end Means

/-- Every transformer of the language means what its name says about what is played. -/
theorem Fx.means (x : Fx Γ α) : Means x.run fun m => x.mean m := by
  induction x with
  | id => exact ⟨fun h => h⟩
  | comp f g ihf ihg => exact ⟨fun h => ihf.sounds (ihg.sounds h)⟩
  | fast r => exact ⟨sounds_fast r⟩
  | slow r => exact ⟨sounds_slow r⟩
  | rotL t => exact ⟨sounds_rotL t⟩
  | rotR t => exact ⟨sounds_rotR t⟩
  | rev => exact ⟨sounds_rev⟩
  | when test f ih => exact ⟨fun h => sounds_when test h (ih.sounds h)⟩
  | every n f ih => exact ih._every n
  | every' n o hn f ih => exact ⟨fun h => sounds_when _ h (ih.sounds h)⟩
  | foldEvery ns f ih => exact ih.foldEvery ns
  | someCyclesBy x f ih => exact ⟨fun h => sounds_when _ h (ih.sounds h)⟩
  | ifp test f g ihf ihg => exact ⟨fun h => sounds_ifp test (ihf.sounds h) (ihg.sounds h)⟩
  | palindrome => exact Means.palindrome
  | brak => exact Means.brak
  | iter n => exact ⟨fun h => sounds_cat fun i _ => sounds_rotL _ h⟩
  | iter' n => exact ⟨fun h => sounds_cat fun i _ => sounds_rotR _ h⟩
  | superimpose f ih => exact ⟨fun h => sounds_both h (ih.sounds h)⟩
  | off t f ih => exact ⟨fun h => sounds_both h (ih.sounds (sounds_rotR t h))⟩
  | stutter n t => exact ⟨fun h => sounds_stack fun i _ => sounds_rotR _ h⟩
  | echoWith n t f ih => exact ih._echoWith n t
  | ghostWith t f ih => exact ih.ghostWith t
  | soak n f ih => exact ⟨fun h => sounds_cat fun i _ => (ih.iterate i).sounds h⟩
  | repeatCycles n => exact Means._repeatCycles n
  | spread f xs ih => exact ⟨fun h => sounds_cat fun x _ => (ih x).sounds h⟩
  | fastspread f xs ih => exact ⟨fun h => sounds_fastCat fun x _ => (ih x).sounds h⟩
  | layer f xs ih => exact Means.layer ih xs
  | inside n f ih => exact ⟨fun h => sounds_fast n (ih.sounds (sounds_slow n h))⟩
  | outside n hn f ih => exact ⟨fun h => sounds_fast (1 / n) (ih.sounds (sounds_slow (1 / n) h))⟩
  | euclid n k => exact Means._euclid n k
  | euclidInv n k => exact Means._euclid (-n) k
  | euclidFull n k f g ihf ihg => exact Means.euclidFull n k ihf ihg
  | euclidOff n k s => exact Means._euclidOff n k s
  | within s e f ih => exact ih.within s e
  | mask b => exact ⟨fun h => sounds_mask b.sounds h⟩
  | struct b => exact ⟨fun h => sounds_struct b.sounds h⟩
  | sew b f g ihf ihg => exact ⟨fun h => sounds_sew b.sounds (ihf.sounds h) (ihg.sounds h)⟩
  | «while» b f ih => exact ih.while b
  | stitch b f g ihf ihg =>
    exact ⟨fun h => sounds_overlay (sounds_struct b.sounds (ihf.sounds h))
      (sounds_struct (sounds_fmap _ b.sounds) (ihg.sounds h))⟩
  | segment n => exact Means._segment n
  | opBoth op q => exact ⟨fun h => sounds_opBoth op h q.sounds⟩
  | opLeft op q => exact ⟨fun h => sounds_opLeft op h q.sounds⟩
  | opRight op q => exact ⟨fun h => sounds_opRight op h q.sounds⟩
  | opSqueeze op q => exact Means.opSqueeze op q
  | ply n => exact Means._ply n
  | degradeBy x => exact ⟨sounds_degradeBy x⟩
  | unDegradeBy x => exact ⟨sounds_unDegradeBy x⟩
  | sometimesBy x f ih => exact ih.sometimesBy x
  | patterned q f ih => exact ⟨fun h => sounds_innerJoin q.sounds fun x => (ih x).sounds h⟩

/-- **Transformers preserve meaning.** Whatever is built from them makes strictly well-formed patterns, whose
answers do not depend on the cut, of such patterns; what these play is what the transformer means for what
was played; and so are the onsets in any sequence of queries. -/
theorem transformers_mean (x : Fx Γ α) (p : Pattern Γ α) (hp : StrictlyRegular p) :
    StrictlyRegular (x.run p) ∧ (∀ m, behaviour (x.run p) m = x.mean m (behaviour p m)) ∧
    ∀ (m : Γ) (a : Time) (cuts : List Time), (a :: cuts).IsChain (· < ·) → ∀ u,
      onsetsIn ((cutArcs (a :: cuts)).flatMap fun b => (x.run p).query ⟨b, m⟩) u =
        if a ≤ u ∧ u < (a :: cuts).getLast (by simp) then (x.mean m (behaviour p m) u).filter (startsAt u)
        else 0 := by
  have h := x.means.sounds hp.sounds
  refine ⟨h.strictlyRegular, h.eq, fun m a cuts hlt u => ?_⟩
  rw [onsetsIn_cut h.strictlyRegular m u a cuts hlt, h.eq]

/-- Every third cycle backwards, and a random half of the events again, a quarter of a cycle later. -/
theorem transformers_mean_offbeat :
    StrictlyRegular ((Fx.comp (.every 3 .rev) (.sometimesBy (1 / 2) (.off (1 / 4) .id))).run offbeat) ∧
    (∀ m, behaviour ((Fx.comp (.every 3 .rev) (.sometimesBy (1 / 2) (.off (1 / 4) .id))).run offbeat) m =
      (Fx.comp (.every 3 .rev) (.sometimesBy (1 / 2) (.off (1 / 4) .id))).mean m (behaviour offbeat m)) ∧
    ∀ (m : Unit) (a : Time) (cuts : List Time), (a :: cuts).IsChain (· < ·) → ∀ u,
      onsetsIn ((cutArcs (a :: cuts)).flatMap fun b =>
          ((Fx.comp (.every 3 .rev) (.sometimesBy (1 / 2) (.off (1 / 4) .id))).run offbeat).query ⟨b, m⟩) u =
        if a ≤ u ∧ u < (a :: cuts).getLast (by simp) then
          ((Fx.comp (.every 3 .rev) (.sometimesBy (1 / 2) (.off (1 / 4) .id))).mean m
            (behaviour offbeat m) u).filter (startsAt u)
        else 0 :=
  transformers_mean (.comp (.every 3 .rev) (.sometimesBy (1 / 2) (.off (1 / 4) .id))) offbeat
    ⟨wellFormed_rotL _ (wellFormed_pure 0), steady_rotL _ (steady_pure 0)⟩

end Tidal
