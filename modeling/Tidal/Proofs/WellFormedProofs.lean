import Tidal.Proofs.JoinProofs

/-!
# Proofs: well-formed answers

Every combinator keeps wholes of positive width and parts inside the whole and the query. The strict
form (no part of zero width in the answer to a query of positive width) is kept along with the plain
one, by the same proofs.
-/

namespace Tidal

open EventF Pattern

variable {Γ α β : Type} {strict : Prop} {m : Γ} {a b : Arc}

/-! ## Arcs -/

/-- A part of a part is a part. -/
theorem Within.trans {a b c : Arc} (h1 : Within a b) (h2 : Within b c) : Within a c :=
  ⟨h2.1.trans h1.1, h1.2.1, h1.2.2.trans h2.2.2⟩

theorem Within.refl (h : a.start ≤ a.stop) : Within a a := ⟨le_rfl, h, le_rfl⟩

theorem Fits.trans {a b c : Arc} (h1 : Fits strict a b) (h2 : Fits strict b c) : Fits strict a c :=
  ⟨h2.1.trans h1.1, fun hs hpos => h2.2 hs (h1.2 hs hpos)⟩

/-- A piece of a query is a query that fits in it, and has a width if the query has one. -/
theorem Piece.fits (h : Piece a b) : Fits strict a b :=
  ⟨⟨h.start_le, h.le, h.stop_le⟩, fun _ hpos => h.pos hpos⟩

/-- The intersection of the parts of two answers. -/
theorem Fits.subArc {p q c : Arc} (hp : Fits strict a p) (hq : Fits strict b q)
    (hb : strict → a.start < a.stop → b.start < b.stop) (h : subArc p q = some c) :
    Fits strict a c ∧ Within c p ∧ Within c q := by
  obtain ⟨hc, hle⟩ := subArc_some h
  have hcp : Within c p := ⟨by rw [hc]; exact le_max_left _ _, hle, by rw [hc]; exact min_le_left _ _⟩
  have hcq : Within c q := ⟨by rw [hc]; exact le_max_right _ _, hle, by rw [hc]; exact min_le_right _ _⟩
  exact ⟨⟨hcp.trans hp.1, fun hs hpos => subArc_pos (hp.2 hs hpos) (hq.2 hs (hb hs hpos)) h⟩, hcp, hcq⟩

/-- Maps of arcs that keep their order and their width positive. -/
structure Moves (F : Arc → Arc) : Prop where
  within : ∀ b c, Within b c → Within (F b) (F c)
  pos : ∀ b, (F b).start < (F b).stop ↔ b.start < b.stop

/-- A shift and a speed-up by a positive factor. -/
theorem moves_map {f : Time → Time} (hf : StrictMono f) : Moves (ArcF.map f) where
  within _ _ h := ⟨hf.monotone h.1, hf.monotone h.2.1, hf.monotone h.2.2⟩
  pos _ := hf.lt_iff_lt

/-- A mirror exchanges the two ends, and the order of two ends with it. -/
theorem moves_mirrorArc (mid : Time) : Moves (mirrorArc mid) where
  within _ _ h := within_mirrorArc mid h
  pos b := by simp only [mirrorArc]; constructor <;> intro h <;> linarith

namespace Answers

variable {w w₁ w₂ w' : Option Arc} {p p₁ p₂ p' : Arc}

/-- Query, whole and part moved together. -/
theorem mapArc {F : Arc → Arc} (hF : Moves F) (h : Answers strict a w p) :
    Answers strict (F a) (w.map F) (F p) := by
  obtain ⟨⟨hin, hpos⟩, w', rfl, hw, hpw⟩ := h
  exact ⟨⟨hF.within _ _ hin, fun hs ha => (hF.pos _).mpr (hpos hs ((hF.pos _).mp ha))⟩,
    F w', rfl, (hF.pos _).mpr hw, hF.within _ _ hpw⟩

/-- An answer to a smaller query is an answer. -/
theorem of_fits (h : Answers strict b w p) (hab : Fits strict a b) : Answers strict a w p :=
  ⟨hab.trans h.fits, h.whole⟩

/-- Two events together, with the whole of the first. -/
theorem left (h₁ : Answers strict a w₁ p₁) (h₂ : Answers strict b w₂ p₂)
    (hb : strict → a.start < a.stop → b.start < b.stop) (hp : subArc p₁ p₂ = some p') :
    Answers strict a w₁ p' := by
  obtain ⟨hfit, hin, _⟩ := h₁.fits.subArc h₂.fits hb hp
  obtain ⟨w, rfl, hw, hpw⟩ := h₁.whole
  exact ⟨hfit, w, rfl, hw, hin.trans hpw⟩

/-- Two events together, with their wholes intersected. -/
theorem both (h₁ : Answers strict a w₁ p₁) (h₂ : Answers strict b w₂ p₂)
    (hb : strict → a.start < a.stop → b.start < b.stop) (hw : subMaybeArc w₁ w₂ = some w')
    (hp : subArc p₁ p₂ = some p') : Answers strict a w' p' := by
  obtain ⟨hfit, hin₁, hin₂⟩ := h₁.fits.subArc h₂.fits hb hp
  obtain ⟨v₁, rfl, hv₁, hpv₁⟩ := h₁.whole
  obtain ⟨v₂, rfl, hv₂, hpv₂⟩ := h₂.whole
  simp only [subMaybeArc, Option.bind_eq_bind, Option.bind_eq_some_iff, Option.pure_def,
    Option.some.injEq] at hw
  obtain ⟨v, hv, rfl⟩ := hw
  refine ⟨hfit, v, rfl, subArc_pos hv₁ hv₂ hv, ?_⟩
  obtain ⟨rfl, _⟩ := subArc_some hv
  have h1 := hin₁.trans hpv₁
  have h2 := hin₂.trans hpv₂
  exact ⟨max_le h1.1 h2.1, h1.2.1, le_min h1.2.2 h2.2.2⟩

end Answers

/-- The events of one query are well-formed answers to it. -/
def Sound (strict : Prop) (a : Arc) (es : List (Event α)) : Prop :=
  ∀ e ∈ es, Answers strict a e.whole e.part

/-- The answer to a moved query, moved with it. -/
theorem Sound.mapArc {F : Arc → Arc} (hF : Moves F) {es : List (Event α)} (h : Sound strict a es) :
    Sound strict (F a) (es.map (EventF.mapArc F)) := by
  intro e he
  obtain ⟨e', he', rfl⟩ := List.mem_map.mp he
  exact (h e' he').mapArc hF

/-- Dropping events never breaks the rest. -/
theorem Sound.filter {es : List (Event α)} (h : Sound strict a es) (f : Event α → Bool) :
    Sound strict a (es.filter f) := fun e he => h e (List.mem_filter.mp he).1

/-- Answers to the pieces of a query are answers to the query. -/
theorem Sound.cycles {g : Arc → List (Event α)} (h : ∀ b, Piece a b → Sound strict b (g b)) :
    Sound strict a ((arcCyclesZW a).flatMap g) := by
  intro e he
  obtain ⟨b, hb, he⟩ := List.mem_flatMap.mp he
  have hpc := piece_of_mem hb
  exact (h b hpc e he).of_fits hpc.fits

/-! ## Sources, values -/

/-- The part of a cycle that the query holds has a width if the query has: pieces of no width are asked for by
queries of no width only. -/
theorem wellFormed_pure (v : α) : WellFormed strict (Pattern.pure v : Pattern Γ α) := by
  intro a m ha e he
  simp only [Pattern.pure, cycleArcsInArc, List.map_map] at he
  obtain ⟨c, hc, rfl⟩ := List.mem_map.mp he
  obtain ⟨h1, h2, h3⟩ := mem_cyclesInArc hc
  simp only [Function.comp, timeToCycleArc, sam_intCast, sect]
  have hle : max a.start (c : Time) ≤ min a.stop (c + 1) :=
    max_le (le_min ha h1.le) (le_min h2 (by linarith))
  refine ⟨⟨⟨le_max_left _ _, hle, min_le_left _ _⟩, fun _ hpos => ?_⟩, _, rfl, by simp,
    le_max_right _ _, hle, min_le_right _ _⟩
  exact max_lt (lt_min hpos h1) (lt_min (h3 hpos) (by linarith))

theorem wellFormed_silence : WellFormed strict (silence : Pattern Γ α) :=
  fun _ _ _ _ he => by cases he

theorem wellFormed_stack {ps : List (Pattern Γ α)} (h : ∀ p ∈ ps, WellFormed strict p) :
    WellFormed strict (stack ps) := by
  have hfold : ∀ ps : List (Pattern Γ α), (∀ p ∈ ps, WellFormed strict p) →
      WellFormed strict (ps.foldr overlay silence) := by
    intro ps
    induction ps with
    | nil => exact fun _ => wellFormed_silence
    | cons p ps ih =>
      intro h a m ha e he
      rcases List.mem_append.mp he with he | he
      · exact h p (List.mem_cons_self ..) a m ha e he
      · exact ih (fun q hq => h q (List.mem_cons_of_mem _ hq)) a m ha e he
  exact hfold ps h

theorem wellFormed_fmap (f : α → β) {p : Pattern Γ α} (h : WellFormed strict p) :
    WellFormed strict (fmap f p) := by
  intro a m ha e he
  obtain ⟨e', he', rfl⟩ := List.mem_map.mp he
  exact h a m ha e' he'

theorem wellFormed_filterValues (f : α → Bool) {p : Pattern Γ α} (h : WellFormed strict p) :
    WellFormed strict (filterValues f p) := fun a m ha =>
  Sound.filter (h a m ha) fun e => f e.value

/-! ## Time -/

theorem map_map_arc {f g : Time → Time} (h : ∀ x, g (f x) = x) (a : Arc) : (a.map f).map g = a := by
  simp [ArcF.map, h]

/-- The query is moved there and the answer back. -/
theorem wellFormed_rotL (s : Time) {p : Pattern Γ α} (h : WellFormed strict p) :
    WellFormed strict (rotL s p) := by
  intro a m ha
  have hF : Moves (ArcF.map (· - s)) := moves_map fun x y hxy => sub_lt_sub_right hxy s
  have := Sound.mapArc hF (h (a.map (· + s)) m (by simpa [ArcF.map] using ha))
  rwa [map_map_arc (by simp) a] at this

/-- Likewise, for a positive factor: another one would turn the arcs round. -/
theorem wellFormed_fastForward {r : Time} (hr : 0 < r) {p : Pattern Γ α} (h : WellFormed strict p) :
    WellFormed strict (_fastForward r p) := by
  intro a m ha
  have hF : Moves (ArcF.map (· / r)) := moves_map fun x y hxy => div_lt_div_of_pos_right hxy hr
  have := Sound.mapArc hF (h (a.map (· * r)) m (mul_le_mul_of_nonneg_right ha hr.le))
  rwa [map_map_arc (fun x => mul_div_cancel_right₀ x hr.ne') a] at this

/-- Each piece is answered by itself. -/
theorem wellFormed_splitQueries {p : Pattern Γ α} (h : WellFormed strict p) :
    WellFormed strict (splitQueries p) := fun _ m _ =>
  Sound.cycles fun b hb => h b m hb.le

/-- Each piece of the query is mirrored in its cycle, and so are the answers. -/
theorem wellFormed_rev {p : Pattern Γ α} (h : WellFormed strict p) : WellFormed strict (rev p) := by
  intro a m _
  refine Sound.cycles (g := fun b => revCycle p ⟨b, m⟩) fun b hb => ?_
  have := Sound.mapArc (moves_mirrorArc (midCycle b))
      (h (mirrorArc (midCycle b) b) m (mirrorArc_le hb.le))
  rwa [mirrorArc_mirrorArc, ← revCycle_eq p ⟨b, m⟩] at this

/-- For every factor. -/
theorem wellFormed_fast (r : Time) {p : Pattern Γ α} (h : WellFormed strict p) :
    WellFormed strict (_fast r p) := by
  unfold _fast
  split_ifs with h0 hneg
  · exact wellFormed_silence
  · exact wellFormed_rev (wellFormed_fastForward (by linarith) h)
  · exact wellFormed_fastForward (lt_of_le_of_ne (not_lt.mp hneg) (Ne.symm h0)) h

/-- Each piece of the query is moved to the cycle of the pattern that plays in it, by as much as the answer is
moved back. -/
theorem wellFormed_cat {ps : List (Pattern Γ α)} (h : ∀ p ∈ ps, WellFormed strict p) :
    WellFormed strict (cat ps) := by
  match ps, h with
  | [], _ => exact wellFormed_silence
  | [p], h => exact h p (List.mem_singleton_self p)
  | p₁ :: p₂ :: ps, h =>
    intro a m _
    refine Sound.cycles (g := catCycle (p₁ :: p₂ :: ps) ⟨a, m⟩) fun b hb => ?_
    set o := catOffset (p₁ :: p₂ :: ps) ⌊b.start⌋
    have hF : Moves (ArcF.map (· + o)) := moves_map fun x y hxy => add_lt_add_left hxy o
    have hp := getD_silence h wellFormed_silence (catIndex (p₁ :: p₂ :: ps) ⌊b.start⌋)
    have := Sound.mapArc hF (hp (b.map (· - o)) m (sub_le_sub_right hb.le o))
    rwa [map_map_arc (by simp) b] at this

/-- Each piece is answered by the pattern or by the changed one. -/
theorem wellFormed_when (test : ℤ → Bool) {f : Pattern Γ α → Pattern Γ α} {p : Pattern Γ α}
    (h : WellFormed strict p) (hf : WellFormed strict (f p)) : WellFormed strict (when test f p) := by
  intro a m _
  refine Sound.cycles (g := fun b => whenCycle test f p ⟨b, m⟩) fun b hb => ?_
  unfold whenCycle
  split_ifs
  · exact hf b m hb.le
  · exact h b m hb.le

/-! ## Applicative and joins -/

theorem WellFormed.coherent {p : Pattern Γ α} (h : WellFormed strict p) (hs : Steady p) : Coherent p :=
  (h.regular hs).toCoherent

section Applicative

variable {pf : Pattern Γ (α → β)} {px : Pattern Γ α}

/-- Two wholes of some width that meet in a point only have no intersection, so a common whole has a width. -/
theorem wellFormed_ap (hf : WellFormed strict pf) (hx : WellFormed strict px) (hsf : Steady pf)
    (hsx : Steady px) : WellFormed strict (ap pf px) := by
  intro a m ha e he
  rw [ap_query (hf.coherent hsf) (hx.coherent hsx) ha] at he
  obtain ⟨ef, hef, he⟩ := List.mem_flatMap.mp he
  obtain ⟨ex, hex, he⟩ := List.mem_filterMap.mp he
  obtain ⟨w', p', hw', hp', rfl⟩ := withFXBoth_some.mp he
  have hfa := hf a m ha ef hef
  obtain ⟨w, hw, hlt, _⟩ := hfa.whole
  rw [wholeOrPart, hw] at hex
  exact hfa.both (hx w m hlt.le ex hex) (fun _ _ => hlt) hw' hp'

/-- Wholes come from the left, and parts are intersected. -/
theorem wellFormed_apLeft (hf : WellFormed strict pf) (hx : WellFormed strict px) :
    WellFormed strict (apLeft pf px) := by
  intro a m ha e he
  simp only [apLeft, keepTactus, applyPatToPatLeft, pattern, reduceOption_flatMap_map] at he
  obtain ⟨ef, hef, he⟩ := List.mem_flatMap.mp he
  obtain ⟨ex, hex, he⟩ := List.mem_filterMap.mp he
  obtain ⟨p', hp', rfl⟩ := withFXWhole_some.mp he
  have hfa := hf a m ha ef hef
  obtain ⟨w, hw, hlt, _⟩ := hfa.whole
  rw [wholeOrPart, hw] at hex
  exact hfa.left (hx w m hlt.le ex hex) (fun _ _ => hlt) hp'

theorem wellFormed_apRight (hf : WellFormed strict pf) (hx : WellFormed strict px) :
    WellFormed strict (apRight pf px) := by
  intro a m ha e he
  simp only [apRight, keepTactus, applyPatToPatRight, pattern, reduceOption_flatMap_map] at he
  obtain ⟨ex, hex, he⟩ := List.mem_flatMap.mp he
  obtain ⟨ef, hef, he⟩ := List.mem_filterMap.mp he
  obtain ⟨p', hp', rfl⟩ := withFXWhole_some.mp he
  have hxa := hx a m ha ex hex
  obtain ⟨w, hw, hlt, _⟩ := hxa.whole
  rw [wholeOrPart, hw] at hef
  exact hxa.left (hf w m hlt.le ef hef) (fun _ _ => hlt) (subArc_comm .. ▸ hp')

end Applicative

section Joins

variable {pp : Pattern Γ (Pattern Γ α)}

/-- Both the wholes and the parts of an outer and an inner event are intersected. -/
theorem wellFormed_unwrap (hp : WellFormed strict pp) (hv : Values (WellFormed strict) pp) :
    WellFormed strict (unwrap pp) := by
  intro a m ha e he
  obtain ⟨oe, hoe, he⟩ := List.mem_flatMap.mp he
  obtain ⟨ie, hie, he⟩ := List.mem_filterMap.mp he
  obtain ⟨w', p', hw', hp', rfl⟩ := munge_some.mp he
  have hoa := hp a m ha oe hoe
  exact hoa.both (hv a m ha oe hoe oe.part m hoa.fits.1.2.1 ie hie) hoa.fits.2 hw' hp'

/-- The whole is that of the inner event, and the part is cut down to the query twice. -/
theorem wellFormed_innerJoin (hp : WellFormed strict pp) (hv : Values (WellFormed strict) pp) :
    WellFormed strict (innerJoin pp) := by
  intro a m ha e he
  obtain ⟨oe, hoe, he⟩ := List.mem_flatMap.mp he
  obtain ⟨ie, hie, he⟩ := List.mem_filterMap.mp he
  obtain ⟨q, p', hq, hp', rfl⟩ := mungeInner_some.mp he
  have hoa := hp a m ha oe hoe
  have hia := (hv a m ha oe hoe oe.part m hoa.fits.1.2.1 ie hie).of_fits hoa.fits
  have hself : Fits strict a a := ⟨Within.refl ha, fun _ hpos => hpos⟩
  obtain ⟨hfq, _, hqi⟩ := hself.subArc hia.fits (fun _ hpos => hpos) hq
  obtain ⟨hfp, hpq, _⟩ := hfq.subArc hself (fun _ hpos => hpos) hp'
  obtain ⟨w, hw, hlt, hiw⟩ := hia.whole
  exact ⟨hfp, w, hw, hlt, hpq.trans (hqi.trans hiw)⟩

/-- As `unwrap`, with the inner pattern moved and sped up first: only `rotL` and `_fast` are applied to it. -/
theorem wellFormed_squeezeJoin (hp : WellFormed strict pp) (hv : Values (WellFormed strict) pp) :
    WellFormed strict (squeezeJoin pp) := by
  intro a m ha e he
  obtain ⟨oe, hoe, he⟩ := List.mem_flatMap.mp he
  obtain ⟨ie, hie, he⟩ := List.mem_filterMap.mp he
  obtain ⟨w', p', hw', hp', rfl⟩ := munge_some.mp he
  have hoa := hp a m ha oe hoe
  have hfocus := wellFormed_rotL (-cyclePos oe.wholeOrPart.start)
    (wellFormed_fast (1 / (oe.wholeOrPart.stop - oe.wholeOrPart.start)) (hv a m ha oe hoe))
  exact hoa.both (hfocus oe.part m hoa.fits.1.2.1 ie hie) hoa.fits.2 hw' hp'

/-- As `unwrap`, but the inner patterns, shifted to the wholes of the outer events, are asked about the whole query. -/
theorem wellFormed_trigJoin (hp : WellFormed strict pp) (hs : Steady pp)
    (hv : Values (WellFormed strict) pp) : WellFormed strict (trigJoin pp) := by
  intro a m ha e he
  rw [trigJoin_query (hp.coherent hs) ha] at he
  obtain ⟨oe, hoe, he⟩ := List.mem_flatMap.mp he
  obtain ⟨ie, hie, he⟩ := List.mem_filterMap.mp he
  obtain ⟨w', p', hw', hp', rfl⟩ := munge_some.mp he
  exact (hp a m ha oe hoe).both
    (wellFormed_rotL (-cyclePos oe.wholeOrPart.start) (hv a m ha oe hoe) a m ha ie hie)
    (fun _ hpos => hpos) hw' hp'

end Joins

end Tidal
