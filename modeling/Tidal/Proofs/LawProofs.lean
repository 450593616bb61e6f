import Tidal.Proofs.SteadyProofs

/-!
# Proofs: monad and applicative laws

At one moment `unwrap`, `innerJoin` and `<*>` are the operations of `TaggedBag`, so their laws are its
laws: associativity from the associativity of intersecting wholes, interchange from its commutativity.
There is no unit: `pure` has one whole for every cycle, so it cuts wholes to the cycle they are heard in.
-/

namespace Tidal

open EventF Pattern

variable {Γ α β γ : Type}

/-! ## Associativity -/

theorem regular_bind {p : Pattern Γ α} {f : α → Pattern Γ β} (hp : Regular p)
    (hf : ∀ x, Regular (f x)) : Regular (bind p f) :=
  regular_unwrap (regular_fmap f hp) (Values.fmap hf p)

/-- `innerJoin` as a bind. -/
def innerBind (p : Pattern Γ α) (f : α → Pattern Γ β) : Pattern Γ β := innerJoin (fmap f p)

theorem regular_innerBind {p : Pattern Γ α} {f : α → Pattern Γ β} (hp : Regular p)
    (hf : ∀ x, Regular (f x)) : Regular (innerBind p f) :=
  regular_innerJoin (regular_fmap f hp) (Values.fmap hf p)

theorem act_innerBind {p : Pattern Γ α} {f : α → Pattern Γ β} (hp : Coherent p)
    (hf : ∀ x, Coherent (f x)) {m : Γ} {a : Arc} {t : Time} (hat : isIn a t) :
    act (innerBind p f) m a t =
      TaggedBag.bind (fun _ w => w) (act p m a t) fun x => behaviour (f x) m t := by
  rw [innerBind, act_innerJoin (coherent_fmap f hp) (Values.fmap hf p) hat, act_fmap,
    TaggedBag.bind_map_left]

/-- **Both joins are associative.** -/
theorem joins_assoc (p : Pattern Γ α) (f : α → Pattern Γ β) (g : β → Pattern Γ γ) (hp : Regular p)
    (hf : ∀ x, Regular (f x)) (hg : ∀ y, Regular (g y)) (m : Γ) (a b : Arc) (t : Time)
    (ha : isIn a t) (hb : isIn b t) :
    act (bind (bind p f) g) m a t = act (bind p fun x => bind (f x) g) m b t ∧
    act (innerJoin (fmap g (innerJoin (fmap f p)))) m a t =
      act (innerJoin (fmap (fun x => innerJoin (fmap g (f x))) p)) m b t := by
  have hpc := hp.toCoherent
  have hfc := fun x => (hf x).toCoherent
  have hgc := fun y => (hg y).toCoherent
  have hnow := isIn_now t
  constructor
  · rw [act_bind (regular_bind hp hf).toCoherent hgc ha, act_bind hpc hfc ha,
      TaggedBag.bind_assoc meet_assoc,
      act_bind hpc (fun x => (regular_bind (hf x) hg).toCoherent) hb, hp.cut a b m t ha hb]
    refine TaggedBag.bind_congr fun x _ => ?_
    exact (act_bind (hfc x.2) hgc hnow).symm
  · change act (innerBind (innerBind p f) g) m a t = act (innerBind p fun x => innerBind (f x) g) m b t
    rw [act_innerBind (regular_innerBind hp hf).toCoherent hgc ha, act_innerBind hpc hfc ha,
      TaggedBag.bind_assoc fun _ _ _ => rfl,
      act_innerBind hpc (fun x => (regular_innerBind (hf x) hg).toCoherent) hb, hp.cut a b m t ha hb]
    refine TaggedBag.bind_congr fun x _ => ?_
    exact (act_innerBind (hfc x.2) hgc hnow).symm

theorem joins_assoc_steps :
    let p : Pattern Unit ℕ := fastFromList [1, 2]
    let f := fun x : ℕ => (fastFromList [x, x + 1, x + 2] : Pattern Unit ℕ)
    let g := fun y : ℕ => rotL (1 / 4) (Pattern.pure (y * 10) : Pattern Unit ℕ)
    act (bind (bind p f) g) () ⟨0, 1⟩ (5 / 8) = act (bind p fun x => bind (f x) g) () ⟨1 / 2, 2⟩ (5 / 8) ∧
    act (innerJoin (fmap g (innerJoin (fmap f p)))) () ⟨0, 1⟩ (5 / 8) =
      act (innerJoin (fmap (fun x => innerJoin (fmap g (f x))) p)) () ⟨1 / 2, 2⟩ (5 / 8) :=
  joins_assoc _ _ _ (regular_fastFromList _) (fun _ => regular_fastFromList _)
    (fun _ => regular_rotL _ (regular_pure _)) () ⟨0, 1⟩ ⟨1 / 2, 2⟩ (5 / 8) (by norm_num [isIn])
    (by norm_num [isIn])

/-! ## Applicative laws -/

/-- **Composition and interchange** of `<*>`. -/
theorem ap_laws (u : Pattern Γ (β → γ)) (v : Pattern Γ (α → β)) (w : Pattern Γ α) (hu : Regular u)
    (hv : Regular v) (hw : Regular w) (y : β) (m : Γ) (a b : Arc) (t : Time) (ha : isIn a t)
    (hb : isIn b t) :
    act (ap (ap (fmap (fun f (g : α → β) => f ∘ g) u) v) w) m a t = act (ap u (ap v w)) m b t ∧
    act (ap u (Pattern.pure y)) m a t = act (ap (Pattern.pure fun f => f y) u) m b t := by
  have huc := hu.toCoherent
  have hvc := hv.toCoherent
  have hwc := hw.toCoherent
  have hnow := isIn_now t
  constructor
  · have hcu := regular_fmap (fun f (g : α → β) => f ∘ g) hu
    have hvw : behaviour (ap v w) m t = TaggedBag.ap meet (behaviour v m t) (behaviour w m t) :=
      act_ap hvc hwc hnow
    rw [act_ap (regular_ap hcu hv).toCoherent hwc ha, act_ap hcu.toCoherent hvc ha, act_fmap,
      TaggedBag.ap_comp meet_assoc, act_ap huc (regular_ap hv hw).toCoherent hb,
      hu.cut a b m t ha hb, hvw]
  · rw [act_ap huc (regular_pure y).toCoherent ha, act_ap (regular_pure _).toCoherent huc hb,
      behaviour, act_pure y hnow, act_pure _ hb, TaggedBag.ap_interchange meet_comm,
      huc.act_eq m ha]

theorem ap_laws_steps :
    let u : Pattern Unit (ℕ → ℕ) := fastFromList [(· + 1), (· * 2)]
    let v : Pattern Unit (ℕ → ℕ) := fastFromList [(· * 3), (· + 5), (· + 7)]
    act (ap (ap (fmap (fun f (g : ℕ → ℕ) => f ∘ g) u) v) offbeat) () ⟨0, 1⟩ (5 / 8) =
      act (ap u (ap v offbeat)) () ⟨1 / 2, 2⟩ (5 / 8) ∧
    act (ap u (Pattern.pure 3)) () ⟨0, 1⟩ (5 / 8) =
      act (ap (Pattern.pure fun f : ℕ → ℕ => f 3) u) () ⟨1 / 2, 2⟩ (5 / 8) :=
  ap_laws _ _ _ (regular_fastFromList _) (regular_fastFromList _) regular_offbeat 3 () ⟨0, 1⟩ ⟨1 / 2, 2⟩ (5 / 8)
    (by norm_num [isIn]) (by norm_num [isIn])

/-! ## `pure` as a unit -/

/-- The pair with its whole cut to the cycle of `t`. -/
def cutToCycle (t : Time) (x : Option Arc × α) : Option Arc × α :=
  onWhole (fun w => sect w (timeToCycleArc t)) x

theorem meet_some_cycle {x : Option Arc × α} {w : Arc} (hx : x.1 = some w) (t : Time) :
    (meet x.1 (some (timeToCycleArc t)), x.2) = cutToCycle t x := by
  obtain ⟨x1, x2⟩ := x
  simp only at hx; subst hx
  rfl

theorem sect_eq_left_iff {w c : Arc} (hle : w.start ≤ w.stop) : sect w c = w ↔ Within w c := by
  obtain ⟨s, e⟩ := w
  simp only [sect, ArcF.mk.injEq, max_eq_left_iff, min_eq_left_iff, Within]
  exact ⟨fun h => ⟨h.1, hle, h.2⟩, fun h => ⟨h.1, h.2.2⟩⟩

/-- Cutting to the cycle changes nothing just when every whole lies in the cycle already. -/
theorem map_cutToCycle_eq_iff {s : Multiset (Option Arc × α)} {t : Time}
    (hs : ∀ x ∈ s, ∃ w, x.1 = some w ∧ isIn w t) :
    s.map (cutToCycle t) = s ↔ ∀ x ∈ s, ∀ w, x.1 = some w → Within w (timeToCycleArc t) := by
  constructor
  · intro h x hx w hw
    -- every pair of `s` is a cut one, and cutting twice is cutting once
    obtain ⟨y, hy, rfl⟩ := Multiset.mem_map.mp (h.symm ▸ hx)
    obtain ⟨v, hv, hvt⟩ := hs y hy
    simp only [cutToCycle, onWhole, hv, Option.map_some, Option.some.injEq] at hw
    subst hw
    have hlt := isIn_pos (isIn_sect.mpr ⟨hvt, isIn_timeToCycleArc t⟩)
    exact ⟨le_max_right _ _, hlt.le, min_le_right _ _⟩
  · intro h
    refine (Multiset.map_congr rfl fun x hx => ?_).trans (Multiset.map_id s)
    obtain ⟨w, hw, hwt⟩ := hs x hx
    obtain ⟨x1, x2⟩ := x
    simp only at hw; subst hw
    simp only [cutToCycle, onWhole, Option.map_some, id,
      (sect_eq_left_iff (isIn_pos hwt).le).mpr (h _ hx w rfl)]

theorem bind_pure_right {s : Multiset (Option Arc × α)} {t : Time} {m : Γ}
    (hs : ∀ x ∈ s, ∃ w, x.1 = some w ∧ isIn w t) :
    TaggedBag.bind meet s (fun x => behaviour (Pattern.pure x : Pattern Γ α) m t) =
      s.map (cutToCycle t) := by
  rw [TaggedBag.bind, ← Multiset.bind_singleton]
  refine Multiset.bind_congr fun x hx => ?_
  obtain ⟨w, hw, _⟩ := hs x hx
  rw [behaviour, act_pure x.2 (isIn_now t), Multiset.map_singleton, meet_some_cycle hw]

theorem bind_pure_left {s : Multiset (Option Arc × α)} {t : Time}
    (hs : ∀ x ∈ s, ∃ w, x.1 = some w ∧ isIn w t) :
    s.map (fun y => (meet (some (timeToCycleArc t)) y.1, y.2)) = s.map (cutToCycle t) :=
  Multiset.map_congr rfl fun x hx => by
    obtain ⟨w, hw, _⟩ := hs x hx
    rw [meet_comm, meet_some_cycle hw]

/-- **`pure` is a unit within the cycle.** Up to `pure`, at every instant the wholes are those of the
other pattern cut to the cycle of the instant; nothing changes exactly when they all lie in it. -/
theorem pure_unit (v : Pattern Γ α) (x : β) (f : β → Pattern Γ α) (hv : Coherent v)
    (hf : ∀ x, Coherent (f x)) (m : Γ) (a : Arc) (t : Time) (hat : isIn a t) :
    act (ap (Pattern.pure id) v) m a t = (act v m a t).map (cutToCycle t) ∧
    act (bind v Pattern.pure) m a t = (act v m a t).map (cutToCycle t) ∧
    act (bind (Pattern.pure x) f) m a t = (act (f x) m a t).map (cutToCycle t) ∧
    (∀ p : Pattern Γ α, p = v ∨ p = f x →
      ((act p m a t).map (cutToCycle t) = act p m a t ↔
        ∀ y ∈ act p m a t, ∀ w, y.1 = some w → Within w (timeToCycleArc t))) := by
  have hwhole : ∀ p : Pattern Γ α, Coherent p → ∀ y ∈ act p m a t, ∃ w, y.1 = some w ∧ isIn w t :=
    fun p hp y hy => hp.wholeIn_behaviour (hp.act_eq m hat ▸ hy)
  refine ⟨?_, ?_, ?_, ?_⟩
  · rw [act_ap (regular_pure id).toCoherent hv hat, act_pure id hat, TaggedBag.ap,
      TaggedBag.bind_singleton, Multiset.map_map, ← hv.act_eq m hat]
    exact bind_pure_left (hwhole v hv)
  · rw [act_bind hv (fun y => (regular_pure y).toCoherent) hat]
    exact bind_pure_right (hwhole v hv)
  · rw [act_bind (regular_pure x).toCoherent hf hat, act_pure x hat, TaggedBag.bind_singleton,
      ← (hf x).act_eq m hat]
    exact bind_pure_left (hwhole (f x) (hf x))
  · rintro p (rfl | rfl)
    · exact map_cutToCycle_eq_iff (hwhole p hv)
    · exact map_cutToCycle_eq_iff (hwhole (f x) (hf x))

theorem pure_unit_offbeat :
    act (ap (Pattern.pure id) offbeat) () ⟨0, 1⟩ (1 / 4) =
        (act offbeat () ⟨0, 1⟩ (1 / 4)).map (cutToCycle (1 / 4)) ∧
      act (bind offbeat Pattern.pure) () ⟨0, 1⟩ (1 / 4) =
        (act offbeat () ⟨0, 1⟩ (1 / 4)).map (cutToCycle (1 / 4)) ∧
      act (bind (Pattern.pure 7) fun _ : ℕ => offbeat) () ⟨0, 1⟩ (1 / 4) =
        (act offbeat () ⟨0, 1⟩ (1 / 4)).map (cutToCycle (1 / 4)) ∧
      (∀ p : Pattern Unit ℕ, p = offbeat ∨ p = offbeat →
        ((act p () ⟨0, 1⟩ (1 / 4)).map (cutToCycle (1 / 4)) = act p () ⟨0, 1⟩ (1 / 4) ↔
          ∀ y ∈ act p () ⟨0, 1⟩ (1 / 4), ∀ w, y.1 = some w → Within w (timeToCycleArc (1 / 4)))) :=
  pure_unit offbeat 7 (fun _ => offbeat) regular_offbeat.toCoherent
    (fun _ => regular_offbeat.toCoherent) () ⟨0, 1⟩ (1 / 4) (by norm_num [isIn])

/-- None of the three unit laws holds across a cycle boundary. -/
theorem pure_not_unit :
    Coherent offbeat ∧
    act (ap (Pattern.pure id) offbeat) () ⟨0, 1⟩ (1 / 4) ≠ act offbeat () ⟨0, 1⟩ (1 / 4) ∧
    act (bind offbeat Pattern.pure) () ⟨0, 1⟩ (1 / 4) ≠ act offbeat () ⟨0, 1⟩ (1 / 4) ∧
    act (bind (Pattern.pure 7) fun _ : ℕ => offbeat) () ⟨0, 1⟩ (1 / 4) ≠
      act offbeat () ⟨0, 1⟩ (1 / 4) :=
  ⟨regular_offbeat.toCoherent, by with_unfolding_all decide, by with_unfolding_all decide,
    by with_unfolding_all decide⟩

end Tidal
