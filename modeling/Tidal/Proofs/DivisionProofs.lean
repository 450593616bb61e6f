import Tidal.Proofs.CheckedProofs

/-!
# Proofs: where mini-notation divides by zero

The only division by zero that a tree can come to is that of a polymeter's rate by the size of a layer.
-/

namespace Tidal

open EventF TPat

variable {Γ β : Type}

theorem forall_mem_of_forall₂ {τ σ : Type} {S : σ → Prop} {xs : List τ} {ys : List σ}
    (h : List.Forall₂ (fun _ y => S y) xs ys) : ∀ y ∈ ys, S y := by
  induction h with
  | nil => exact fun y hy => absurd hy List.not_mem_nil
  | cons hy _ ih => exact List.forall_mem_cons.mpr ⟨hy, ih⟩

variable (J : Interpretation fun α => Result (Checked Γ α)) (D : Interpretation (Demanding Γ))

/-- If no layer has size zero, nothing comes to the rate of one. -/
theorem quiet_simulates : Simulates (· ≠ 0) (checked J) (demanding D)
    fun _ p d => (Agrees Returns p d ∧ ¬d.divided) ∧ Quiet d where
  silence := ⟨(checked_simulates J D).silence, .silence⟩
  pure x := ⟨(checked_simulates J D).pure x, .pure x⟩
  setContext c hp := ⟨(checked_simulates J D).setContext c hp.1, hp.2.opens, hp.2.asks⟩
  stack hps := ⟨(checked_simulates J D).stack (hps.imp fun _ _ h => h.1),
    .stack (forall_mem_of_forall₂ (hps.imp fun _ _ h => h.2))⟩
  timeCat hps hw := ⟨(checked_simulates J D).timeCat (hps.imp fun _ _ h => ⟨h.1, h.2.1⟩) hw,
    .timeCat (forall_mem_of_forall₂ (hps.imp fun _ _ h => h.2.2))⟩
  fast ht hp := ⟨(checked_simulates J D).fast ht.1 hp.1,
    .fast ht.2 ht.1.2 (ht.1.1.defined ht.2.opens) hp.2⟩
  slow ht hp := ⟨(checked_simulates J D).slow ht.1 hp.1, .slow ht.2 (ht.1.1.defined ht.2.opens) hp.2⟩
  layer hz ht hp := by
    refine ⟨(checked_simulates J D).layer trivial ht.1 hp.1, ?_⟩
    refine .fast ⟨ht.2.opens, ht.2.asks⟩ (fun h => h.elim ht.1.2 hz) (fun hd => ?_) hp.2
    obtain ⟨v, hv, hmap⟩ := Option.map_eq_some_iff.mp hd
    exact ht.1.1.defined ht.2.opens (hv.trans (congrArg some (Option.map_eq_none_iff.mp hmap)))
  doEuclid how hn hk hs hp := by
    refine ⟨(checked_simulates J D).doEuclid how hn.1 hk.1 hs.1 hp.1, ?_⟩
    have hn' := hn.1.1.defined hn.2.opens
    have hk' := hk.1.1.defined hk.2.opens
    have hs' := hs.1.1.defined hs.2.opens
    cases how with
    | euclidOff =>
      have hoff := hn.2.patternify3 hk.2 hs.2 hn' hk' hs' fun n k s => hp.2._euclidOff n k s
      exact ⟨hoff.opens, hoff.asks⟩
    | euclidOffBool =>
      have hoff := hn.2.patternify3 hk.2 hs.2 hn' hk' hs' fun n k s => hp.2._euclidOffBool n k s
      exact ⟨hoff.opens, hoff.asks⟩

/-! ## Whole trees -/

/-- The values of an answer are evaluated without an exception. -/
theorem raises_values {es : List (Event (Result β))} {es' : List (Event β)}
    (h : SameEvents Returns es es') : Raises False (es.mapM fun e => do
      return (⟨e.context, e.whole, e.part, ← e.value⟩ : Event β)) (· = es') := by
  have hall := Raises.mapM (f := fun e : Event (Result β) => do
      return (⟨e.context, e.whole, e.part, ← e.value⟩ : Event β)) (A := fun _ => False)
    (R := (· = ·)) (g := id) h fun e e' hee => by
      cases hee with
      | mk c w a hv =>
        rw [hv]
        exact Raises.of_ok rfl
  exact (hall.congr (by simp)).mono fun vs hvs => by
    rwa [List.forall₂_eq_eq_eq, List.map_id] at hvs

theorem Agrees.answer {p : Result (Checked Γ β)} {d : Demanding Γ β} (h : Agrees Returns p d)
    (st : State Γ) : Raises (d.opens ∨ d.asks st) (answer p st) (· = d.pattern.query st) := by
  refine Raises.bind h fun q hq => ?_
  exact ((hq.answers st).bind fun es hes => raises_values hes).congr (by rw [or_false])

section Trees

variable {α : Type} [Parseable α] [Enumerable α]

/-- Evaluating the tree, or answering the query, comes to the rate of a layer of size zero. -/
def TPat.Divides (t : TPat α) (st : State Γ) : Prop :=
  (toPat (demanding D) t).opens ∨ (toPat (demanding D) t).asks st

/-- The answer to a query is an exception if it comes to the rate of a layer of size zero, and what the
tree plays otherwise. -/
theorem raises_answer (I : Interpretation (Pattern Γ)) {t : TPat α} (ht : t.Metric fun _ => True)
    (st : State Γ) :
    Raises (t.Divides D st) (answer (toPat (checked J) t) st) (· = (toPat (patterns I) t).query st) := by
  rw [← (demanding_simulates D I).toPat t ht]
  exact ((checked_simulates J D).toPat t ht).1.answer st

/-- No layer of size zero, no division by zero. -/
theorem not_divides {t : TPat α} (ht : t.Metric (· ≠ 0)) (st : State Γ) : ¬t.Divides D st := by
  obtain ⟨-, hq⟩ := (quiet_simulates (mute fun _ => Checked.silence) D).toPat t ht
  exact fun h => h.elim hq.opens (hq.asks st)

theorem stack_opens {ds : List (Demanding Γ β)} {d : Demanding Γ β} (hd : d ∈ ds) (h : d.opens) :
    (Demanding.stack ds).opens := by
  show (ds.foldr Demanding.overlay Demanding.silence).opens
  induction ds with
  | nil => cases hd
  | cons d' ds ih =>
    rcases List.mem_cons.mp hd with rfl | hd
    · exact .inl h
    · exact .inr (ih hd)

/-- A constant rate is divided as soon as the polymeter is evaluated. -/
theorem constant_rate_opens {td : Demanding Γ Time} {r : Time} (hr : td.pattern.pureValue = some (some r))
    {ds : List (ℚ × Demanding Γ β)} {x : ℚ × Demanding Γ β} (hx : x ∈ ds) (hz : x.1 = 0) :
    (polyrhythm (demanding D) ds td).opens := by
  refine stack_opens (List.mem_map_of_mem hx) ?_
  have hv : (Demanding.fmap (· / x.1) td).pattern.pureValue = some (some (r / x.1)) := by
    rw [Demanding.fmap, Pattern.fmap, hr]
    rfl
  show (Demanding.fast { Demanding.fmap (· / x.1) td with divided := td.divided ∨ x.1 = 0 } x.2).opens
  rw [Demanding.fast, Demanding.patternify]
  split
  · exact .inr (.inl (.inr hz))
  · trivial
  · rename_i h
    exact absurd (hv.symm.trans h) (Option.some_ne_none _)

theorem exists_layer_of_size_zero {ps : TPats α} {p : TPat α} (hp : p ∈ ps.toList) (hz : p.size = 0) :
    ∃ x ∈ resolve_tpats (demanding D) ps, x.1 = 0 := by
  refine ⟨resolve_tpat (demanding D) p, ?_, (resolve_tpat_size p).trans hz⟩
  rw [← TPats.ofList_toList ps, resolve_tpats_eq]
  exact List.mem_map_of_mem hp

/-- A polymeter with no rate of its own divides by zero on every query if one of its layers has size
zero. -/
theorem divides_of_size_zero {ps : TPats α} {p : TPat α} (hp : p ∈ ps.toList) (hz : p.size = 0)
    (st : State Γ) : (TPat_Polyrhythm none ps).Divides D st := by
  obtain ⟨x, hx, hxz⟩ := exists_layer_of_size_zero D hp hz
  refine .inl ?_
  rw [toPat]
  cases h : resolve_tpats (demanding D) ps with
  | nil => rw [h] at hx; cases hx
  | cons y xs => exact constant_rate_opens D (r := y.1) rfl (h ▸ hx) hxz

/-- Likewise with a rate that is one number. -/
theorem divides_of_atom {ps : TPats α} {p : TPat α} (hp : p ∈ ps.toList) (hz : p.size = 0) (r : ℚ)
    (st : State Γ) : (TPat_Polyrhythm (some (TPat_Atom none r)) ps).Divides D st := by
  obtain ⟨x, hx, hxz⟩ := exists_layer_of_size_zero D hp hz
  refine .inl ?_
  rw [toPat, toPat]
  exact constant_rate_opens D (r := r) rfl hx hxz

/-- Mini-notation answers a query without dividing by zero exactly if it does not come to the rate of a
layer of size zero. It does not if there is no such layer in the tree, and on every query it does for a polymeter
that has one and no rate, or one number for its rate. -/
theorem mini_notation_answers_iff (t : TPat α) (ht : t.Metric fun _ => True) (st : State Γ) :
    ((∃ es, answer (toPat (checked J) t) st = .ok es) ↔ ¬t.Divides D st) ∧
    (t.Metric (· ≠ 0) → ¬t.Divides D st) ∧
    ∀ (ps : TPats α), ∀ p ∈ ps.toList, p.size = 0 →
      (TPat_Polyrhythm none ps).Divides D st ∧ ∀ r, (TPat_Polyrhythm (some (TPat_Atom none r)) ps).Divides D st :=
  ⟨(raises_answer J D (mute fun _ => Pattern.silence) ht st).returns_iff, fun h => not_divides D h st,
    fun _ _ hp hz => ⟨divides_of_size_zero D hp hz st, fun r => divides_of_atom D hp hz r st⟩⟩

end Trees

/-- `{a b}%4` is answered, and `{}` is not. -/
theorem mini_notation_answers_iff_braces :
    (∃ es, answer (toPat (checked (mute fun _ => Checked.silence)) (TPat_Polyrhythm
      (some (TPat_Atom none 4)) (.cons (TPat_Seq (.cons (TPat_Atom none "a") (.cons
        (TPat_Atom none "b") .nil))) .nil) : TPat String)) (⟨⟨0, 1⟩, ()⟩ : State Unit) = .ok es) ∧
    ¬ ∃ es, answer (toPat (checked (mute fun _ => Checked.silence)) (TPat_Polyrhythm none
      (.cons (TPat_Seq .nil) .nil) : TPat String)) (⟨⟨0, 1⟩, ()⟩ : State Unit) = .ok es := by
  constructor
  · obtain ⟨hiff, hmetric, -⟩ := mini_notation_answers_iff (mute fun _ => Checked.silence)
      (mute fun _ => Demanding.silence) (TPat_Polyrhythm (some (TPat_Atom none 4)) (.cons (TPat_Seq (.cons
        (TPat_Atom none "a") (.cons (TPat_Atom none "b") .nil))) .nil) : TPat String)
      ⟨trivial, fun _ _ => trivial, ⟨trivial, trivial, trivial⟩, trivial⟩ (⟨⟨0, 1⟩, ()⟩ : State Unit)
    refine hiff.mpr (hmetric ⟨trivial, fun p hp => ?_, ⟨trivial, trivial, trivial⟩, trivial⟩)
    rw [List.mem_singleton.mp hp]
    with_unfolding_all decide
  · obtain ⟨hiff, -, hzero⟩ := mini_notation_answers_iff (mute fun _ => Checked.silence)
      (mute fun _ => Demanding.silence) (TPat_Polyrhythm none (.cons (TPat_Seq .nil) .nil) : TPat String)
      ⟨fun _ _ => trivial, trivial, trivial⟩ (⟨⟨0, 1⟩, ()⟩ : State Unit)
    rw [hiff, not_not]
    exact (hzero _ (TPat_Seq .nil) (List.mem_singleton_self _) rfl).1

/-- `<>` divides by zero. -/
theorem empty_angles_divide :
    ¬ ∀ (J : Interpretation fun α => Result (Checked Unit α)) (t : TPat String),
      t.Metric (fun _ => True) → ∀ st : State Unit, st.arc.start < st.arc.stop →
        ∃ es, answer (toPat (checked J) t) st = .ok es := by
  intro h
  let t : TPat String := TPat_Polyrhythm (some (TPat_Atom none 1)) (.cons (TPat_Seq .nil) .nil)
  have ht : t.Metric fun _ => True := ⟨trivial, fun _ _ => trivial, trivial, trivial⟩
  have hdivides : t.Divides (mute fun _ => Demanding.silence) (⟨⟨0, 1⟩, ()⟩ : State Unit) :=
    divides_of_atom _ (List.mem_singleton_self (TPat_Seq .nil)) rfl 1 _
  obtain ⟨e, he⟩ := (raises_answer (mute fun _ => Checked.silence) (mute fun _ => Demanding.silence)
    (mute fun _ => Pattern.silence) ht ⟨⟨0, 1⟩, ()⟩).raised hdivides
  obtain ⟨es, hes⟩ := h (mute fun _ => Checked.silence) t ht ⟨⟨0, 1⟩, ()⟩ zero_lt_one
  cases he.symm.trans hes

end Tidal
