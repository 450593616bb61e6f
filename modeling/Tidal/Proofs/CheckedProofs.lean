import Tidal.Proofs.DemandProofs

/-!
# Proofs: checked divisions

The pattern functions with checked divisions raise exactly where the demand says, and otherwise play what
the patterns play. One lemma for each pattern function.
-/

namespace Tidal

open EventF

variable {Γ α β γ δ : Type}

/-! ## Divisions -/

theorem ratio_of_ne {x y : ℚ} (hy : y ≠ 0) : ratio x y = .ok (x / y) := if_neg hy

theorem raises_ratio (x sz : ℚ) : Raises (sz = 0) (ratio x sz) (· = x / sz) := by
  by_cases hsz : sz = 0
  · rw [ratio, if_pos hsz]
    exact (Raises.of_error _).congr (iff_of_true trivial hsz)
  · rw [ratio_of_ne hsz]
    exact (Raises.of_ok (Q := (· = x / sz)) rfl).congr (iff_of_false id hsz)

/-! ## Agreement -/

/-- The value is evaluated without an exception. -/
def Returns (v : Result α) (x : α) : Prop := v = .ok x

/-- The same event, but for the value: one is unevaluated. -/
inductive Same (R : Result α → β → Prop) : Event (Result α) → Event β → Prop
  | mk (c : Context) (w : Option Arc) (p : Arc) {v : Result α} {x : β} (h : R v x) :
    Same R ⟨c, w, p, v⟩ ⟨c, w, p, x⟩

abbrev SameEvents (R : Result α → β → Prop) : List (Event (Result α)) → List (Event β) → Prop :=
  List.Forall₂ (Same R)

/-- An evaluated pattern answers like the pattern it is read as, and raises where it is said to. -/
structure Plays (R : Result α → β → Prop) (q : Checked Γ α) (d : Demanding Γ β) : Prop where
  answers : ∀ st, Raises (d.asks st) (q.query st) fun es => SameEvents R es (d.pattern.query st)
  cached : ∃ c : Option β, d.pattern.pureValue = c.map some ∧ Option.Rel R q.pureValue c

def Agrees (R : Result α → β → Prop) (p : Result (Checked Γ α)) (d : Demanding Γ β) : Prop :=
  Raises d.opens p fun q => Plays R q d

variable {R : Result α → β → Prop} {R' : Result γ → δ → Prop} {p : Result (Checked Γ α)}
  {d : Demanding Γ β}

/-- The agreement is about the query and the cached value of the pattern. -/
theorem Agrees.of_pattern (h : Agrees R p d) {q : Pattern Γ β} (hq : q.query = d.pattern.query)
    (hv : q.pureValue = d.pattern.pureValue) {D : Prop} :
    Agrees R p { d with pattern := q, divided := D } :=
  Raises.mono h fun _ hp => ⟨fun st => hq ▸ hp.answers st, hv ▸ hp.cached⟩

theorem Plays.of_opens {q : Checked Γ α} (h : Plays R q d) (O : Prop) : Plays R q { d with opens := O } :=
  ⟨h.answers, h.cached⟩

theorem Plays.not_constant {q : Checked Γ α} (h : Plays R q d) (hd : d.pattern.pureValue = none) :
    q.pureValue = none := by
  obtain ⟨c, hc, hqc⟩ := h.cached
  obtain rfl : c = none := by simpa [hd] using hc.symm
  generalize q.pureValue = v at hqc
  cases hqc
  rfl

theorem Plays.constant {q : Checked Γ α} (h : Plays R q d) {x : Lazy β} (hd : d.pattern.pureValue = some x) :
    ∃ v x', q.pureValue = some v ∧ x = some x' ∧ R v x' := by
  obtain ⟨c, hc, hqc⟩ := h.cached
  obtain ⟨x', rfl, rfl⟩ : ∃ x', c = some x' ∧ some x' = x := by simpa [hd] using hc.symm
  generalize q.pureValue = v at hqc
  cases hqc with
  | some hv => exact ⟨_, x', rfl, rfl, hv⟩

/-- A parameter raises, or it is evaluated to a pattern, with or without a cached value. -/
theorem Agrees.evaluated {p : Result (Checked Γ β)} {d : Demanding Γ β} (h : Agrees Returns p d) :
    (d.opens ∧ ∃ e, p = .error e) ∨ ¬d.opens ∧ ∃ q, p = .ok q ∧
      (d.pattern.pureValue = none ∧ q.pureValue = none ∨
        ∃ x, d.pattern.pureValue = some (some x) ∧ q.pureValue = some (.ok x)) := by
  by_cases ho : d.opens
  · exact .inl ⟨ho, h.raised ho⟩
  · obtain ⟨q, rfl, hq⟩ := h.returned ho
    refine .inr ⟨ho, q, rfl, ?_⟩
    cases hd : d.pattern.pureValue with
    | none => exact .inl ⟨rfl, hq.not_constant hd⟩
    | some v =>
      obtain ⟨_, x, hv, rfl, rfl⟩ := hq.constant hd
      exact .inr ⟨x, rfl, hv⟩

/-- The cached value of a pattern that is evaluated is not an error. -/
theorem Agrees.defined (h : Agrees R p d) (ho : ¬d.opens) : d.pattern.pureValue ≠ some none := by
  intro hd
  obtain ⟨q, -, hq⟩ := h.returned ho
  obtain ⟨_, _, _, hx, _⟩ := hq.constant hd
  cases hx

theorem Agrees.values {S : Result α → β → Prop} (h : Agrees R p d) (hS : ∀ v x, R v x → S v x) :
    Agrees S p d := by
  refine Raises.mono h fun q hq => ⟨fun st => ?_, ?_⟩
  · refine (hq.answers st).mono fun es hes => hes.imp fun e e' hee => ?_
    cases hee with
    | mk c w a hv => exact .mk _ _ _ (hS _ _ hv)
  · obtain ⟨c, hc, hqc⟩ := hq.cached
    refine ⟨c, hc, ?_⟩
    generalize q.pureValue = v at hqc
    cases hqc with
    | none => exact .none
    | some hv => exact .some (hS _ _ hv)

/-! ## Events -/

theorem Same.mapArc {f : Arc → Result Arc} {g : Arc → Arc} (hf : ∀ a, f a = .ok (g a))
    {e : Event (Result α)} {e' : Event β} (h : Same R e e') :
    Raises False (Checked.mapArc f e) fun v => Same R v (e'.mapArc g) := by
  obtain rfl : f = fun a => .ok (g a) := funext hf
  cases h with
  | mk c w a h => cases w <;> exact Raises.of_ok (.mk _ _ _ h)

theorem Same.map {f : Result α → Result γ} {g : β → δ} (hf : ∀ v x, R v x → R' (f v) (g x))
    {e : Event (Result α)} {e' : Event β} (h : Same R e e') : Same R' (e.map f) (e'.map g) := by
  cases h with
  | mk c w a h => exact .mk _ _ _ (hf _ _ h)

theorem Same.isDigital {e : Event (Result α)} {e' : Event β} (h : Same R e e') :
    e.isDigital = e'.isDigital := by
  cases h; rfl

theorem Same.isAnalog {e : Event (Result α)} {e' : Event β} (h : Same R e e') :
    e.isAnalog = e'.isAnalog := by
  cases h; rfl

theorem Same.withPart (f : Arc → Arc) {e : Event (Result α)} {e' : Event β} (h : Same R e e') :
    Same R { e with part := f e.part } { e' with part := f e'.part } := by
  cases h with
  | mk c w a h => exact .mk _ _ _ h

theorem Same.withContext (c : Context) {e : Event (Result α)} {e' : Event β} (h : Same R e e') :
    Same R { e with context := c } { e' with context := c } := by
  cases h with
  | mk _ w a h => exact .mk _ _ _ h

theorem Same.makeWholeRelative {e : Event (Result α)} {e' : Event β} (h : Same R e e') :
    Same R (Pattern.makeWholeRelative e) (Pattern.makeWholeRelative e') := by
  cases h with
  | mk c w a h => cases w <;> exact .mk _ _ _ h

theorem Same.makeWholeAbsolute {e : Event (Result α)} {e' : Event β} (h : Same R e e') :
    Same R (Pattern.makeWholeAbsolute e) (Pattern.makeWholeAbsolute e') := by
  cases h with
  | mk c w a h => cases w <;> exact .mk _ _ _ h

/-- What is done to the events of a list one by one. -/
theorem SameEvents.map {es : List (Event (Result α))} {es' : List (Event β)} (h : SameEvents R es es')
    {f : Event (Result α) → Event (Result γ)} {g : Event β → Event δ}
    (hf : ∀ e e', Same R e e' → Same R' (f e) (g e')) : SameEvents R' (es.map f) (es'.map g) :=
  List.rel_map (fun e e' hee => hf e e' hee) h

/-! ## Patterns in time -/

theorem Agrees.silence : Agrees R (Checked.silence : Result (Checked Γ α)) Demanding.silence :=
  Raises.of_ok ⟨fun _ => Raises.of_ok .nil, none, rfl, .none⟩

theorem Agrees.pure {v : Result α} {x : β} (h : R v x) :
    Agrees R (Checked.pure v : Result (Checked Γ α)) (Demanding.pure x) := by
  refine Raises.of_ok ⟨fun st => Raises.of_ok ?_, some x, rfl, .some h⟩
  exact List.rel_map (fun a _ ha => ha ▸ Same.mk _ _ _ h) (List.forall₂_same.mpr fun _ _ => rfl)

theorem rel_map {f : Result α → Result γ} {g : β → δ} (hf : ∀ v x, R v x → R' (f v) (g x))
    {v : Option (Result α)} {c : Option β} (h : Option.Rel R v c) :
    Option.Rel R' (v.map f) (c.map g) := by
  cases h with
  | none => exact .none
  | some hv => exact .some (hf _ _ hv)

theorem Plays.fmap {q : Checked Γ α} (h : Plays R q d) {f : Result α → Result γ} {g : β → δ}
    (hf : ∀ v x, R v x → R' (f v) (g x)) :
    Plays R' ⟨fun st => do return (← q.query st).map (EventF.map f), q.pureValue.map f⟩ (d.fmap g) := by
  refine ⟨fun st => ?_, ?_⟩
  · exact (h.answers st).map fun es hes => hes.map fun _ _ hee => hee.map hf
  · obtain ⟨c, hc, hqc⟩ := h.cached
    refine ⟨c.map g, ?_, rel_map hf hqc⟩
    rw [Demanding.fmap, Pattern.fmap, hc, Option.map_map, Option.map_map]
    rfl

theorem Agrees.fmap (h : Agrees R p d) {f : Result α → Result γ} {g : β → δ}
    (hf : ∀ v x, R v x → R' (f v) (g x)) : Agrees R' (Checked.fmap f p) (d.fmap g) :=
  Raises.map h fun _ hq => hq.fmap hf

theorem Agrees.divided {p : Result (Checked Γ ℚ)} {d : Demanding Γ ℚ} (h : Agrees Returns p d)
    (sz : ℚ) : Agrees (fun v x => Raises (sz = 0) v (· = x))
      (Checked.fmap (fun x => do ratio (← x) sz) p) (d.fmap (· / sz)) := by
  refine h.fmap fun v x hv => ?_
  rw [hv]
  exact raises_ratio x sz

theorem Agrees.setContext (h : Agrees R p d) (c : Context) :
    Agrees R (Checked.setContext c p) (d.setContext c) := by
  refine Raises.map h fun q hq => ⟨fun st => ?_, hq.cached⟩
  exact (hq.answers st).map fun es hes => hes.map fun _ _ hee => hee.withContext c

theorem Agrees.splitQueries (h : Agrees R p d) :
    Agrees R (Checked.splitQueries p) d.splitQueries := by
  refine Raises.map h fun q hq => ⟨fun st => ?_, hq.cached⟩
  exact Raises.concatMapM (List.forall₂_same.mpr fun _ _ => rfl) fun a _ ha => ha ▸ hq.answers _

/-- The times of events are divided by numbers that are not zero. -/
theorem Agrees.withResultArc (h : Agrees R p d) {f : Arc → Result Arc} {g : Arc → Arc}
    (hf : ∀ a, f a = .ok (g a)) : Agrees R (Checked.withResultArc f p) (d.withResultArc g) := by
  refine Raises.map h fun q hq => ⟨fun st => ?_, hq.cached⟩
  refine ((hq.answers st).bind (B := False) fun es hes => ?_).congr (by rw [or_false]; rfl)
  exact (Raises.mapM hes fun e e' hee => hee.mapArc hf).congr (by simp)

theorem Agrees.withQueryTime (h : Agrees R p d) (f : Time → Time) :
    Agrees R (Checked.withQueryTime f p) (d.withQueryTime f) :=
  Raises.map h fun _ hq => ⟨fun _ => hq.answers _, hq.cached⟩

theorem Agrees.rotL (h : Agrees R p d) (t : Time) : Agrees R (Checked.rotL t p) (d.rotL t) :=
  (h.withQueryTime _).withResultArc fun _ => rfl

theorem Agrees.rev (h : Agrees R p d) : Agrees R (Checked.rev p) d.rev := by
  have hrev : Checked.rev p =
      Checked.splitQueries (do let p ← p; return { p with query := Checked.revCycle p }) := by
    cases p <;> rfl
  rw [hrev]
  refine Agrees.splitQueries (d := d.revCycle) (Raises.map h fun q hq => ⟨fun st => ?_, hq.cached⟩)
  refine (hq.answers _).map fun es hes => ?_
  exact ((hes.map fun _ _ he => he.makeWholeRelative).map fun _ _ he => he.withPart _).map
    fun _ _ he => he.makeWholeAbsolute

theorem Agrees._fastForward (h : Agrees R p d) {rate : Time} (hr : rate ≠ 0) :
    Agrees R (Checked._fastForward rate p) (d._fastForward rate) := by
  refine Agrees.of_pattern ((h.withQueryTime _).withResultArc fun a => ?_) rfl rfl
  simp only [ratio_of_ne hr]
  rfl

theorem Agrees._fast (h : Agrees R p d) (rate : Time) :
    Agrees R (Checked._fast rate p) (d._fast rate) := by
  unfold Checked._fast Demanding._fast
  split_ifs with h0 hneg
  · exact .silence
  · exact (h._fastForward (neg_ne_zero.mpr h0)).rev
  · exact h._fastForward h0

theorem Agrees._slow (h : Agrees R p d) (r : Time) :
    Agrees R (Checked._slow r p) (d._slow r) := by
  unfold Checked._slow Demanding._slow
  split_ifs with h0
  · exact .silence
  · rw [ratio_of_ne h0]
    exact h._fast _

/-- A query that starts at the end of the cycle does not come to the pattern, and plays nothing. -/
theorem Plays.gapQuery {q : Checked Γ α} (h : Plays R q d) (r : Time) (st : State Γ) :
    Raises ((d.gapCycle r).asks st) (Checked.gapQuery r q st) fun es =>
      SameEvents R es (Demanding.gapQuery r d.pattern st) := by
  unfold Checked.gapQuery Demanding.gapQuery
  by_cases hs : (Checked.gapArc r st.arc).start = nextSam st.arc.start
  · rw [if_pos hs, if_pos hs]
    exact (Raises.of_ok .nil).congr (iff_of_false id fun h => h.1 hs)
  · rw [if_neg hs, if_neg hs]
    exact (h.answers _).congr (and_iff_right hs).symm

theorem Agrees._fastGap (h : Agrees R p d) (r : Time) :
    Agrees R (Checked._fastGap r p) (d._fastGap r) := by
  unfold Checked._fastGap Demanding._fastGap
  split_ifs with h0
  · exact .silence
  · have hr : max r 1 ≠ 0 := (zero_lt_one.trans_le (le_max_right r 1)).ne'
    have hgap : Agrees R (do let p ← p; return { p with query := Checked.gapQuery (max r 1) p })
        (d.gapCycle (max r 1)) :=
      Raises.map h fun q hq => ⟨fun st => hq.gapQuery (max r 1) st, hq.cached⟩
    have hsplit := (hgap.withResultArc (f := fun a => do
      return ⟨sam a.start + (← ratio (a.start - sam a.start) (max r 1)),
        sam a.start + (← ratio (a.stop - sam a.start) (max r 1))⟩) fun a => by
      simp only [ratio_of_ne hr]
      rfl).splitQueries
    cases p <;> exact hsplit

theorem Agrees.compressArc (h : Agrees R p d) {a : Arc} (ha : a.start ≠ a.stop) :
    Agrees R (Checked.compressArc a p) (d.compressArc a) := by
  unfold Checked.compressArc Demanding.compressArc
  split_ifs
  · exact .silence
  · exact .silence
  · exact .silence
  · rw [ratio_of_ne (sub_ne_zero.mpr ha.symm)]
    exact (h._fastGap _).rotL _

/-! ## Parameters -/

theorem Same.mungeInner (a : Arc) (oc : Context) {e : Event (Result α)} {e' : Event β}
    (h : Same R e e') :
    Option.Rel (Same R) (Pattern.mungeInner a oc e) (Pattern.mungeInner a oc e') := by
  cases h with
  | mk c w p h =>
    unfold Pattern.mungeInner
    cases hp : subArc a p with
    | none => exact .none
    | some p₁ =>
      cases hp' : subArc p₁ a with
      | none => simp only [hp', Option.bind_eq_bind, Option.bind_some, Option.bind_none]; exact .none
      | some p₂ =>
        simp only [hp', Option.bind_eq_bind, Option.bind_some]
        exact .some (.mk _ _ _ h)

/-- What one outer event contributes to `innerJoin`. -/
def innerEvents (st : State Γ) (e : Event (Demanding Γ β)) : List (Event β) :=
  (e.value.pattern.query { st with arc := e.part }).filterMap (Pattern.mungeInner st.arc e.context)

theorem innerJoin_query (dd : Demanding Γ (Demanding Γ β)) (st : State Γ) :
    dd.innerJoin.pattern.query st = (dd.pattern.query st).flatMap (innerEvents st) :=
  List.flatMap_map ..

/-- An inner pattern is evaluated for every outer event. -/
theorem Plays.innerJoin {q : Checked Γ (Checked Γ α)} {dd : Demanding Γ (Demanding Γ β)}
    (h : Plays (Agrees R) q dd) :
    Raises False (Checked.innerJoin (.ok q)) fun q' => Plays R q' dd.innerJoin := by
  refine Raises.of_ok ⟨fun st => ?_, none, rfl, .none⟩
  rw [innerJoin_query]
  refine (h.answers st).bind fun es hes => Raises.concatMapM hes fun e e' hee => ?_
  cases hee with
  | mk c w a hv =>
    refine hv.bind fun v hvd => (hvd.answers _).map fun is his => ?_
    exact List.rel_filterMap (fun _ _ hi => hi.mungeInner _ _) his

/-- A constant parameter is handed over; the events of one that is not constant are. -/
theorem Agrees.patternify {g : β → Demanding Γ δ} {f : Result α → Result (Checked Γ γ)} (h : Agrees R p d)
    (hf : ∀ v x, R v x → Agrees R' (f v) (g x)) : Agrees R' (Checked.patternify f p) (d.patternify g) := by
  unfold Demanding.patternify
  cases hd : d.pattern.pureValue with
  | none =>
    refine (Raises.bind h fun q hq => ?_).congr (by rw [or_false]; rfl)
    rw [hq.not_constant hd]
    exact (hq.fmap hf).innerJoin
  | some x =>
    cases x with
    | none =>
      have hO : d.opens := by
        by_contra hO
        exact h.defined hO hd
      obtain ⟨e, rfl⟩ := h.raised hO
      exact Raises.of_error e
    | some x =>
      refine Raises.bind h fun q hq => ?_
      obtain ⟨v, x', hv, hx, hR⟩ := hq.constant hd
      cases hx
      rw [hv]
      exact (hf v x hR).mono fun _ hq' => hq'.of_opens _

/-- The rate may be one that is divided by zero. -/
theorem Agrees.fast {t : Result (Checked Γ Time)} {td : Demanding Γ Time}
    (ht : Agrees (fun v x => Raises td.divided v (· = x)) t td) (h : Agrees R p d) :
    Agrees R (Checked.fast t p) (td.fast d) := by
  have hfast := ht.patternify (f := fun r => do Checked._fast (← r) p)
    (g := fun r => { d._fast r with opens := td.divided ∨ (d._fast r).opens }) fun v x hv => by
    refine hv.bind fun r hr => ?_
    rw [hr]
    exact (h._fast x).mono fun _ hq => hq.of_opens _
  have hpat := patternify_pattern (g := fun r => { d._fast r with opens := td.divided ∨ (d._fast r).opens })
    (f := Pattern._fast) (t := d.pattern) (fun r => _fast_pattern r d) td
  exact hfast.of_pattern (by rw [hpat]; rfl) (by rw [hpat]; rfl)

theorem Agrees.slow {t : Result (Checked Γ Time)} {td : Demanding Γ Time}
    (ht : Agrees Returns t td) (h : Agrees R p d) :
    Agrees R (Checked.slow t p) (td.slow d) := by
  have hslow := ht.patternify (f := fun r => do Checked._slow (← r) p) (g := fun r => d._slow r)
    fun v x hv => by rw [hv]; exact h._slow x
  have hpat := patternify_pattern (f := Pattern._slow) (fun r => _slow_pattern r d) td
  exact hslow.of_pattern (by rw [hpat]; rfl) (by rw [hpat]; rfl)

/-! ## Two parameters and more -/

/-- A function that is applied to an unevaluated value. -/
def Applies (R : Result α → β → Prop) (R' : Result γ → δ → Prop)
    (f : Result (Result α → Result γ)) (g : β → δ) : Prop :=
  ∃ h, f = .ok h ∧ ∀ v x, R v x → R' (h v) (g x)

theorem Same.withFXBoth {ef : Event (Result (Result α → Result γ))} {ef' : Event (β → δ)}
    (hf : Same (Applies R R') ef ef') {ex : Event (Result α)} {ex' : Event β} (hx : Same R ex ex') :
    Option.Rel (Same R') (Pattern.withFXBoth (ef.map Checked.apply) ex) (Pattern.withFXBoth ef' ex') := by
  cases hf with
  | mk c w a hf =>
  cases hx with
  | mk c' w' a' hx =>
  obtain ⟨h, rfl, hR⟩ := hf
  unfold Pattern.withFXBoth EventF.map
  cases hw : subMaybeArc w w' with
  | none => exact .none
  | some w₁ =>
    cases ha : subArc a a' with
    | none => simp only [Option.bind_eq_bind, Option.bind_some, Option.bind_none]; exact .none
    | some a₁ =>
      simp only [Option.bind_eq_bind, Option.bind_some]
      exact .some (.mk _ _ _ (hR _ _ hx))

theorem SameEvents.filterDigital {es : List (Event (Result α))} {es' : List (Event β)}
    (h : SameEvents R es es') : SameEvents R (es.filter EventF.isDigital) (es'.filter EventF.isDigital) :=
  List.rel_filter (fun _ _ hee => iff_of_eq (congrArg (· = true) hee.isDigital)) h

theorem SameEvents.filterAnalog {es : List (Event (Result α))} {es' : List (Event β)}
    (h : SameEvents R es es') : SameEvents R (es.filter EventF.isAnalog) (es'.filter EventF.isAnalog) :=
  List.rel_filter (fun _ _ hee => iff_of_eq (congrArg (· = true) hee.isAnalog)) h

theorem SameEvents.reduceOption {es : List (Option (Event (Result α)))} {es' : List (Option (Event β))}
    (h : List.Forall₂ (Option.Rel (Same R)) es es') : SameEvents R es.reduceOption es'.reduceOption := by
  unfold List.reduceOption
  exact List.rel_filterMap (fun _ _ hee => hee) h

section Ap

variable {qf : Checked Γ (Result α → Result γ)} {df : Demanding Γ (β → δ)} {qx : Checked Γ α}

theorem Plays.match' (hx : Plays R qx d) (st : State Γ) {ef : Event (Result (Result α → Result γ))}
    {ef' : Event (β → δ)} (hf : Same (Applies R R') ef ef') :
    Raises (d.asks { st with arc := ef'.wholeOrPart }) (Checked.match' qx st ef) fun es =>
      List.Forall₂ (Option.Rel (Same R')) es (match' d.pattern st ef') := by
  cases hf with
  | mk c w a h =>
    have hwith : ∀ e e', Same R e e' → _ := fun _ _ hx => (Same.mk c w a h).withFXBoth hx
    cases w with
    | none => exact (hx.answers _).map fun xs hxs => List.rel_map hwith hxs
    | some w => exact (hx.answers _).map fun xs hxs => List.rel_map hwith hxs.filterDigital

theorem Plays.matchX (hf : Plays (Applies R R') qf df) (st : State Γ) {ex : Event (Result α)}
    {ex' : Event β} (hx : Same R ex ex') (hana : ex.isAnalog) :
    Raises (df.asks { st with arc := ex'.part }) (Checked.matchX qf st ex) fun es =>
      List.Forall₂ (Option.Rel (Same R')) es (matchX df.pattern st ex') := by
  cases hx with
  | mk c w a h =>
    cases w with
    | none =>
      exact (hf.answers _).map fun fs hfs =>
        List.rel_map (fun _ _ hef => hef.withFXBoth (Same.mk c none a h)) hfs.filterDigital
    | some w => exact absurd hana Bool.false_ne_true

/-- Both sides are evaluated by the query, and queried again for the events of the other side. -/
theorem Agrees.ap {pf : Result (Checked Γ (Result α → Result γ))} (hf : Agrees (Applies R R') pf df)
    (hx : Agrees R p d) : Agrees R' (Checked.ap pf p) (df.ap d) := by
  refine Raises.of_ok ⟨fun st => ?_, none, rfl, .none⟩
  show Raises _ _ fun es => SameEvents R' es ((Pattern.ap df.pattern d.pattern).query st)
  rw [query_ap]
  refine Raises.bind hf fun qf hqf => Raises.bind hx fun qx hqx => ?_
  refine Raises.bind (hqf.answers st) fun fs hfs => ?_
  refine Raises.bind (Raises.concatMapM hfs fun _ _ hef => hqx.match' st hef) fun es hes => ?_
  refine Raises.bind (hqx.answers st) fun xs hxs => ?_
  have hanalog := (List.forall₂_and_left _ _).mpr
    ⟨fun ex hex => (List.mem_filter.mp hex).2, hxs.filterAnalog⟩
  refine Raises.map (Raises.concatMapM hanalog fun _ _ hex => hqf.matchX st hex.2 hex.1) fun es' hes' => ?_
  exact SameEvents.reduceOption (List.rel_append hes hes')

end Ap

theorem ok_bind {τ σ : Type} (x : τ) (k : τ → Result σ) : (Except.ok x >>= k) = k x := rfl

section Parameters

variable {α₁ α₂ α₃ : Type} {a : Result (Checked Γ α₁)} {b : Result (Checked Γ α₂)}
  {c : Result (Checked Γ α₃)} {da : Demanding Γ α₁} {db : Demanding Γ α₂} {dc : Demanding Γ α₃}
  {f : Result α₁ → Result α₂ → Result α₃ → Result (Checked Γ γ)} {g : α₁ → α₂ → α₃ → Demanding Γ δ}

/-- The function applied to the events of all three parameters, as the source has it for parameters that
are not constant. -/
theorem Agrees.joined3 (ha : Agrees Returns a da) (hb : Agrees Returns b db) (hc : Agrees Returns c dc)
    (hf : ∀ x y z, Agrees R' (f (.ok x) (.ok y) (.ok z)) (g x y z)) {O : Prop} (hO : ¬O) :
    Agrees R' (Checked.innerJoin (Checked.ap (Checked.ap
        (Checked.fmap (fun x => .ok fun y => .ok fun z => f x y z) a) b) c))
      { Demanding.innerJoin (((da.fmap g).ap db).ap dc) with opens := O } := by
  have hcurried : Agrees (Applies Returns (Applies Returns (Agrees R')))
      (Checked.fmap (fun x => .ok fun y => .ok fun z => f x y z) a) (da.fmap g) :=
    ha.fmap fun v x hv =>
      ⟨_, rfl, fun v' y hv' => ⟨_, rfl, fun v'' z hv'' => hv ▸ hv' ▸ hv'' ▸ hf x y z⟩⟩
  obtain ⟨q, hq, hplays⟩ := ((hcurried.ap hb).ap hc).returned id
  rw [hq]
  exact (hplays.innerJoin.mono fun _ hjoin => hjoin.of_opens O).congr (iff_of_false id hO)

/-- Constant parameters are handed over together; a parameter that is not constant makes them events. -/
theorem Agrees.patternify3 (ha : Agrees Returns a da) (hb : Agrees Returns b db)
    (hc : Agrees Returns c dc)
    (hf : ∀ x y z, Agrees R' (f (.ok x) (.ok y) (.ok z)) (g x y z)) :
    Agrees R' (Checked.patternify3 f a b c) (Demanding.patternify3 g da db dc) := by
  unfold Demanding.patternify3 Checked.patternify3
  rcases ha.evaluated with ⟨hA, e, rfl⟩ | ⟨hA, qa, rfl, ⟨hpa, hqa⟩ | ⟨x, hpa, hqa⟩⟩
  · refine (Raises.of_error e).congr (iff_of_true trivial ?_)
    split <;> first | exact hA | exact .inl hA | trivial
  · simp only [ok_bind, hpa, hqa]
    exact ha.joined3 hb hc hf hA
  simp only [ok_bind, hpa, hqa]
  rcases hb.evaluated with ⟨hB, e, rfl⟩ | ⟨hB, qb, rfl, ⟨hpb, hqb⟩ | ⟨y, hpb, hqb⟩⟩
  · refine (Raises.of_error e).congr (iff_of_true trivial ?_)
    split <;> first | contradiction | simp [hB]
  · simp only [ok_bind, hpb, hqb]
    exact ha.joined3 hb hc hf (by simp [hA, hB])
  simp only [ok_bind, hpb, hqb]
  rcases hc.evaluated with ⟨hC, e, rfl⟩ | ⟨hC, qc, rfl, ⟨hpc, hqc⟩ | ⟨z, hpc, hqc⟩⟩
  · refine (Raises.of_error e).congr (iff_of_true trivial ?_)
    split <;> first | contradiction | simp [hC]
  · simp only [ok_bind, hpc, hqc]
    exact ha.joined3 hb hc hf (by simp [hA, hB, hC])
  · simp only [ok_bind, hpc, hqc]
    exact ((hf x y z).mono fun _ hq => hq.of_opens _).congr (by simp [hA, hB, hC])

end Parameters

/-! ## Combinations -/

theorem Agrees.overlay {p' : Result (Checked Γ α)} {d' : Demanding Γ β} (h : Agrees R p d)
    (h' : Agrees R p' d') : Agrees R (Checked.overlay p p') (d.overlay d') := by
  refine Raises.bind h fun q hq => (Raises.bind (B := False) h' fun q' hq' => ?_).congr (by rw [or_false])
  refine Raises.of_ok ⟨fun st => ?_, none, rfl, .none⟩
  exact (hq.answers st).bind fun es hes => (hq'.answers st).map fun es' hes' =>
    List.rel_append hes hes'

theorem Agrees.stack {ps : List (Result (Checked Γ α))} {ds : List (Demanding Γ β)}
    (h : List.Forall₂ (Agrees R) ps ds) : Agrees R (Checked.stack ps) (Demanding.stack ds) := by
  have hfold : Agrees R (ps.foldr Checked.overlay Checked.silence)
      (ds.foldr Demanding.overlay Demanding.silence) := by
    induction h with
    | nil => exact .silence
    | cons hp _ ih => exact hp.overlay ih
  have hpat := foldr_overlay_pattern ds
  exact hfold.of_pattern (by rw [hpat]; rfl) (by rw [hpat]; rfl)

theorem agrees_getD {ps : List (Result (Checked Γ α))} {ds : List (Demanding Γ β)}
    (h : List.Forall₂ (Agrees R) ps ds) (i : ℕ) :
    Agrees R (ps.getD i Checked.silence) (ds.getD i Demanding.silence) := by
  induction h generalizing i with
  | nil => exact .silence
  | cons hp _ ih =>
    cases i with
    | zero => exact hp
    | succ i => exact ih i

/-- The number of patterns is not zero. -/
theorem raises_catCycle {ps : List (Result (Checked Γ α))} {ds : List (Demanding Γ β)}
    (h : List.Forall₂ (Agrees R) ps ds) (hne : ds ≠ []) (st : State Γ) (a : Arc) :
    Raises (Demanding.catAsks ds st a) (Checked.catCycle ps st a) fun es =>
      SameEvents R es (Pattern.catCycle (ds.map Demanding.pattern) st a) := by
  have hn : (ds.length : ℤ) ≠ 0 := by simpa using hne
  unfold Checked.catCycle Demanding.catAsks Pattern.catCycle
  simp only [h.length_eq, mod, div, if_neg hn, ok_bind, List.length_map]
  rw [← show Demanding.pattern (Demanding.silence : Demanding Γ β) = Pattern.silence from rfl,
    List.getD_map]
  have hget := (agrees_getD h (⌊a.start⌋ % (ds.length : ℤ)).toNat).withResultArc
    (f := fun b => .ok (ArcF.map (· + ((⌊a.start⌋ - (⌊a.start⌋ - ⌊a.start⌋ % (ds.length : ℤ)) /
      (ds.length : ℤ) : ℤ) : Time)) b)) fun _ => rfl
  exact Raises.bind hget fun q hq => hq.answers _

theorem Agrees.cat {ps : List (Result (Checked Γ α))} {ds : List (Demanding Γ β)}
    (h : List.Forall₂ (Agrees R) ps ds) : Agrees R (Checked.cat ps) (Demanding.cat ds) := by
  match ps, ds, h with
  | [], [], _ => exact .silence
  | [p], [d], .cons hp .nil => exact hp
  | p :: p' :: ps, d :: d' :: ds, h =>
    refine Raises.of_ok ⟨fun st => ?_, none, rfl, .none⟩
    exact Raises.concatMapM (List.forall₂_same.mpr fun _ _ => rfl) fun a _ ha =>
      ha ▸ raises_catCycle h (List.cons_ne_nil _ _) st a

theorem Agrees.fastCat {ps : List (Result (Checked Γ α))} {ds : List (Demanding Γ β)}
    (h : List.Forall₂ (Agrees R) ps ds) : Agrees R (Checked.fastCat ps) (Demanding.fastCat ds) := by
  have hrest (hds : ds.length ≠ 1) : Agrees R (Checked._fast ps.length (Checked.cat ps))
      { Demanding._fast ds.length (Demanding.cat ds) with
        pattern := Pattern.fastCat (ds.map Demanding.pattern) } := by
    obtain ⟨hq, hv⟩ := fastCat_query (ds.map Demanding.pattern) (by rwa [List.length_map])
    rw [h.length_eq]
    refine ((Agrees.cat h)._fast _).of_pattern ?_ ?_
    · rw [hq, _fast_pattern, cat_pattern, List.length_map]
    · rw [hv, _fast_pattern, cat_pattern, List.length_map]
  match ps, ds, h, hrest with
  | [], [], _, hrest => exact hrest (by simp)
  | [p], [d], .cons hp .nil, _ => exact hp
  | p :: p' :: ps, d :: d' :: ds, h, hrest => exact hrest (by simp)

/-! ## Weighted combinations -/

theorem forall₂_arrange {S : α → β → Prop} {ps : List (Time × α)} {ds : List (Time × β)}
    (h : List.Forall₂ (fun x y => x.1 = y.1 ∧ S x.2 y.2) ps ds) (t : Time) :
    List.Forall₂ (fun x y => x.1 = y.1 ∧ x.2.1 = y.2.1 ∧ S x.2.2 y.2.2) (arrange t ps) (arrange t ds) := by
  induction h generalizing t with
  | nil => exact .nil
  | @cons x y ps ds hxy _ ih =>
    obtain ⟨w, p⟩ := x
    obtain ⟨w', d⟩ := y
    obtain ⟨rfl, hpd⟩ := hxy
    exact .cons ⟨rfl, rfl, hpd⟩ (ih _)

/-- The total is positive where it divides, and so is the width of every arc. -/
theorem agrees_slots {ps : List (Time × Result (Checked Γ α))} {ds : List (Time × Demanding Γ β)}
    (h : List.Forall₂ (fun x y => x.1 = y.1 ∧ Agrees R x.2 y.2) ps ds) (hw : ∀ y ∈ ds, 0 ≤ y.1) :
    List.Forall₂ (Agrees R)
      ((arrange 0 (ps.filter fun x => x.1 > 0)).map fun x => do
        Checked.compressArc ⟨← ratio x.1 (ps.map Prod.fst).sum, ← ratio x.2.1 (ps.map Prod.fst).sum⟩
          x.2.2) (slots ds) := by
  have hfst : ps.map Prod.fst = ds.map Prod.fst :=
    List.forall₂_eq_eq_eq ▸ List.rel_map (fun _ _ hxy => hxy.1) h
  have hfilter : List.Forall₂ (fun x y => x.1 = y.1 ∧ Agrees R x.2 y.2)
      (ps.filter fun x => x.1 > 0) (ds.filter fun x => x.1 > 0) :=
    List.rel_filter (fun _ _ hxy => iff_of_eq (congrArg (fun w : ℚ => decide (w > 0) = true) hxy.1)) h
  have hps : ∀ x ∈ ps, 0 ≤ x.1 := by
    intro x hx
    obtain ⟨y, hy, heq⟩ := List.mem_map.mp (hfst ▸ List.mem_map_of_mem hx)
    exact heq ▸ hw y hy
  have harr := (List.forall₂_and_left _ _).mpr
    ⟨fun z hz => arrange_positive hps hz, forall₂_arrange hfilter 0⟩
  refine List.rel_map ?_ harr
  rintro ⟨s, e, p⟩ ⟨_, _, d⟩ ⟨⟨htotal, hlt⟩, rfl, rfl, hp⟩
  simp only [ratio_of_ne htotal.ne', ok_bind, ← hfst]
  exact hp.compressArc (div_lt_div_of_pos_right hlt htotal).ne

theorem Agrees.timeCat {ps : List (Time × Result (Checked Γ α))} {ds : List (Time × Demanding Γ β)}
    (h : List.Forall₂ (fun x y => x.1 = y.1 ∧ Agrees R x.2 y.2) ps ds) (hw : ∀ y ∈ ds, 0 ≤ y.1) :
    Agrees R (Checked.timeCat ps) (Demanding.timeCat ds) := by
  have hstack := Agrees.stack (agrees_slots h hw)
  match ps, ds, h, hstack with
  | [], [], _, hstack => exact hstack.of_pattern (q := Pattern.timeCat []) rfl rfl
  | [(_, p)], [(_, d)], .cons hp .nil, _ => exact hp.2
  | p :: p' :: ps, d :: d' :: ds, h, hstack =>
    refine hstack.of_pattern ?_ ?_
    · show _ = (Pattern.stack ((slots (d :: d' :: ds)).map Demanding.pattern)).query
      rw [slots_pattern]
      rfl
    · show _ = (Pattern.stack ((slots (d :: d' :: ds)).map Demanding.pattern)).pureValue
      rw [slots_pattern]
      rfl

/-! ## Euclidean rhythms -/

theorem agrees_rhythm {f : Bool → Result (Checked Γ α)} {g : Bool → Demanding Γ β}
    (h : ∀ b, Agrees R (f b) (g b)) (bs : List Bool) :
    Agrees R (Checked.fastCat (bs.map f)) (Demanding.fastCat (bs.map g)) :=
  Agrees.fastCat (List.rel_map (fun b _ hb => hb ▸ h b) (List.forall₂_same.mpr fun _ _ => rfl))

theorem Agrees._euclid (h : Agrees R p d) (n k : ℤ) :
    Agrees R (Checked._euclid n k p) (Demanding._euclid n k d) := by
  unfold Checked._euclid Demanding._euclid
  split_ifs
  · exact agrees_rhythm (fun b => by cases b; exacts [.silence, h]) _
  · exact agrees_rhythm (fun b => by cases b; exacts [h, .silence]) _

theorem agrees_euclidBool (n k : ℤ) :
    Agrees Returns (Checked._euclidBool n k : Result (Checked Γ Bool))
      (Demanding._euclidBool n k) := by
  unfold Checked._euclidBool Demanding._euclidBool Checked.fastFromList Demanding.fastFromList
  split_ifs
  · exact agrees_rhythm (fun b => .pure (R := Returns) rfl) _
  · exact agrees_rhythm (fun b => .pure (R := Returns) rfl) _

theorem Agrees._euclidOff (h : Agrees R p d) (n k s : ℤ) :
    Agrees R (Checked._euclidOff n k s p) (Demanding._euclidOff n k s d) := by
  unfold Checked._euclidOff Demanding._euclidOff
  split_ifs with hk
  · exact .silence
  · rw [ratio_of_ne (Int.cast_ne_zero.mpr hk)]
    exact (h._euclid n k).rotL _

theorem Agrees._euclidOffBool {p : Result (Checked Γ Bool)} {d : Demanding Γ Bool}
    (h : Agrees Returns p d) (n k s : ℤ) :
    Agrees Returns (Checked._euclidOffBool n k s p) (Demanding._euclidOffBool n k s d) := by
  unfold Checked._euclidOffBool Demanding._euclidOffBool
  split_ifs with hk
  · exact .silence
  · rw [ratio_of_ne (Int.cast_ne_zero.mpr hk)]
    refine Agrees.rotL (Agrees.ap ((agrees_euclidBool n k).fmap fun v x hv => ⟨_, rfl, ?_⟩) h) _
    rintro _ y rfl
    rw [hv]
    cases y <;> rfl

theorem Agrees.euclidOff {n k s : Result (Checked Γ ℤ)} {dn dk ds : Demanding Γ ℤ}
    (hn : Agrees Returns n dn) (hk : Agrees Returns k dk) (hs : Agrees Returns s ds)
    (h : Agrees R p d) : Agrees R (Checked.euclidOff n k s p) (Demanding.euclidOff dn dk ds d) := by
  have hoff := hn.patternify3 (f := fun n k s => do Checked._euclidOff (← n) (← k) (← s) p)
    (g := fun n k s => Demanding._euclidOff n k s d) hk hs fun n k s => h._euclidOff n k s
  have hpat := patternify3_pattern (fun n k s => _euclidOff_pattern n k s d) dn dk ds
  exact hoff.of_pattern (by rw [hpat]; rfl) (by rw [hpat]; rfl)

theorem Agrees.euclidOffBool {n k s : Result (Checked Γ ℤ)} {dn dk ds : Demanding Γ ℤ}
    {p : Result (Checked Γ Bool)} {d : Demanding Γ Bool} (hn : Agrees Returns n dn)
    (hk : Agrees Returns k dk) (hs : Agrees Returns s ds) (h : Agrees Returns p d) :
    Agrees Returns (Checked.euclidOffBool n k s p) (Demanding.euclidOffBool dn dk ds d) := by
  have hoff := hn.patternify3 (f := fun n k s => do Checked._euclidOffBool (← n) (← k) (← s) p)
    (g := fun n k s => Demanding._euclidOffBool n k s d) hk hs fun n k s => h._euclidOffBool n k s
  have hpat := patternify3_pattern (fun n k s => _euclidOffBool_pattern n k s d) dn dk ds
  exact hoff.of_pattern (by rw [hpat]; rfl) (by rw [hpat]; rfl)

/-! ## Trees -/

/-- The checked reading raises where the demand says. -/
theorem checked_simulates (J : Interpretation fun α => Result (Checked Γ α))
    (D : Interpretation (Demanding Γ)) : Simulates (fun _ => True) (checked J) (demanding D)
    fun _ p d => Agrees Returns p d ∧ ¬d.divided where
  silence := ⟨.silence, id⟩
  pure _ := ⟨.pure rfl, id⟩
  setContext c hp := ⟨hp.1.setContext c, hp.2⟩
  stack hps := ⟨.stack (hps.imp fun _ _ h => h.1), id⟩
  timeCat {_ ps ds} hps hw := by
    refine ⟨.timeCat (hps.imp fun _ _ h => ⟨h.1, h.2.1⟩) hw, ?_⟩
    show ¬(Demanding.timeCat ds).divided
    match ps, ds, hps with
    | [], [], _ => exact id
    | [p], [d], .cons hp .nil => exact hp.2.2
    | p :: p' :: ps, d :: d' :: ds, _ => exact id
  fast ht hp := by
    refine ⟨Agrees.fast (ht.1.values fun v x hv => ?_) hp.1, id⟩
    rw [hv]
    exact (Raises.of_ok (Q := (· = x)) rfl).congr (iff_of_false id ht.2)
  slow ht hp := ⟨Agrees.slow ht.1 hp.1, id⟩
  layer {_ sz _ _ _ _} _ ht hp := by
    have hdivide := ht.1.divided sz
    refine ⟨Agrees.fast (Agrees.values (hdivide.of_pattern rfl rfl) fun v x hv => ?_) hp.1, id⟩
    exact hv.congr (or_iff_right ht.2).symm
  doEuclid how hn hk hs hp := by
    cases how with
    | euclidOff => exact ⟨.euclidOff hn.1 hk.1 hs.1 hp.1, id⟩
    | euclidOffBool => exact ⟨.euclidOffBool hn.1 hk.1 hs.1 hp.1, id⟩

end Tidal
