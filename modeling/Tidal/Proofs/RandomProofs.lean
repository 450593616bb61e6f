import Tidal.UI
import Tidal.Proofs.CutProofs
import Tidal.Proofs.RegularProofs

/-!
# Proofs: random numbers, and the stripes drawn from them

A random pattern is analog: it has one event without a whole for every query. The list of drawn durations
is built from such patterns, and whichever durations it holds, the arcs made of them lie end to end in the
cycle.
-/

namespace Tidal

open EventF Pattern Tiling

variable {Γ α β γ : Type}

/-! ## Signals -/

/-- Every query of some width is answered, by parts of some width inside of it. All values are as `P`
says. -/
def Heard (P : α → Prop) (p : Pattern Γ α) : Prop :=
  ∀ a m, a.start < a.stop → p.query ⟨a, m⟩ ≠ [] ∧
    ∀ e ∈ p.query ⟨a, m⟩, Within e.part a ∧ e.part.start < e.part.stop ∧ P e.value

/-- An analog pattern that is heard at every time. -/
structure Signal (P : α → Prop) (p : Pattern Γ α) : Prop where
  analog : ∀ st, ∀ e ∈ p.query st, e.whole = none
  heard : Heard P p

variable {P : α → Prop} {Q : β → Prop} {p : Pattern Γ α}

/-- An arc of some width and an arc inside of it intersect in the latter. -/
theorem subArc_of_within {a b : Arc} (h : Within b a) (hpos : b.start < b.stop) :
    subArc a b = some b := by
  have hb : isIn b b.start := ⟨le_rfl, hpos⟩
  rw [subArc_of_isIn (h.isIn hb) hb, sect, max_eq_right h.1, min_eq_right h.2.2]

theorem heard_of_act (hw : WellFormed True p) (hne : ∀ m a t, isIn a t → act p m a t ≠ 0)
    (hP : Values P p) : Heard P p := by
  refine fun a m ha => ⟨fun h => hne m a a.start ⟨le_rfl, ha⟩ ?_, fun e he => ?_⟩
  · rw [act, h]
    rfl
  · obtain ⟨hin, hpos⟩ := (hw a m ha.le e he).fits
    exact ⟨hin, hpos trivial ha, hP a m ha.le e he⟩

theorem heard_pure {v : α} (hv : P v) : Heard P (Pattern.pure v : Pattern Γ α) := by
  refine heard_of_act (wellFormed_pure v) (fun m a t hat => ?_) fun a m _ e he => ?_
  · rw [act_pure v hat]
    exact Multiset.singleton_ne_zero _
  · obtain ⟨_, _, rfl⟩ := List.mem_map.mp he
    exact hv

theorem signal_rand : Signal (fun _ => True) (rand : Pattern Γ ℚ) where
  analog st e he := by rw [List.mem_singleton.mp he]
  heard a m ha := ⟨List.cons_ne_nil _ _, fun e he => by
    rw [List.mem_singleton.mp he]
    exact ⟨Within.refl ha.le, ha, trivial⟩⟩

theorem Signal.fmap {f : α → β} (h : Signal P p) (hf : ∀ x, P x → Q (f x)) :
    Signal Q (Pattern.fmap f p) where
  analog st e he := by
    obtain ⟨e', he', rfl⟩ := List.mem_map.mp he
    exact h.analog st e' he'
  heard a m ha := by
    obtain ⟨hne, hall⟩ := h.heard a m ha
    refine ⟨fun hnil => hne (List.map_eq_nil_iff.mp hnil), fun e he => ?_⟩
    obtain ⟨e', he', rfl⟩ := List.mem_map.mp he
    obtain ⟨h1, h2, h3⟩ := hall e' he'
    exact ⟨h1, h2, hf _ h3⟩

theorem Signal.rotL (h : Signal P p) (s : Time) : Signal P (Pattern.rotL s p) where
  analog st e he := by
    obtain ⟨e', he', rfl⟩ := List.mem_map.mp he
    show e'.whole.map _ = none
    rw [h.analog _ e' he', Option.map_none]
  heard a m ha := by
    obtain ⟨hne, hall⟩ := h.heard (a.map (· + s)) m (by simpa [ArcF.map] using ha)
    refine ⟨fun hnil => hne (List.map_eq_nil_iff.mp hnil), fun e he => ?_⟩
    obtain ⟨e', he', rfl⟩ := List.mem_map.mp he
    obtain ⟨⟨h1, h2, h3⟩, h4, h5⟩ := hall e' he'
    simp only [ArcF.map] at h1 h3
    exact ⟨⟨by simp only [mapArc, ArcF.map]; linarith, by simp only [mapArc, ArcF.map]; linarith,
      by simp only [mapArc, ArcF.map]; linarith⟩, by simp only [mapArc, ArcF.map]; linarith, h5⟩

/-- Events inside of the events of a signal. An event without a whole is asked about by its part, and what
is found there has no whole either. -/
theorem Signal.nested {R : γ → Prop} {q : Pattern Γ γ} (h : Signal P p)
    {J : Γ → Event α → List (Event β)} {g : Event α → Event β → Option (Event γ)}
    (hq : ∀ a m, q.query ⟨a, m⟩ = (p.query ⟨a, m⟩).flatMap fun e => (J m e).filterMap (g e))
    (hinner : ∀ m e, e.whole = none → e.part.start < e.part.stop → P e.value → J m e ≠ [] ∧
      ∀ ie ∈ J m e, Within ie.part e.part ∧ ie.part.start < ie.part.stop ∧ Q ie.value)
    (hg : ∀ e ie, e.whole = none → ∃ c v, g e ie = (subArc e.part ie.part).map (fun b => ⟨c, none, b, v⟩) ∧
      (P e.value → Q ie.value → R v)) : Signal R q where
  analog st e' he' := by
    rw [hq] at he'
    obtain ⟨e, he, he'⟩ := List.mem_flatMap.mp he'
    obtain ⟨ie, _, hie⟩ := List.mem_filterMap.mp he'
    obtain ⟨c, v, hgv, _⟩ := hg e ie (h.analog st e he)
    rw [hgv] at hie
    obtain ⟨b, _, rfl⟩ := Option.map_eq_some_iff.mp hie
    rfl
  heard a m ha := by
    obtain ⟨hne, hall⟩ := h.heard a m ha
    -- an inner event is kept as it is, but for its whole
    have hkept : ∀ e ∈ p.query ⟨a, m⟩, ∀ ie ∈ J m e, ∃ c v, g e ie = some ⟨c, none, ie.part, v⟩ ∧
        Within ie.part a ∧ ie.part.start < ie.part.stop ∧ R v := by
      intro e he ie hie
      obtain ⟨hin, hpos, hP⟩ := hall e he
      obtain ⟨h1, h2, h3⟩ := (hinner m e (h.analog _ e he) hpos hP).2 ie hie
      obtain ⟨c, v, hgv, hv⟩ := hg e ie (h.analog _ e he)
      rw [subArc_of_within h1 h2, Option.map_some] at hgv
      exact ⟨c, v, hgv, h1.trans hin, h2, hv hP h3⟩
    rw [hq]
    constructor
    · obtain ⟨e, he⟩ := List.exists_mem_of_ne_nil _ hne
      obtain ⟨_, hpos, hP⟩ := hall e he
      obtain ⟨ie, hie⟩ := List.exists_mem_of_ne_nil _ (hinner m e (h.analog _ e he) hpos hP).1
      obtain ⟨c, v, hgv, _⟩ := hkept e he ie hie
      exact List.ne_nil_of_mem (List.mem_flatMap.mpr ⟨e, he, List.mem_filterMap.mpr ⟨ie, hie, hgv⟩⟩)
    · intro e' he'
      obtain ⟨e, he, he'⟩ := List.mem_flatMap.mp he'
      obtain ⟨ie, hie, hgie⟩ := List.mem_filterMap.mp he'
      obtain ⟨c, v, hgv, h1, h2, h3⟩ := hkept e he ie hie
      rw [hgv] at hgie
      obtain rfl := Option.some.inj hgie
      exact ⟨h1, h2, h3⟩

theorem Signal.apRight {pf : Pattern Γ (α → β)} {F : (α → β) → Prop} (hf : Heard F pf) (h : Signal P p)
    (hv : ∀ f x, F f → P x → Q (f x)) : Signal Q (Pattern.apRight pf p) :=
  h.nested (Q := F) (J := fun m ex => pf.query ⟨ex.wholeOrPart, m⟩)
    (g := fun ex ef => withFXWhole ex.whole ef ex)
    (fun a m => by
      simp only [Pattern.apRight, keepTactus, applyPatToPatRight, pattern, reduceOption_flatMap_map])
    (fun m ex hex hpos _ => by
      rw [wholeOrPart, hex]
      exact hf _ m hpos)
    fun ex ef hex => ⟨combineContexts [ef.context, ex.context], ef.value ex.value, by
      rw [withFXWhole, hex, subArc_comm]
      cases subArc ex.part ef.part <;> rfl, fun hP hF => hv _ _ hF hP⟩

theorem Signal.ap {pf : Pattern Γ (α → β)} {F : (α → β) → Prop} (hf : Signal F pf) (h : Heard P p)
    (hv : ∀ f x, F f → P x → Q (f x)) : Signal Q (Pattern.ap pf p) :=
  hf.nested (Q := P) (J := fun m ef => p.query ⟨ef.part, m⟩) (g := withFXBoth)
    (fun a m => by
      have hdigital : ∀ b, (filterDigital pf).query ⟨b, m⟩ = [] := fun b =>
        List.filter_eq_nil_iff.mpr fun e he => by
          simp [isDigital, isAnalog, hf.analog _ e he]
      simp only [Pattern.ap, applyPatToPatBoth, pattern]
      -- no event of `pf` is digital
      have hleft : ∀ l₁ l₂ : List (Option (Event β)), l₂ = [] →
          (l₁ ++ l₂).reduceOption = l₁.reduceOption := fun l₁ l₂ h => by rw [h, List.append_nil]
      rw [hleft, ← reduceOption_flatMap_map]
      · congr 1
        refine List.flatMap_congr fun ef hef => ?_
        rw [hf.analog _ ef hef]
      · refine List.flatMap_eq_nil_iff.mpr fun ex _ => ?_
        split
        · rw [hdigital, List.map_nil]
        · rfl)
    (fun m ef _ hpos _ => h _ m hpos)
    fun ef ex hef => ⟨combineContexts [ef.context, ex.context], ef.value ex.value, by
      rw [withFXBoth, hef]
      cases ex.whole <;> cases subArc ef.part ex.part <;> rfl, fun hF hP => hv _ _ hF hP⟩

theorem Signal.unwrap {pp : Pattern Γ (Pattern Γ β)} (h : Signal (Heard Q) pp) :
    Signal Q (Pattern.unwrap pp) :=
  h.nested (Q := Q) (J := fun m e => e.value.query ⟨e.part, m⟩)
    (g := fun e => munge e.context e.whole e.part) (fun _ _ => rfl)
    (fun m e _ hpos hP => hP _ m hpos)
    fun e ie he => ⟨combineContexts [ie.context, e.context], ie.value, by
      rw [munge, he]
      cases ie.whole <;> cases subArc e.part ie.part <;> rfl, fun _ hQ => hQ⟩

/-! ## The drawn durations -/

theorem heard_scale (x y : ℚ) :
    Heard (fun _ => True) (apRight (Pattern.fmap (fun x y v => v * (y - x) + x) (Pattern.pure x))
      (Pattern.pure y) : Pattern Γ (ℚ → ℚ)) := by
  have hf : Coherent (Pattern.fmap (fun x y v : ℚ => v * (y - x) + x) (Pattern.pure x : Pattern Γ ℚ)) :=
    coherent_fmap _ (regular_pure x).toCoherent
  refine heard_of_act (wellFormed_apRight (wellFormed_fmap _ (wellFormed_pure x)) (wellFormed_pure y))
    (fun m a t hat => ?_) fun _ _ _ _ _ => trivial
  rw [act_apRight hf (regular_pure y).toCoherent hat, act_pure y hat, TaggedBag.bind_singleton,
    behaviour, act_fmap, act_pure x (isIn_now t)]
  exact Multiset.singleton_ne_zero _

/-- What is chosen is in the list. -/
theorem signal_choose {xs : List α} (hne : xs ≠ []) : Signal (· ∈ xs) (choose xs : Pattern Γ α) := by
  match xs, hne with
  | x :: xs, hne =>
    have hrange : Signal (fun _ => True) (range (Pattern.pure 0) (Pattern.pure ((x :: xs).length : ℚ))
        rand : Pattern Γ ℚ) := signal_rand.apRight (heard_scale _ _) fun _ _ _ _ => trivial
    exact hrange.fmap fun v _ => List.get_mem _ _

/-- A list of values, one for each signal. -/
theorem signal_mapM {ι : Type} {f : ι → Pattern Γ α} (hf : ∀ i, Signal P (f i)) {is : List ι}
    (hne : is ≠ []) :
    Signal (fun vs => vs.length = is.length ∧ ∀ v ∈ vs, P v) (Pattern.mapM f is) := by
  have hcons : ∀ i (n : ℕ) (ys : Pattern Γ (List α)), Heard (fun vs => vs.length = n ∧ ∀ v ∈ vs, P v) ys →
      Signal (fun vs => vs.length = n + 1 ∧ ∀ v ∈ vs, P v) (ap (Pattern.fmap List.cons (f i)) ys) :=
    fun i n ys hys => by
      refine ((hf i).fmap (Q := fun g => ∃ v, P v ∧ g = List.cons v) fun v hv => ⟨v, hv, rfl⟩).ap hys ?_
      rintro _ vs ⟨v, hv, rfl⟩ ⟨hlen, hall⟩
      refine ⟨by rw [List.length_cons, hlen], fun y hy => ?_⟩
      rcases List.mem_cons.mp hy with rfl | hy
      · exact hv
      · exact hall y hy
  induction is with
  | nil => exact absurd rfl hne
  | cons i is ih =>
    refine hcons i is.length (Pattern.mapM f is) ?_
    match is, ih with
    | [], _ => exact heard_pure ⟨rfl, fun _ h => nomatch h⟩
    | j :: js, ih => exact (ih (List.cons_ne_nil _ _)).heard

/-- Arcs of the given lengths laid end to end from `t` on. -/
def endToEnd (t : Time) : List ℚ → List Arc
  | [] => []
  | d :: ds => ⟨t, t + d⟩ :: endToEnd (t + d) ds

theorem length_endToEnd (t : Time) (ds : List ℚ) : (endToEnd t ds).length = ds.length := by
  induction ds generalizing t with
  | nil => rfl
  | cons d ds ih => rw [endToEnd, List.length_cons, ih, List.length_cons]

theorem tiles_endToEnd {t : Time} {ds : List ℚ} (hne : ds ≠ []) (hpos : ∀ d ∈ ds, 0 < d) :
    Tiles ArcF.start ArcF.stop t (t + ds.sum) (endToEnd t ds) := by
  induction ds generalizing t with
  | nil => exact absurd rfl hne
  | cons d ds ih =>
    obtain ⟨hd, hds⟩ := List.forall_mem_cons.mp hpos
    have hlt : t < t + d := lt_add_of_pos_right t hd
    rw [List.sum_cons, ← add_assoc, endToEnd]
    cases ds with
    | nil => exact tiles_singleton.mpr ⟨rfl, hlt, by rw [List.sum_nil, add_zero]⟩
    | cons d' ds =>
      exact Tiles.cons (x := ArcF.mk t (t + d)) (ih (List.cons_ne_nil _ _) hds) hlt

/-- The accumulated durations, paired up: the last arc is closed by hand, at the end of the cycle. -/
theorem pairUp'_scanl (t : Time) (ds : List ℚ) (hsum : t + ds.sum = 1) :
    pairUp' (ds.scanl (· + ·) t) = endToEnd t ds := by
  induction ds generalizing t with
  | nil => rfl
  | cons d ds ih =>
    rw [List.sum_cons, ← add_assoc] at hsum
    have hrest := ih (t + d) hsum
    match ds, hsum, hrest with
    | [], hsum, _ =>
      rw [List.sum_nil, add_zero] at hsum
      simp [pairUp', endToEnd, hsum]
    | d' :: ds, _, hrest =>
      rw [List.scanl_cons, endToEnd, ← hrest, List.scanl_cons]
      match hscan : ds.scanl (· + ·) (t + d + d') with
      | [] => simp at hscan
      | x :: xs => rfl

theorem arcsOf_eq {rs : List ℤ} (hne : rs ≠ []) (hpos : ∀ r ∈ rs, 0 < r) :
    ∃ ds : List ℚ, arcsOf rs = endToEnd 0 ds ∧ ds.length = rs.length ∧ (∀ d ∈ ds, 0 < d) ∧ ds.sum = 1 := by
  set rats := rs.map fun r : ℤ => (r : ℚ) with hrats
  have hrpos : ∀ x ∈ rats, 0 < x := by
    intro x hx
    obtain ⟨r, hr, rfl⟩ := List.mem_map.mp hx
    exact_mod_cast hpos r hr
  have htotal : 0 < rats.sum := List.sum_pos _ hrpos (by simpa [hrats] using hne)
  have hone : (rats.map fun r => r / rats.sum).sum = 1 := by
    have h := List.sum_map_mul_right (l := rats) (f := id) (r := rats.sum⁻¹)
    rw [List.map_id] at h
    simp only [id, ← div_eq_mul_inv] at h
    rw [h, div_self htotal.ne']
  refine ⟨rats.map fun r => r / rats.sum, ?_, by simp [hrats], fun d hd => ?_, hone⟩
  · have hlen : rats ≠ [] := by simpa [hrats] using hne
    show pairUp (accumulate (rats.map fun r => r / rats.sum)) = _
    match hl : rats.map fun r => r / rats.sum, hone with
    | [], _ => exact absurd (List.map_eq_nil_iff.mp hl) hlen
    | d :: ds, hone =>
      rw [List.sum_cons] at hone
      rw [accumulate, endToEnd, zero_add, ← pairUp'_scanl d ds hone]
      cases ds with
      | nil => rw [List.scanl_nil]; rfl
      | cons d' ds => rw [List.scanl_cons]; rfl
  · obtain ⟨r, hr, rfl⟩ := List.mem_map.mp hd
    exact div_pos (hrpos r hr) htotal

/-- Whichever durations are drawn, their arcs cut the cycle. -/
theorem cutInto_arcsOf {rs : List ℤ} (hne : rs ≠ []) (hpos : ∀ r ∈ rs, 0 < r) :
    CutInto rs.length 0 1 (arcsOf rs) := by
  obtain ⟨ds, heq, hlen, hds, hsum⟩ := arcsOf_eq hne hpos
  have hdsne : ds ≠ [] := by
    rintro rfl
    exact hne (List.length_eq_zero_iff.mp hlen.symm)
  have htiles := tiles_endToEnd (t := 0) hdsne hds
  rw [hsum, zero_add] at htiles
  rw [heq]
  exact ⟨htiles, by rw [length_endToEnd, hlen]⟩

end Tidal
