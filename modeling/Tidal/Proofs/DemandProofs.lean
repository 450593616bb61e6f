import Tidal.Demand
import Tidal.Proofs.InterpretationProofs

/-!
# Proofs: demand

What a reading with demand plays is what the tree plays, and a tree without layers of size zero demands
nothing. One lemma for each pattern function.
-/

namespace Tidal

open EventF

variable {Γ β γ δ : Type}

/-! ## What is played -/

/-- The demand of a reading stands beside its pattern, so a function makes the same pattern with it as without. -/
theorem _fast_pattern (rate : Time) (d : Demanding Γ β) :
    (d._fast rate).pattern = Pattern._fast rate d.pattern := by
  unfold Demanding._fast Pattern._fast
  split_ifs <;> rfl

theorem _slow_pattern (r : Time) (d : Demanding Γ β) :
    (d._slow r).pattern = Pattern._slow r d.pattern := by
  unfold Demanding._slow Pattern._slow
  split_ifs
  · rfl
  · exact _fast_pattern _ d

theorem fmap_fmap (f : β → γ) (g : γ → δ) (p : Pattern Γ β) :
    Pattern.fmap g (Pattern.fmap f p) = Pattern.fmap (g ∘ f) p := by
  simp only [Pattern.fmap, List.map_map, Option.map_map, Option.map_comp_map]
  rfl

/-- The function with demand is applied where the plain one is: to the cached value, if there is one, and to all
values if not. -/
theorem patternify_pattern {τ : Type} {g : β → Demanding Γ δ} {f : β → τ → Pattern Γ δ} {t : τ}
    (hf : ∀ x, (g x).pattern = f x t) (d : Demanding Γ β) :
    (d.patternify g).pattern = Pattern.patternify (Pattern.strict f) d.pattern t := by
  unfold Demanding.patternify Pattern.patternify
  cases d.pattern.pureValue with
  | none =>
    have hfmap : Pattern.fmap Demanding.pattern (Pattern.fmap g d.pattern) =
        Pattern.fmap (fun a => Pattern.strict f (some a) t) d.pattern := by
      rw [fmap_fmap]
      exact congrArg (Pattern.fmap · d.pattern) (funext hf)
    exact congrArg Pattern.innerJoin hfmap
  | some x =>
    cases x with
    | none => rfl
    | some x => exact hf x

/-- The events that `<*>` makes of an event of the left side. -/
def match' (px : Pattern Γ β) (st : State Γ) (ef : Event (β → δ)) : List (Option (Event δ)) :=
  match ef.whole with
  | none => (px.query { st with arc := ef.part }).map (Pattern.withFXBoth ef)
  | some fWhole => ((Pattern.filterDigital px).query { st with arc := fWhole }).map (Pattern.withFXBoth ef)

/-- The events that `<*>` makes of an analog event of the right side. -/
def matchX (pf : Pattern Γ (β → δ)) (st : State Γ) (ex : Event β) : List (Option (Event δ)) :=
  match ex.whole with
  | none => ((Pattern.filterDigital pf).query { st with arc := ex.part }).map (Pattern.withFXBoth · ex)
  | some _ => []

/-- `<*>` as two lists of pairs: events of the left side, and analog events of the right side. -/
theorem query_ap (pf : Pattern Γ (β → δ)) (px : Pattern Γ β) (st : State Γ) :
    (Pattern.ap pf px).query st = ((pf.query st).flatMap (match' px st) ++
      ((Pattern.filterAnalog px).query st).flatMap (matchX pf st)).reduceOption := rfl

/-- A function applied to the results of a pair is a function composed with the left one. -/
theorem withFXBoth_map (h : γ → δ) (ef : Event (β → γ)) (ex : Event β) :
    (Pattern.withFXBoth ef ex).map (EventF.map h) =
      Pattern.withFXBoth (ef.map fun f x => h (f x)) ex := by
  unfold Pattern.withFXBoth
  show _ = Option.bind (subMaybeArc ef.whole ex.whole) _
  cases subMaybeArc ef.whole ex.whole with
  | none => rfl
  | some w =>
    show Option.map _ (Option.bind (subArc ef.part ex.part) _) = Option.bind (subArc ef.part ex.part) _
    cases subArc ef.part ex.part <;> rfl

/-- So it is for whole patterns: what is done to the values after `<*>` can be done to the functions before. -/
theorem fmap_ap (h : γ → δ) (pf : Pattern Γ (β → γ)) (px : Pattern Γ β) :
    Pattern.fmap h (Pattern.ap pf px) = Pattern.ap (Pattern.fmap (fun f x => h (f x)) pf) px := by
  have hleft : ∀ st ef, (match' px st ef).map (Option.map (EventF.map h)) =
      match' px st (ef.map fun f x => h (f x)) := by
    rintro st ⟨c, w, a, f⟩
    cases w <;> simp only [match', List.map_map, EventF.map] <;>
      exact List.map_congr_left fun ex _ => withFXBoth_map h _ ex
  have hright : ∀ st ex, (matchX pf st ex).map (Option.map (EventF.map h)) =
      matchX (Pattern.fmap (fun f x => h (f x)) pf) st ex := by
    rintro st ⟨c, w, a, x⟩
    cases w with
    | none =>
      simp only [matchX, Pattern.filterDigital, Pattern.filterEvents, Pattern.fmap, List.filter_map,
        List.map_map]
      exact List.map_congr_left fun ef _ => withFXBoth_map h ef _
    | some w => rfl
  have hquery : (Pattern.fmap h (Pattern.ap pf px)).query =
      (Pattern.ap (Pattern.fmap (fun f x => h (f x)) pf) px).query := by
    funext st
    rw [query_ap]
    show ((Pattern.ap pf px).query st).map (EventF.map h) = _
    rw [query_ap, ← List.reduceOption_map, List.map_append, List.map_flatMap, List.map_flatMap]
    simp only [hleft, hright]
    rw [Pattern.fmap, List.flatMap_map]
  exact congrArg (fun q => (⟨q, _, none⟩ : Pattern Γ δ)) hquery

/-- The values of a function that is applied to two patterns are its results. -/
theorem ap_ap_value {α₁ α₂ α₃ : Type} {g : α₁ → α₂ → α₃ → δ} {a : Pattern Γ α₁} {b : Pattern Γ α₂}
    {c : Pattern Γ α₃} {st : State Γ} {e : Event δ}
    (he : e ∈ (Pattern.ap (Pattern.ap (Pattern.fmap g a) b) c).query st) :
    ∃ x y z, e.value = g x y z := by
  have hmap : Pattern.ap (Pattern.ap (Pattern.fmap g a) b) c =
      Pattern.fmap (fun x : α₁ × α₂ × α₃ => g x.1 x.2.1 x.2.2)
        (Pattern.ap (Pattern.ap (Pattern.fmap (fun x y z => (x, y, z)) a) b) c) := by
    rw [fmap_ap, fmap_ap, fmap_fmap]
    rfl
  rw [hmap] at he
  obtain ⟨e', _, rfl⟩ := List.mem_map.mp he
  exact ⟨_, _, _, rfl⟩

/-- A function of three parameters that looks at all of them. -/
def strict3 {α₁ α₂ α₃ τ : Type} (f : α₁ → α₂ → α₃ → τ → Pattern Γ δ) (x : Lazy α₁) (y : Lazy α₂)
    (z : Lazy α₃) (t : τ) : Pattern Γ δ :=
  Pattern.strict (fun x t => Pattern.strict (fun y t => Pattern.strict (fun z t => f x y z t) z t) y t) x t

/-- Three parameters: the cached values are used when all three have one, and the general way is taken otherwise. -/
theorem patternify3_pattern {α₁ α₂ α₃ τ : Type} {g : α₁ → α₂ → α₃ → Demanding Γ δ}
    {f : α₁ → α₂ → α₃ → τ → Pattern Γ δ} {t : τ} (hf : ∀ x y z, (g x y z).pattern = f x y z t)
    (a : Demanding Γ α₁) (b : Demanding Γ α₂) (c : Demanding Γ α₃) :
    (Demanding.patternify3 g a b c).pattern =
      Pattern.patternify3 (strict3 f) a.pattern b.pattern c.pattern t := by
  have hjoined : (Demanding.innerJoin (((a.fmap g).ap b).ap c)).pattern = Pattern.innerJoin
      (Pattern.ap (Pattern.ap (Pattern.fmap (fun x y z => strict3 f (some x) (some y) (some z) t)
        a.pattern) b.pattern) c.pattern) := by
    show Pattern.innerJoin (Pattern.fmap Demanding.pattern
      (Pattern.ap (Pattern.ap (Pattern.fmap g a.pattern) b.pattern) c.pattern)) = _
    rw [fmap_ap, fmap_ap, fmap_fmap]
    exact congrArg (fun k => Pattern.innerJoin (Pattern.ap (Pattern.ap (Pattern.fmap k a.pattern)
      b.pattern) c.pattern)) (funext fun x => funext fun y => funext fun z => hf x y z)
  unfold Demanding.patternify3 Pattern.patternify3
  cases a.pattern.pureValue with
  | none => exact hjoined
  | some x =>
    cases b.pattern.pureValue with
    | none => exact hjoined
    | some y =>
      cases c.pattern.pureValue with
      | none => exact hjoined
      | some z =>
        cases x <;> cases y <;> cases z
        case some.some.some x y z => exact hf x y z
        all_goals rfl

/-- What a list of readings stacks is what the list of their patterns stacks. -/
theorem foldr_overlay_pattern (ds : List (Demanding Γ β)) :
    (ds.foldr Demanding.overlay Demanding.silence).pattern =
      (ds.map Demanding.pattern).foldr Pattern.overlay Pattern.silence := by
  induction ds with
  | nil => rfl
  | cons d ds ih => exact congrArg (Pattern.overlay d.pattern) ih

theorem cat_pattern (ds : List (Demanding Γ β)) :
    (Demanding.cat ds).pattern = Pattern.cat (ds.map Demanding.pattern) := by
  match ds with
  | [] => rfl
  | [d] => rfl
  | d :: d' :: ds => rfl

/-- Apart from the list of one pattern, `fastCat` is `cat` sped up by the length, in all but its tactus. -/
theorem fastCat_query (ds : List (Pattern Γ β)) (hds : ds.length ≠ 1) :
    (Pattern.fastCat ds).query = (Pattern._fast ds.length (Pattern.cat ds)).query ∧
      (Pattern.fastCat ds).pureValue = (Pattern._fast ds.length (Pattern.cat ds)).pureValue := by
  unfold Pattern.fastCat
  split
  · exact absurd rfl hds
  · split <;> exact ⟨rfl, rfl⟩

theorem fastCat_pattern (ds : List (Demanding Γ β)) :
    (Demanding.fastCat ds).pattern = Pattern.fastCat (ds.map Demanding.pattern) := by
  match ds with
  | [] => rfl
  | [d] => rfl
  | d :: d' :: ds => rfl

/-! ## Weights -/

/-- Each slot is as wide as the weight of one of the steps, and has its pattern. -/
theorem of_mem_arrange {τ : Type} {l : List (Time × τ)} {t : Time} {z : Time × Time × τ}
    (hz : z ∈ arrange t l) : ∃ x ∈ l, z.2.1 = z.1 + x.1 ∧ z.2.2 = x.2 := by
  induction l generalizing t with
  | nil => cases hz
  | cons x l ih =>
    rcases List.mem_cons.mp hz with rfl | hz
    · exact ⟨x, List.mem_cons_self .., rfl, rfl⟩
    · obtain ⟨y, hy, heq⟩ := ih hz
      exact ⟨y, List.mem_cons_of_mem _ hy, heq⟩

/-- If there is anything to play, then the weights sum up to more than zero and every arc has a width. -/
theorem arrange_positive {τ : Type} {l : List (Time × τ)} (hl : ∀ x ∈ l, 0 ≤ x.1) {t : Time}
    {z : Time × Time × τ} (hz : z ∈ arrange t (l.filter fun x => x.1 > 0)) :
    0 < (l.map Prod.fst).sum ∧ z.1 < z.2.1 := by
  obtain ⟨x, hx, heq, _⟩ := of_mem_arrange hz
  obtain ⟨hxl, hpos⟩ := List.mem_filter.mp hx
  have hpos : 0 < x.1 := by simpa using hpos
  have hle : x.1 ≤ (l.map Prod.fst).sum :=
    List.single_le_sum (by simpa using hl) _ (List.mem_map_of_mem hxl)
  exact ⟨hpos.trans_le hle, by rw [heq]; exact lt_add_of_pos_right _ hpos⟩

/-- Slots are laid out by the weights alone. -/
theorem arrange_map {τ σ : Type} (f : τ → σ) (l : List (Time × τ)) (t : Time) :
    arrange t (l.map fun x => (x.1, f x.2)) = (arrange t l).map fun z => (z.1, z.2.1, f z.2.2) := by
  induction l generalizing t with
  | nil => rfl
  | cons x l ih => simp only [List.map_cons, arrange, ih]

theorem arrange_eq (l : List (Time × Pattern Γ β)) (t : Time) : Pattern.arrange t l = arrange t l := by
  induction l generalizing t with
  | nil => rfl
  | cons x l ih => simp only [Pattern.arrange, arrange, ih]

/-- The demand of a compressed reading is another one, and the pattern is the compressed pattern. -/
theorem compressArc_pattern (a : Arc) (d : Demanding Γ β) :
    (d.compressArc a).pattern = Pattern.compressArc a d.pattern := by
  unfold Demanding.compressArc Pattern.compressArc Demanding._fastGap Pattern._fastGap
  split_ifs <;> rfl

/-- One step plays as it is; of more than one, the slots are stacked. -/
theorem timeCat_pattern (ds : List (Time × Demanding Γ β)) :
    (Demanding.timeCat ds).pattern = Pattern.timeCat (ds.map fun x => (x.1, x.2.pattern)) := by
  match ds with
  | [] => rfl
  | [d] => rfl
  | d :: d' :: ds => rfl

/-- What `timeCat` stacks. -/
def slots (ds : List (Time × Demanding Γ β)) : List (Demanding Γ β) :=
  (arrange 0 (ds.filter fun x => x.1 > 0)).map fun x =>
    Demanding.compressArc ⟨x.1 / (ds.map Prod.fst).sum, x.2.1 / (ds.map Prod.fst).sum⟩ x.2.2

theorem slots_pattern (ds : List (Time × Demanding Γ β)) :
    (slots ds).map Demanding.pattern =
      (Pattern.arrange 0 ((ds.map fun x => (x.1, x.2.pattern)).filter fun x => x.1 > 0)).map fun x =>
        Pattern.compressArc ⟨x.1 / ((ds.map fun x => (x.1, x.2.pattern)).map Prod.fst).sum,
          x.2.1 / ((ds.map fun x => (x.1, x.2.pattern)).map Prod.fst).sum⟩ x.2.2 := by
  have hfst : (ds.map fun x => (x.1, x.2.pattern)).map Prod.fst = ds.map Prod.fst := by
    rw [List.map_map]; rfl
  have hfilter : ((ds.map fun x => (x.1, x.2.pattern)).filter fun x => x.1 > 0) =
      (ds.filter fun x => x.1 > 0).map fun x => (x.1, x.2.pattern) := by
    rw [List.filter_map]; rfl
  rw [slots, hfst, hfilter, arrange_eq, arrange_map, List.map_map, List.map_map]
  exact List.map_congr_left fun x _ => compressArc_pattern _ _

/-! ## Euclidean rhythms -/

/-- A rhythm plays one reading in the steps that are onsets and another one in the rests. -/
theorem rhythm_pattern {g : Bool → Demanding Γ β} {f : Bool → Pattern Γ β}
    (hg : ∀ b, (g b).pattern = f b) (bs : List Bool) :
    (Demanding.fastCat (bs.map g)).pattern = Pattern.fastCat (bs.map f) := by
  rw [fastCat_pattern, List.map_map]
  exact congrArg Pattern.fastCat (List.map_congr_left fun b _ => hg b)

theorem _euclid_pattern (n k : ℤ) (d : Demanding Γ β) :
    (Demanding._euclid n k d).pattern = Pattern._euclid n k d.pattern := by
  unfold Demanding._euclid Pattern._euclid
  split_ifs
  · exact rhythm_pattern (fun b => by cases b <;> rfl) _
  · exact rhythm_pattern (fun b => by cases b <;> rfl) _

theorem _euclidBool_pattern (n k : ℤ) :
    (Demanding._euclidBool n k : Demanding Γ Bool).pattern = Pattern._euclidBool n k := by
  unfold Demanding._euclidBool Pattern._euclidBool Demanding.fastFromList Pattern.fastFromList
  split_ifs
  · exact rhythm_pattern (fun _ => rfl) _
  · exact rhythm_pattern (fun _ => rfl) _

/-- No steps are silence, before the offset is divided by their number. -/
theorem _euclidOff_pattern (n k s : ℤ) (d : Demanding Γ β) :
    (Demanding._euclidOff n k s d).pattern = Pattern._euclidOff n k s d.pattern := by
  unfold Demanding._euclidOff Pattern._euclidOff
  split_ifs
  · rfl
  · exact congrArg (Pattern.rotL (s / k)) (_euclid_pattern n k d)

theorem _euclidOffBool_pattern (n k s : ℤ) (d : Demanding Γ Bool) :
    (Demanding._euclidOffBool n k s d).pattern = Pattern._euclidOffBool n k s d.pattern := by
  unfold Demanding._euclidOffBool Pattern._euclidOffBool
  split_ifs
  · rfl
  · exact congrArg (fun q => Pattern.rotL (s / k) (Pattern.ap (Pattern.fmap _ q) d.pattern))
      (_euclidBool_pattern n k)

/-! ## Trees -/

/-- What a tree plays does not depend on its demand. -/
theorem demanding_simulates (D : Interpretation (Demanding Γ)) (I : Interpretation (Pattern Γ)) :
    Simulates (fun _ => True) (demanding D) (patterns I)
    fun _ d p => d.pattern = p where
  silence := rfl
  pure _ := rfl
  setContext c hp := congrArg (Pattern.setContext c) hp
  stack hps := by
    obtain rfl := List.forall₂_eq_eq_eq ▸ List.forall₂_map_left_iff.mpr hps
    rfl
  timeCat {_ ds qs} hps _ := by
    have hmap : ds.map (fun x => (x.1, x.2.pattern)) = qs := by
      rw [← List.forall₂_eq_eq_eq, List.forall₂_map_left_iff]
      exact hps.imp fun _ _ hxy => Prod.ext hxy.1 hxy.2
    show (Demanding.timeCat ds).pattern = Pattern.timeCat qs
    rw [timeCat_pattern, hmap]
  fast ht hp := congrArg₂ Pattern.fast ht hp
  slow ht hp := congrArg₂ Pattern.slow ht hp
  layer {_ sz _ _ _ _} _ ht hp := congrArg₂ (fun t p => Pattern.fast (Pattern.fmap (· / sz) t) p) ht hp
  doEuclid how hn hk hs hp := by
    subst hn hk hs hp
    cases how <;> rfl

/-! ## Trees without layers of size zero -/

/-- There is no rate of a layer of size zero to come to. -/
structure Quiet (d : Demanding Γ β) : Prop where
  opens : ¬d.opens
  asks : ∀ st, ¬d.asks st

namespace Quiet

variable {d d' : Demanding Γ β}

theorem silence : Quiet (Demanding.silence : Demanding Γ β) := ⟨id, fun _ => id⟩

theorem pure (x : β) : Quiet (Demanding.pure x : Demanding Γ β) := ⟨id, fun _ => id⟩

theorem fmap (h : Quiet d) (f : β → δ) : Quiet (d.fmap f) := ⟨h.opens, h.asks⟩

/-- The pieces of a query are queries, and no query comes to a rate. -/
theorem splitQueries (h : Quiet d) : Quiet d.splitQueries :=
  ⟨h.opens, fun _ ⟨_, _, ha⟩ => h.asks _ ha⟩

theorem rotL (h : Quiet d) (t : Time) : Quiet (d.rotL t) := ⟨h.opens, fun _ => h.asks _⟩

/-- Whatever the factor: the queries are other ones, and none comes to a rate. -/
theorem _fast (h : Quiet d) (rate : Time) : Quiet (d._fast rate) := by
  unfold Demanding._fast
  split_ifs
  · exact silence
  · exact splitQueries ⟨h.opens, fun _ => h.asks _⟩
  · exact ⟨h.opens, fun _ => h.asks _⟩

theorem _slow (h : Quiet d) (r : Time) : Quiet (d._slow r) := by
  unfold Demanding._slow
  split_ifs
  · exact silence
  · exact h._fast _

theorem _fastGap (h : Quiet d) (r : Time) : Quiet (d._fastGap r) := by
  unfold Demanding._fastGap
  split_ifs
  · exact silence
  · exact splitQueries ⟨h.opens, fun _ ha => h.asks _ ha.2⟩

/-- Arcs that are out of order or leave the cycle are silent before anything is asked. -/
theorem compressArc (h : Quiet d) (a : Arc) : Quiet (d.compressArc a) := by
  unfold Demanding.compressArc
  split_ifs
  · exact silence
  · exact silence
  · exact silence
  · exact (h._fastGap _).rotL _

theorem overlay (h : Quiet d) (h' : Quiet d') : Quiet (d.overlay d') :=
  ⟨fun ho => ho.elim h.opens h'.opens, fun st ha => ha.elim (h.asks st) (h'.asks st)⟩

/-- A stack comes to a rate only if one of its layers does. -/
theorem stack {ds : List (Demanding Γ β)} (h : ∀ d ∈ ds, Quiet d) : Quiet (Demanding.stack ds) := by
  have hfold : Quiet (ds.foldr Demanding.overlay Demanding.silence) := by
    induction ds with
    | nil => exact silence
    | cons d ds ih =>
      obtain ⟨hd, hds⟩ := List.forall_mem_cons.mp h
      exact hd.overlay (ih hds)
  exact ⟨hfold.opens, hfold.asks⟩

/-- In each cycle one of the patterns is come to. -/
theorem cat {ds : List (Demanding Γ β)} (h : ∀ d ∈ ds, Quiet d) : Quiet (Demanding.cat ds) := by
  have hget (i : ℕ) : Quiet (ds.getD i Demanding.silence) := by
    by_cases hi : i < ds.length
    · rw [List.getD_eq_getElem _ _ hi]; exact h _ (List.getElem_mem hi)
    · rw [List.getD_eq_default _ _ (not_lt.mp hi)]; exact silence
  match ds with
  | [] => exact silence
  | [d] => exact h d (List.mem_singleton_self d)
  | d :: d' :: ds => exact ⟨id, fun st ⟨a, _, ha⟩ => ha.elim (hget _).opens ((hget _).asks _)⟩

theorem fastCat {ds : List (Demanding Γ β)} (h : ∀ d ∈ ds, Quiet d) : Quiet (Demanding.fastCat ds) := by
  have hfast : Quiet (Demanding._fast ds.length (Demanding.cat ds)) := (cat h)._fast _
  match ds with
  | [] => exact ⟨hfast.opens, hfast.asks⟩
  | [d] => exact h d (List.mem_singleton_self d)
  | d :: d' :: ds => exact ⟨hfast.opens, hfast.asks⟩

/-- Steps of no weight are never come to; the others are asked inside of their slots. -/
theorem timeCat {ds : List (Time × Demanding Γ β)} (h : ∀ x ∈ ds, Quiet x.2) :
    Quiet (Demanding.timeCat ds) := by
  have hslots : Quiet (Demanding.stack (slots ds)) := stack fun d hd => by
    obtain ⟨z, hz, rfl⟩ := List.mem_map.mp hd
    obtain ⟨x, hx, _, heq⟩ := of_mem_arrange hz
    rw [heq]
    exact (h x (List.mem_filter.mp hx).1).compressArc _
  match ds with
  | [] => exact ⟨hslots.opens, hslots.asks⟩
  | [x] => exact h x (List.mem_singleton_self x)
  | x :: x' :: ds => exact ⟨hslots.opens, hslots.asks⟩

/-- The values have to be quiet only as far as they are played. -/
theorem innerJoin {dd : Demanding Γ (Demanding Γ β)} (h : Quiet dd)
    (hv : ∀ st, ∀ e ∈ dd.pattern.query st, Quiet e.value) : Quiet dd.innerJoin := by
  refine ⟨h.opens, fun st ha => ?_⟩
  rcases ha with ha | ⟨e, he, ha⟩
  · exact h.asks st ha
  · exact ha.elim (hv st e he).opens ((hv st e he).asks _)

/-- A cached value that cannot be evaluated is excluded: it would be come to at once. -/
theorem patternify {g : β → Demanding Γ δ} (h : Quiet d) (hd : d.pattern.pureValue ≠ some none)
    (hg : ∀ x, Quiet (g x)) : Quiet (d.patternify g) := by
  unfold Demanding.patternify
  split
  · exact ⟨fun ho => ho.elim h.opens (hg _).opens, (hg _).asks⟩
  · exact absurd ‹_› hd
  · refine innerJoin (h.fmap g) fun st e he => ?_
    obtain ⟨e', _, rfl⟩ := List.mem_map.mp he
    exact hg _

/-- Both sides are asked in several ways, and none of them comes to a rate. -/
theorem ap {df : Demanding Γ (β → δ)} (hf : Quiet df) (h : Quiet d) : Quiet (df.ap d) := by
  refine ⟨id, fun st ha => ?_⟩
  rcases ha with ha | ha | ha | ⟨_, _, ha⟩ | ha | ⟨_, _, ha⟩
  · exact hf.opens ha
  · exact h.opens ha
  · exact hf.asks st ha
  · exact h.asks _ ha
  · exact h.asks st ha
  · exact hf.asks _ ha

/-- The three caches are looked at one after the other, and each only if those before it hold a value. -/
theorem patternify3 {α₁ α₂ α₃ : Type} {g : α₁ → α₂ → α₃ → Demanding Γ δ} {a : Demanding Γ α₁}
    {b : Demanding Γ α₂} {c : Demanding Γ α₃} (ha : Quiet a) (hb : Quiet b) (hc : Quiet c)
    (ha' : a.pattern.pureValue ≠ some none) (hb' : b.pattern.pureValue ≠ some none)
    (hc' : c.pattern.pureValue ≠ some none) (hg : ∀ x y z, Quiet (g x y z)) :
    Quiet (Demanding.patternify3 g a b c) := by
  have hjoined : Quiet (Demanding.innerJoin (((a.fmap g).ap b).ap c)) := by
    refine innerJoin (((ha.fmap g).ap hb).ap hc) fun st e he => ?_
    obtain ⟨x, y, z, heq⟩ := ap_ap_value he
    rw [heq]
    exact hg x y z
  unfold Demanding.patternify3
  split
  · exact ⟨ha.opens, hjoined.asks⟩
  · exact ⟨fun ho => ho.elim ha.opens hb.opens, hjoined.asks⟩
  · exact ⟨fun ho => ho.elim ha.opens fun ho => ho.elim hb.opens hc.opens, hjoined.asks⟩
  · exact ⟨fun ho => ho.elim ha.opens fun ho => ho.elim hb.opens fun ho => ho.elim hc.opens (hg _ _ _).opens,
      (hg _ _ _).asks⟩
  · rename_i x y z hnot hx hy hz
    obtain ⟨x, rfl⟩ := Option.ne_none_iff_exists'.mp fun h => ha' (h ▸ hx)
    obtain ⟨y, rfl⟩ := Option.ne_none_iff_exists'.mp fun h => hb' (h ▸ hy)
    obtain ⟨z, rfl⟩ := Option.ne_none_iff_exists'.mp fun h => hc' (h ▸ hz)
    exact (hnot x y z rfl rfl rfl).elim

theorem rhythm {g : Bool → Demanding Γ β} (hg : ∀ b, Quiet (g b)) (bs : List Bool) :
    Quiet (Demanding.fastCat (bs.map g)) := fastCat fun d hd => by
  obtain ⟨b, _, rfl⟩ := List.mem_map.mp hd
  exact hg b

/-- A rhythm without steps asks for nothing. -/
theorem _euclidOff (h : Quiet d) (n k s : ℤ) : Quiet (Demanding._euclidOff n k s d) := by
  unfold Demanding._euclidOff Demanding._euclid
  split_ifs
  · exact silence
  · exact (rhythm (fun b => by cases b; exacts [silence, h]) _).rotL _
  · exact (rhythm (fun b => by cases b; exacts [h, silence]) _).rotL _

theorem _euclidOffBool {d : Demanding Γ Bool} (h : Quiet d) (n k s : ℤ) :
    Quiet (Demanding._euclidOffBool n k s d) := by
  have hbool : Quiet (Demanding._euclidBool n k : Demanding Γ Bool) := by
    unfold Demanding._euclidBool
    split_ifs
    · exact rhythm Quiet.pure _
    · exact rhythm Quiet.pure _
  unfold Demanding._euclidOffBool
  split_ifs
  · exact silence
  · exact ((hbool.fmap _).ap h).rotL _

end Quiet

/-- The place where a rate is divided: the rate pattern must not be one that divides by a size of zero. -/
theorem Quiet.fast {td : Demanding Γ Time} {d : Demanding Γ β} (ht : Quiet td) (hz : ¬td.divided)
    (htd : td.pattern.pureValue ≠ some none) (h : Quiet d) : Quiet (td.fast d) := by
  have hfast := ht.patternify (g := fun r => { d._fast r with opens := td.divided ∨ (d._fast r).opens }) htd
    fun r => ⟨fun ho => ho.elim hz (h._fast r).opens, (h._fast r).asks⟩
  exact ⟨hfast.opens, hfast.asks⟩

theorem Quiet.slow {td : Demanding Γ Time} {d : Demanding Γ β} (ht : Quiet td)
    (htd : td.pattern.pureValue ≠ some none) (h : Quiet d) : Quiet (td.slow d) := by
  have hslow := ht.patternify (g := fun r => d._slow r) htd fun r => h._slow r
  exact ⟨hslow.opens, hslow.asks⟩

end Tidal
