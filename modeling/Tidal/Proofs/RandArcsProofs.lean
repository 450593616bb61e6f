import Tidal.Proofs.StripeProofs

/-!
# Proofs: the arcs of the stripes

Whatever `randArcs` answers to a query, it is a cut of the cycle into the given number of arcs, and in each
cycle the stripes of `randStruct` are such a cut, moved to the cycle.
-/

namespace Tidal

open EventF Pattern Tiling

variable {Γ α β : Type}

/-! ## Values that are answered to any query -/

/-- Whatever is asked, the values of the answer satisfy `P`. -/
def Says (P : α → Prop) (p : Pattern Γ α) : Prop := ∀ st, ∀ e ∈ p.query st, P e.value

variable {P : α → Prop} {Q : β → Prop} {p : Pattern Γ α}

theorem says_pure {v : α} (hv : P v) : Says P (Pattern.pure v : Pattern Γ α) := by
  intro st e he
  obtain ⟨_, _, rfl⟩ := List.mem_map.mp he
  exact hv

theorem Says.fmap {f : α → β} (h : Says P p) (hf : ∀ x, P x → Q (f x)) : Says Q (Pattern.fmap f p) := by
  intro st e he
  obtain ⟨e', he', rfl⟩ := List.mem_map.mp he
  exact hf _ (h st e' he')

theorem Says.rotL (h : Says P p) (t : Time) : Says P (Pattern.rotL t p) := by
  intro st e he
  obtain ⟨e', he', rfl⟩ := List.mem_map.mp he
  exact h _ e' he'

theorem withFXBoth_value {ef : Event (α → β)} {ex : Event α} {e : Event β} (h : withFXBoth ef ex = some e) :
    e.value = ef.value ex.value := by
  obtain ⟨_, _, h⟩ := Option.bind_eq_some_iff.mp h
  obtain ⟨_, _, h⟩ := Option.bind_eq_some_iff.mp h
  obtain rfl := Option.some.inj h
  rfl

/-- An event of `<*>` applies the value of an event on the left to that of an event on the right. -/
theorem mem_ap {pf : Pattern Γ (α → β)} {st : State Γ} {e : Event β} (he : e ∈ (ap pf p).query st) :
    ∃ st₁ st₂, ∃ ef ∈ pf.query st₁, ∃ ex ∈ p.query st₂, e.value = ef.value ex.value := by
  obtain ⟨x, hx, hxe⟩ := List.mem_filterMap.mp he
  obtain rfl : x = some e := hxe
  rcases List.mem_append.mp hx with hx | hx
  · obtain ⟨ef, hef, hx⟩ := List.mem_flatMap.mp hx
    cases hw : ef.whole with
    | none =>
      simp only [hw] at hx
      obtain ⟨ex, hex, hx⟩ := List.mem_map.mp hx
      exact ⟨_, _, ef, hef, ex, hex, withFXBoth_value hx⟩
    | some w =>
      simp only [hw] at hx
      obtain ⟨ex, hex, hx⟩ := List.mem_map.mp hx
      exact ⟨_, _, ef, hef, ex, (List.mem_filter.mp hex).1, withFXBoth_value hx⟩
  · obtain ⟨ex, hex, hx⟩ := List.mem_flatMap.mp hx
    cases hw : ex.whole with
    | none =>
      simp only [hw] at hx
      obtain ⟨ef, hef, hx⟩ := List.mem_map.mp hx
      exact ⟨_, _, ef, (List.mem_filter.mp hef).1, ex, (List.mem_filter.mp hex).1, withFXBoth_value hx⟩
    | some w =>
      simp only [hw] at hx
      cases hx

theorem Says.ap {F : (α → β) → Prop} {pf : Pattern Γ (α → β)} (hf : Says F pf) (h : Says P p)
    (hv : ∀ f x, F f → P x → Q (f x)) : Says Q (Pattern.ap pf p) := by
  intro st e he
  obtain ⟨st₁, st₂, ef, hef, ex, hex, hval⟩ := mem_ap he
  rw [hval]
  exact hv _ _ (hf st₁ ef hef) (h st₂ ex hex)

theorem Says.unwrap {pp : Pattern Γ (Pattern Γ β)} (h : Says (Says Q) pp) : Says Q (Pattern.unwrap pp) := by
  intro st e he
  obtain ⟨oe, hoe, he⟩ := List.mem_flatMap.mp he
  obtain ⟨ie, hie, he⟩ := List.mem_filterMap.mp he
  obtain ⟨_, _, he⟩ := Option.bind_eq_some_iff.mp he
  obtain ⟨_, _, he⟩ := Option.bind_eq_some_iff.mp he
  obtain rfl := Option.some.inj he
  exact h st oe hoe _ ie hie

theorem says_mapM {ι : Type} {f : ι → Pattern Γ α} (hf : ∀ i, Says P (f i)) (is : List ι) :
    Says (fun vs => vs.length = is.length ∧ ∀ v ∈ vs, P v) (Pattern.mapM f is) := by
  induction is with
  | nil => exact says_pure ⟨rfl, fun v hv => (List.not_mem_nil hv).elim⟩
  | cons i is ih =>
    refine ((hf i).fmap (Q := fun g => ∃ v, P v ∧ g = List.cons v) fun v hv => ⟨v, hv, rfl⟩).ap ih ?_
    rintro _ vs ⟨v, hv, rfl⟩ ⟨hlen, hall⟩
    exact ⟨by rw [List.length_cons, List.length_cons, hlen], List.forall_mem_cons.mpr ⟨hv, hall⟩⟩

theorem says_choose {xs : List α} : Says (· ∈ xs) (choose xs : Pattern Γ α) := by
  cases xs with
  | nil => exact fun st e he => (List.not_mem_nil he).elim
  | cons x xs =>
    intro st e he
    obtain ⟨e', _, rfl⟩ := List.mem_map.mp he
    exact List.get_mem _ _

/-! ## The arcs -/

variable {n : ℤ}

/-- `n` durations are drawn, each from the list. -/
theorem says_randArcs (n : ℤ) :
    Says (fun ws => ∃ rs : List ℤ, rs.length = n.toNat ∧ (∀ r ∈ rs, r ∈ [1, 2, 3]) ∧ ws = arcsOf rs)
      (randArcs n : Pattern Γ (List Arc)) := by
  have hdraw : ∀ x : ℤ, Says (· ∈ [1, 2, 3])
      (patternify' (strict rotL) (Pattern.pure ((x : ℚ) / n)) (choose [1, 2, 3]) : Pattern Γ ℤ) :=
    fun x => says_choose.rotL _
  refine ((says_mapM hdraw _).fmap fun rs hrs => ?_).unwrap
  obtain ⟨hlen, hall⟩ := hrs
  rw [List.length_map, List.length_range] at hlen
  exact says_pure ⟨rs, hlen, hall, rfl⟩

theorem cutInto_of_length (hn : 1 ≤ n) {rs : List ℤ} (hlen : (rs.length : ℤ) = n) (hpos : ∀ r ∈ rs, 0 < r) :
    CutInto n 0 1 (arcsOf rs) := by
  have hne : rs ≠ [] := by
    rintro rfl
    rw [List.length_nil] at hlen
    omega
  rw [← hlen]
  exact cutInto_arcsOf hne hpos

theorem wholes_randStruct [EmptyCollection Γ] (hn : 1 ≤ n) (c : ℤ) (m : Γ) :
    ((randStruct n).query ⟨⟨c, c + 1⟩, m⟩).filterMap whole =
      (drawn Γ n c).map fun w => w.map (· + (c : Time)) := by
  have hsnd : (enumerate (drawn Γ n c)).map Prod.snd = drawn Γ n c := by
    rw [enumerate, List.map_snd_zip]
    simp
  rw [randStruct_cycle hn, List.filterMap_map, stripesOf, List.filterMap_map]
  conv_rhs => rw [← hsnd, List.map_map]
  exact congrFun List.filterMap_eq_map _

/-- The stripes of a cycle lie end to end in it. -/
theorem cutInto_randStruct [EmptyCollection Γ] (hn : 1 ≤ n) (c : ℤ) (m : Γ) :
    CutInto n c (c + 1) (((randStruct n).query ⟨⟨c, c + 1⟩, m⟩).filterMap whole) := by
  have hcut := drawn_spec (Γ := Γ) hn c
  have hmono : StrictMono (· + (c : Time)) := fun s t h => by simpa using h
  have htiles : Tiles ArcF.start ArcF.stop (0 + (c : Time)) (1 + c)
      ((drawn Γ n c).map fun w => w.map (· + (c : Time))) :=
    hcut.toTiles.map hmono (fun _ => rfl) fun _ => rfl
  rw [zero_add, add_comm] at htiles
  rw [wholes_randStruct hn]
  exact ⟨htiles, by rw [List.length_map]; exact hcut.count⟩

/-- **The arcs of `randArcs`**: whichever durations are drawn, they cut the cycle into `n` arcs, whose widths
add up to one cycle. In every cycle the stripes are such a cut. -/
theorem randArcs_cutInto [EmptyCollection Γ] (hn : 1 ≤ n) :
    (∀ rs : List ℤ, (rs.length : ℤ) = n → (∀ r ∈ rs, 0 < r) → CutInto n 0 1 (arcsOf rs)) ∧
      (∀ st : State Γ, (st.arc.start < st.arc.stop → (randArcs n).query st ≠ []) ∧
        ∀ e ∈ (randArcs n).query st, CutInto n 0 1 e.value ∧
          (e.value.map fun w => w.stop - w.start).sum = 1) ∧
      ∀ (c : ℤ) (m : Γ), CutInto n c (c + 1) (((randStruct n).query ⟨⟨c, c + 1⟩, m⟩).filterMap whole) := by
  refine ⟨fun rs hlen hpos => cutInto_of_length hn hlen hpos, fun st => ⟨fun hst => ?_, fun e he => ?_⟩,
    cutInto_randStruct hn⟩
  · exact ((signal_randArcs hn).heard st.arc st.controls hst).1
  · obtain ⟨rs, hlen, hmem, hval⟩ := says_randArcs n st e he
    have hcut : CutInto n 0 1 e.value := by
      rw [hval]
      refine cutInto_of_length hn (by omega) fun r hr => ?_
      have := hmem r hr
      simp only [List.mem_cons, List.not_mem_nil, or_false] at this
      omega
    exact ⟨hcut, hcut.sum_widths.trans (sub_zero 1)⟩

/-- Two stripes, of one and of three shares. -/
theorem randArcs_cutInto_two : CutInto 2 0 1 (arcsOf [1, 3]) ∧ arcsOf [1, 3] = [⟨0, 1 / 4⟩, ⟨1 / 4, 1⟩] := by
  refine ⟨(randArcs_cutInto (Γ := List ℤ) (n := 2) (by decide)).1 [1, 3] rfl ?_, by with_unfolding_all decide⟩
  decide

end Tidal
