import Tidal.Stream.Values

/-!
# Proofs: resolving stateful values

Every stateful operand adds one level of nesting to the value of an expression, and `resolveState` takes
one level away.
-/

namespace Tidal

open EventF

variable {S : Type}

/-! ## Nesting -/

/-- Under `n` levels of stateful functions, all of which return, there is a plain value. -/
def Nests : ℕ → Value S → Prop
  | 0, v => v.notVState
  | n + 1, v => ∃ f, v = .VState f ∧ ∀ s : S, ∃ s' v', f (.ok s) = .ok (.ok s', v') ∧ Nests n v'

theorem Nests.notVState_iff {n : ℕ} {v : Value S} (h : Nests n v) : v.notVState ↔ n = 0 := by
  cases n with
  | zero => exact iff_of_true h rfl
  | succ n =>
    obtain ⟨f, rfl, _⟩ := h
    exact iff_of_false Bool.false_ne_true n.succ_ne_zero

/-- What is applied to the plain value in the end adds its own levels below. -/
theorem nests_throughState {g : Value S → Value S} {n k : ℕ}
    (hg : ∀ v : Value S, v.notVState → Nests k (g v)) {v : Value S} (hv : Nests n v) :
    Nests (n + k) (Value.throughState g v) := by
  induction n generalizing v with
  | zero =>
    rw [zero_add]
    cases v with
    | VState f => exact absurd hv Bool.false_ne_true
    | _ => exact hg _ hv
  | succ n ih =>
    obtain ⟨f, rfl, hf⟩ := hv
    rw [Nat.add_right_comm]
    refine ⟨_, rfl, fun s => ?_⟩
    obtain ⟨s', v', hr, hv'⟩ := hf s
    refine ⟨s', Value.throughState g v', ?_, ih hv'⟩
    rw [hr]
    rfl

theorem nests_applyFIS (f : ℚ → ℚ) (f' : ℤ → ℤ) (f'' : String → String) {n : ℕ} {v : Value S}
    (hv : Nests n v) : Nests n (Value.applyFIS f f' f'' v) := by
  refine nests_throughState (k := 0) (fun v h => ?_) hv
  cases v with
  | VState f => exact absurd h Bool.false_ne_true
  | _ => rfl

theorem nests_fNum2 (fInt : ℤ → ℤ → ℤ) (fFloat : ℚ → ℚ → ℚ) {i j : ℕ} {x y : Value S}
    (hx : Nests i x) (hy : Nests j y) : Nests (i + j) (Value.fNum2 fInt fFloat x y) := by
  refine nests_throughState (fun x hx => ?_) hx
  rw [← add_zero j]
  refine nests_throughState (k := 0) (fun y hy => ?_) hy
  cases x with
  | VState f => exact absurd hx Bool.false_ne_true
  | VI a => cases y <;> rfl
  | VF a => cases y <;> rfl
  | VN a => cases y <;> rfl
  | _ => rfl

theorem Term.nests_value (x : Term S) : Nests x.stateful x.value := by
  induction x with
  | plain v h => exact h
  | state f h => exact ⟨f, rfl, h⟩
  | applyFIS f f' f'' x ih => exact nests_applyFIS f f' f'' ih
  | fNum2 fInt fFloat x y ihx ihy => exact nests_fNum2 fInt fFloat ihx ihy

/-! ## Resolution -/

/-- One level of nesting is taken away. -/
theorem resolveValue_nests {n : ℕ} {v : Value S} (hv : Nests n v) (s : S) :
    ∃ s' v', resolveValue (.ok s) v = .ok (.ok s', v') ∧ Nests (n - 1) v' := by
  cases n with
  | zero =>
    refine ⟨s, v, ?_, hv⟩
    cases v with
    | VState f => exact absurd hv Bool.false_ne_true
    | _ => rfl
  | succ n =>
    obtain ⟨f, rfl, hf⟩ := hv
    exact hf s

/-- If a step relates every entry to its result by `P`, whatever the accumulator, then `mapAccum` returns
the map of such results. -/
theorem mapAccum_returns {α β σ : Type} {G : σ → Prop} {P : String → β → Prop}
    {f : σ → α → Susp (σ × β)} {l : List (String × α)}
    (hf : ∀ x ∈ l, ∀ s, G s → ∃ s' b, f s x.2 = .ok (s', b) ∧ G s' ∧ P x.1 b) (s : σ) (hs : G s)
    (acc : Map β) :
    ∃ s' m', l.foldlM (fun acc x => do
        let r ← f acc.1 x.2
        return (r.1, acc.2.insert x.1 r.2)) (s, acc) = .ok (s', m') ∧ G s' ∧
      (∀ k b, m'[k]? = some b → acc[k]? = some b ∨ (∃ v, (k, v) ∈ l) ∧ P k b) ∧
      ∀ k, (acc[k]?.isSome ∨ ∃ v, (k, v) ∈ l) → m'[k]?.isSome := by
  induction l generalizing s acc with
  | nil => exact ⟨s, acc, rfl, hs, fun k b h => .inl h, fun k h => by simpa using h⟩
  | cons x l ih =>
    obtain ⟨s₁, b₁, hx, hs₁, hP⟩ := hf x (List.mem_cons_self ..) s hs
    obtain ⟨s', m', hrun, hs', hent, hkey⟩ :=
      ih (fun y hy => hf y (List.mem_cons_of_mem _ hy)) s₁ hs₁ (acc.insert x.1 b₁)
    refine ⟨s', m', ?_, hs', fun k b hb => ?_, fun k hk => hkey k ?_⟩
    · rw [List.foldlM_cons, hx]
      exact hrun
    · rcases hent k b hb with h | ⟨⟨v, hv⟩, hPk⟩
      · rw [Std.ExtTreeMap.getElem?_insert] at h
        split_ifs at h with hk
        · obtain rfl := Std.LawfulEqCmp.eq_of_compare hk
          obtain rfl := Option.some.inj h
          exact .inr ⟨⟨x.2, List.mem_cons_self ..⟩, hP⟩
        · exact .inl h
      · exact .inr ⟨⟨v, List.mem_cons_of_mem _ hv⟩, hPk⟩
    · rw [Std.ExtTreeMap.getElem?_insert]
      split_ifs with hxk
      · exact .inl rfl
      · refine hk.imp_right fun ⟨v, hv⟩ => ?_
        rcases List.mem_cons.mp hv with rfl | hv
        · exact absurd (Std.ReflCmp.compare_self) hxk
        · exact ⟨v, hv⟩

/-- At an onset every entry of the event is resolved by one level. -/
theorem mapAccum_resolveValue (s : S) (m : Map (Term S)) :
    ∃ (s' : S) (vm : ValueMap S),
      Map.mapAccum resolveValue (.ok s) (m.map fun _ x => x.value) = .ok (.ok s', vm) ∧
      (∀ (k : String) v, vm[k]? = some v → ∃ x, m[k]? = some x ∧ Nests (x.stateful - 1) v) ∧
      ∀ k : String, m[k]?.isSome → vm[k]?.isSome := by
  have hentry : ∀ k v, (k, v) ∈ (m.map fun _ x => x.value).toList ↔
      ∃ x, m[k]? = some x ∧ x.value = v := by
    intro k v
    rw [Std.ExtTreeMap.mem_toList_iff_getElem?_eq_some, Std.ExtTreeMap.getElem?_map,
      Option.map_eq_some_iff]
  obtain ⟨_, vm, hrun, ⟨s', rfl⟩, hvm, hkey⟩ := mapAccum_returns (G := fun σ => ∃ s : S, σ = .ok s)
    (P := fun k v => ∃ x, m[k]? = some x ∧ Nests (x.stateful - 1) v) (f := resolveValue)
    (l := (m.map fun _ x => x.value).toList) (fun y hy _ hs => by
      obtain ⟨s, rfl⟩ := hs
      obtain ⟨x, hx, hval⟩ := (hentry y.1 y.2).mp hy
      obtain ⟨s', v, hr, hv⟩ := resolveValue_nests (hval ▸ x.nests_value) s
      exact ⟨.ok s', v, hr, ⟨s', rfl⟩, x, hx, hv⟩) (.ok s) ⟨s, rfl⟩ ∅
  refine ⟨s', vm, ?_, fun k v hv => ?_, fun k hk => hkey k (.inr ?_)⟩
  · rw [Map.mapAccum, Std.ExtTreeMap.foldlM_eq_foldlM_toList]
    exact hrun
  · rcases hvm k v hv with h | ⟨_, h⟩
    · simp at h
    · exact h
  · obtain ⟨x, hx⟩ := Option.isSome_iff_exists.mp hk
    exact ⟨x.value, (hentry k _).mpr ⟨x, hx, rfl⟩⟩

/-- No entry of an event with an onset has two stateful operands. -/
def AtMostOne (e : Event (Map (Term S))) : Prop :=
  e.eventHasOnset → ∀ (k : String) x, e.value[k]? = some x → x.stateful ≤ 1

/-- The event, with the given value. -/
def withValue {α β : Type} (e : Event α) (v : β) : Event β := e.map fun _ => v

theorem resolveEvent_resolved_iff (s : S) (e : Event (Map (Term S))) :
    ∃ s' v', resolveEvent (.ok s) (valueEvent e) = (.ok s', v') ∧
      (Resolved (withValue e v') ↔ AtMostOne e) := by
  by_cases hon : e.eventHasOnset
  · obtain ⟨s', vm, hrun, hvm, hkey⟩ := mapAccum_resolveValue s e.value
    refine ⟨s', .ok vm, ?_, ?_⟩
    · have hon' : (valueEvent e).eventHasOnset = true := hon
      rw [resolveEvent, if_pos hon']
      show ((do (← (Map.mapAccum resolveValue (.ok s) (e.value.map fun _ x => x.value))).1 : Susp S),
        (do return (← (Map.mapAccum resolveValue (.ok s) (e.value.map fun _ x => x.value))).2 :
          Susp (ValueMap S))) = _
      rw [hrun]
      rfl
    · constructor
      · rintro ⟨_, hvm', hplain⟩ _ k x hx
        obtain rfl := Except.ok.inj hvm'
        obtain ⟨v, hv⟩ := Option.isSome_iff_exists.mp (hkey k (by rw [hx]; rfl))
        obtain ⟨x', hx', hnest⟩ := hvm k v hv
        obtain rfl := Option.some.inj (hx.symm.trans hx')
        have := hnest.notVState_iff.mp (hplain k v hv)
        omega
      · intro h
        refine ⟨vm, rfl, fun k v hv => ?_⟩
        obtain ⟨x, hx, hnest⟩ := hvm k v hv
        have := h hon k x hx
        exact hnest.notVState_iff.mpr (by omega)
  · -- stateful values are filtered out
    refine ⟨s, .ok ((e.value.map fun _ x => x.value).filter fun _ v => v.notVState), ?_, ?_⟩
    · have hon' : ¬ (valueEvent e).eventHasOnset = true := hon
      rw [resolveEvent, if_neg hon']
      rfl
    · refine iff_of_true ⟨_, rfl, fun k v hv => ?_⟩ fun h => absurd h hon
      rw [Std.ExtTreeMap.getElem?_filter'] at hv
      exact (Option.filter_eq_some_iff.mp hv).2

/-- **One level of state is resolved.** No stateful value is left in the events just when none of those
that have their onset combines two stateful operands. -/
theorem resolveState_resolved_iff (sMap : S) (es : List (Event (Map (Term S)))) :
    (∀ e ∈ (resolveState (.ok sMap) (es.map valueEvent)).2, Resolved e) ↔ ∀ e ∈ es, AtMostOne e := by
  induction es generalizing sMap with
  | nil => simp [resolveState]
  | cons e es ih =>
    obtain ⟨s', v', hev, hiff⟩ := resolveEvent_resolved_iff sMap e
    rw [List.map_cons, resolveState, hev]
    simp only [List.forall_mem_cons]
    exact and_congr hiff (ih s')

/-- Two counters, each stored under a name of its own. -/
def twoCounters : Term (ValueMap Empty) :=
  let count (x : Option ℚ) : ℚ := x.getD 0 + 1
  .fNum2 (· + ·) (· + ·)
    (.state (statef "a" count) fun _ => ⟨_, _, rfl, rfl⟩)
    (.state (statef "b" count) fun _ => ⟨_, _, rfl, rfl⟩)

/-- One note whose number is the sum of both. -/
def twoCountersNote : Event (Map (Term (ValueMap Empty))) :=
  ⟨⟨[]⟩, some ⟨0, 1⟩, ⟨0, 1⟩, Std.ExtTreeMap.ofList [("n", twoCounters)]⟩

/-- A note whose number is one counter. -/
def counterNote : Event (Map (Term (ValueMap Empty))) :=
  ⟨⟨[]⟩, some ⟨0, 1⟩, ⟨0, 1⟩, (∅ : Map (Term (ValueMap Empty))).insert "n"
    (.state (statef "a" fun x => x.getD 0 + 1) fun _ => ⟨_, _, rfl, rfl⟩)⟩

/-- Two notes in a row are resolved if each has one counter, and not if one of them has two. -/
theorem resolveState_resolved_iff_counter :
    (∀ e ∈ (resolveState (.ok ∅) ([counterNote, counterNote].map valueEvent)).2, Resolved e) ∧
    ¬ ∀ e ∈ (resolveState (.ok ∅) ([counterNote, twoCountersNote].map valueEvent)).2, Resolved e := by
  refine ⟨(resolveState_resolved_iff ∅ _).mpr fun e he => ?_, fun h => ?_⟩
  · obtain rfl : e = counterNote := by simpa using he
    intro _ k x hx
    rw [counterNote, Std.ExtTreeMap.getElem?_insert] at hx
    split_ifs at hx
    · exact Option.some.inj hx ▸ le_rfl
    · simp at hx
  · have hone := (resolveState_resolved_iff ∅ _).mp h twoCountersNote (by simp) (by decide) "n"
      twoCounters rfl
    exact absurd hone (by decide)

theorem resolveState_leaves_state :
    ¬ ∀ e ∈ (resolveState (.ok ∅) [valueEvent twoCountersNote]).2, Resolved e := by
  intro h
  obtain ⟨s', v', hev, hiff⟩ := resolveEvent_resolved_iff ∅ twoCountersNote
  rw [resolveState, hev] at h
  have honset : twoCountersNote.eventHasOnset := by decide
  have hone := hiff.mp (h _ (List.mem_cons_self ..)) honset "n" twoCounters rfl
  exact absurd hone (by decide)

end Tidal
