import Tidal.Stream.Params
import Tidal.Proofs.ResolveProofs

/-!
# Proofs: lists of stateful controls

The state map holds what is left of the list: after `k` onsets this is the list without its first
`k mod length` values. Other controls may be stateful as well. What they do is compared with a second run,
of the same events without the list.
-/

namespace Tidal

open EventF StateStore

variable {S : Type}

/-! ## Runs over batches -/

section Batches

/-- Passes the state through one batch after the other. -/
def resolveBatches (sMap : Susp S) :
    List (List (Event (Susp (ValueMap S)))) → Susp S × List (List (Event (Susp (ValueMap S))))
  | [] => (sMap, [])
  | es :: ess =>
    let (sMap', es') := resolveState sMap es
    let (sMap'', ess') := resolveBatches sMap' ess
    (sMap'', es' :: ess')

variable {sMap : Susp S}

theorem resolveState_cons (e : Event (Susp (ValueMap S))) (es : List (Event (Susp (ValueMap S)))) :
    resolveState sMap (e :: es) =
      ((resolveState (resolveEvent sMap e).1 es).1,
        withValue e (resolveEvent sMap e).2 :: (resolveState (resolveEvent sMap e).1 es).2) := rfl

theorem resolveState_append (es es' : List (Event (Susp (ValueMap S)))) :
    resolveState sMap (es ++ es') =
      ((resolveState (resolveState sMap es).1 es').1,
        (resolveState sMap es).2 ++ (resolveState (resolveState sMap es).1 es').2) := by
  induction es generalizing sMap with
  | nil => rfl
  | cons e es ih => rw [List.cons_append, resolveState_cons, ih, resolveState_cons, List.cons_append]

theorem length_resolveState (es : List (Event (Susp (ValueMap S)))) :
    (resolveState sMap es).2.length = es.length := by
  induction es generalizing sMap with
  | nil => rfl
  | cons e es ih => rw [resolveState_cons, List.length_cons, List.length_cons, ih]

/-- How the events are divided makes no difference. -/
theorem resolveBatches_flatten (sMap : Susp S) (ess : List (List (Event (Susp (ValueMap S))))) :
    (resolveBatches sMap ess).1 = (resolveState sMap ess.flatten).1 ∧
      (resolveBatches sMap ess).2.flatten = (resolveState sMap ess.flatten).2 ∧
      (resolveBatches sMap ess).2.map List.length = ess.map List.length := by
  induction ess generalizing sMap with
  | nil => exact ⟨rfl, rfl, rfl⟩
  | cons es ess ih =>
    obtain ⟨h1, h2, h3⟩ := ih (resolveState sMap es).1
    rw [List.flatten_cons, resolveState_append, resolveBatches]
    refine ⟨h1, ?_, ?_⟩
    · rw [List.flatten_cons, h2]
    · rw [List.map_cons, List.map_cons, h3, length_resolveState]

end Batches

/-! ## One event, entry by entry -/

section Entries

/-- The step of `Map.mapAccum` that resolves an event. -/
def resolveEntry (acc : Susp S × ValueMap S) (x : String × Value S) : Susp (Susp S × ValueMap S) := do
  let r ← resolveValue acc.1 x.2
  return (r.1, acc.2.insert x.1 r.2)

theorem mapAccum_eq_foldlM (s : Susp S) (vm : ValueMap S) :
    Map.mapAccum resolveValue s vm = vm.toList.foldlM resolveEntry (s, ∅) := by
  rw [Map.mapAccum, Std.ExtTreeMap.foldlM_eq_foldlM_toList]
  rfl

variable {s : S} {acc : ValueMap S} {l : List (String × Value S)} {v : Value S} {k name : String}

theorem resolveEntry_ok {s' : Susp S} {w : Value S} (h : resolveValue (.ok s) v = .ok (s', w)) :
    resolveEntry (.ok s, acc) (k, v) = .ok (s', acc.insert k w) := by
  simp only [resolveEntry, h]
  rfl

theorem resolveValue_plain {s : Susp S} (h : v.notVState) : resolveValue s v = .ok (s, v) := by
  cases v with
  | VState _ => cases h
  | _ => rfl

/-- A run over entries leaves other keys alone, and keeps the values that are not stateful. -/
theorem foldlM_resolveEntry_keeps {r r' : Susp S × ValueMap S} (h : l.foldlM resolveEntry r = .ok r') :
    (∀ k : String, (∀ z ∈ l, z.1 ≠ k) → r'.2[k]? = r.2[k]?) ∧
      (l.Pairwise (fun z z' => z.1 ≠ z'.1) → ∀ z ∈ l, z.2.notVState → r'.2[z.1]? = some z.2) := by
  induction l generalizing r with
  | nil =>
    obtain rfl := Except.ok.inj h
    exact ⟨fun k _ => rfl, fun _ z hz => absurd hz List.not_mem_nil⟩
  | cons z l ih =>
    rw [List.foldlM_cons] at h
    cases hz : resolveValue r.1 z.2 with
    | error e =>
      simp only [resolveEntry, hz] at h
      cases h
    | ok q =>
      have hstep : resolveEntry r z = .ok (q.1, r.2.insert z.1 q.2) := by
        simp only [resolveEntry, hz]
        rfl
      rw [hstep] at h
      obtain ⟨hother, hplain⟩ := ih h
      constructor
      · intro k hk
        rw [hother k fun z' hz' => hk z' (List.mem_cons_of_mem _ hz'), Std.ExtTreeMap.getElem?_insert, if_neg]
        rw [compare_eq_iff_eq]
        exact hk z List.mem_cons_self
      · intro hd z' hz' hns
        obtain ⟨hne, hd'⟩ := List.pairwise_cons.mp hd
        rcases List.mem_cons.mp hz' with rfl | hmem
        · rw [resolveValue_plain hns] at hz
          obtain rfl := Except.ok.inj hz
          rw [hother z'.1 fun w hw => (hne w hw).symm, Std.ExtTreeMap.getElem?_insert,
            if_pos (compare_eq_iff_eq.mpr rfl)]
        · exact hplain hd' z' hmem hns

theorem pairwise_toList (vm : ValueMap S) : vm.toList.Pairwise fun z z' => z.1 ≠ z'.1 :=
  Std.ExtTreeMap.distinct_keys_toList.imp fun {z z'} hne heq => hne (by rw [heq, compare_eq_iff_eq])

/-- Values that are not stateful leave the state as it is. -/
theorem foldlM_notVState (hl : ∀ z ∈ l, z.2.notVState) (r : Susp S × ValueMap S) :
    ∃ m, l.foldlM resolveEntry r = .ok (r.1, m) := by
  induction l generalizing r with
  | nil => exact ⟨r.2, rfl⟩
  | cons z l ih =>
    have hz : resolveEntry r z = .ok (r.1, r.2.insert z.1 z.2) := by
      simp only [resolveEntry, resolveValue_plain (hl z List.mem_cons_self)]
      rfl
    rw [List.foldlM_cons, hz]
    exact ih (fun y hy => hl y (List.mem_cons_of_mem _ hy)) (r.1, r.2.insert z.1 z.2)

/-- The controls without the one of that name. -/
def withoutControl (name : String) (vm : ValueMap S) : ValueMap S := vm.filter fun k _ => k != name

theorem resolveEvent_onset {s' : Susp S} {e : Event (ValueMap S)} (he : e.eventHasOnset) {vm : ValueMap S}
    (h : e.value.toList.foldlM resolveEntry (.ok s, ∅) = .ok (s', vm)) :
    resolveEvent (.ok s) (e.map .ok) = (s', .ok vm) := by
  rw [← mapAccum_eq_foldlM] at h
  have he' : (e.map Except.ok : Event (Susp (ValueMap S))).eventHasOnset = true := he
  rw [resolveEvent, if_pos he']
  show ((do (← (Map.mapAccum resolveValue (.ok s) e.value)).1 : Susp S),
    (do return (← (Map.mapAccum resolveValue (.ok s) e.value)).2 : Susp (ValueMap S))) = _
  rw [h]
  rfl

theorem resolveEvent_fragment {e : Event (ValueMap S)} (he : ¬ e.eventHasOnset) (s : S) :
    resolveEvent (.ok s) (e.map .ok) = (.ok s, .ok (e.value.filter fun _ v => v.notVState)) := by
  have he' : ¬ (e.map Except.ok : Event (Susp (ValueMap S))).eventHasOnset = true := he
  rw [resolveEvent, if_neg he']
  rfl

theorem resolveState_notVState {es : List (Event (ValueMap S))}
    (hes : ∀ e ∈ es, ∀ (k : String) v, e.value[k]? = some v → v.notVState) (s : S) :
    (resolveState (.ok s) (es.map (EventF.map .ok))).1 = .ok s := by
  induction es with
  | nil => rfl
  | cons e es ih =>
    have hstate : (resolveEvent (.ok s) (e.map .ok)).1 = .ok s := by
      by_cases hon : e.eventHasOnset
      · obtain ⟨m, hm⟩ := foldlM_notVState (l := e.value.toList) (fun z hz =>
          hes e List.mem_cons_self z.1 z.2 (Std.ExtTreeMap.mem_toList_iff_getElem?_eq_some.mp hz)) (.ok s, ∅)
        rw [resolveEvent_onset hon hm]
      · rw [resolveEvent_fragment hon]
    rw [List.map_cons, resolveState_cons, hstate]
    exact ih fun e' he' => hes e' (List.mem_cons_of_mem _ he')

/-- The entries of a map that has `name` are those before it, its own, and those after it. -/
theorem toList_split {vm : ValueMap S} {v : Value S} (h : vm[name]? = some v) :
    ∃ l₁ l₂, vm.toList = l₁ ++ (name, v) :: l₂ ∧ (withoutControl name vm).toList = l₁ ++ l₂ ∧
      ∀ z ∈ l₁ ++ l₂, z.1 ≠ name := by
  obtain ⟨l₁, l₂, hl⟩ := List.append_of_mem (Std.ExtTreeMap.mem_toList_iff_getElem?_eq_some.mpr h)
  have hd := pairwise_toList vm
  rw [hl, List.pairwise_append, List.pairwise_cons] at hd
  obtain ⟨-, ⟨h₂, -⟩, h₁⟩ := hd
  have hne : ∀ z ∈ l₁ ++ l₂, z.1 ≠ name := by
    intro z hz
    rcases List.mem_append.mp hz with hz | hz
    · exact h₁ z hz (name, v) List.mem_cons_self
    · exact (h₂ z hz).symm
  refine ⟨l₁, l₂, hl, ?_, hne⟩
  rw [withoutControl, Std.ExtTreeMap.toList_filter, hl, List.filter_append,
    List.filter_cons_of_neg (by simp), ← List.filter_append]
  exact List.filter_eq_self.mpr fun z hz => bne_iff_ne.mpr (hne z hz)

end Entries

theorem allPlain_iff {vs : List (Value S)} : Value.allPlain vs ↔ ∀ v ∈ vs, v.plain := by
  induction vs with
  | nil => simp [Value.allPlain]
  | cons v vs ih => rw [Value.allPlain, Bool.and_eq_true, List.forall_mem_cons, ih]

/-! ## The list and the other controls -/

section Others

variable [StateStore S] {name sName : String} {xs : List (Value S)} {s s' t t' : S}

/-- The two state maps have the same entries, apart from the one of the list. -/
def AgreeOff (sName : String) (s t : S) : Prop := ∀ k, k ≠ sName → lookup k s = lookup k t

/-- The value does not use the entry of the list: it returns the same for any two states that agree on the
rest, and leaves the entry as it is. -/
def Ignores (sName : String) : Value S → Prop
  | .VState f => ∀ s t : S, AgreeOff sName s t → ∃ s' t' v,
      f (.ok s) = .ok (.ok s', v) ∧ f (.ok t) = .ok (.ok t', v) ∧
        AgreeOff sName s' t' ∧ lookup sName s' = lookup sName s
  | _ => True

/-- The controls have the list under `name`, and no other one of them uses its state. -/
structure CarriesList (name sName : String) (xs : List (Value S)) (vm : ValueMap S) : Prop where
  list : vm[name]? = some (.VState (statefList sName xs))
  others : ∀ (k : String) v, k ≠ name → vm[k]? = some v → Ignores sName v

theorem resolveValue_ignores {v : Value S} (hv : Ignores sName v) (hst : AgreeOff sName s t) :
    ∃ s' t' w, resolveValue (.ok s) v = .ok (.ok s', w) ∧ resolveValue (.ok t) v = .ok (.ok t', w) ∧
      AgreeOff sName s' t' ∧ lookup sName s' = lookup sName s := by
  cases v with
  | VState f => exact hv s t hst
  | _ => exact ⟨s, t, _, rfl, rfl, hst, rfl⟩

/-- Entries that do not use the state of the list, in two states that agree on the rest. -/
theorem foldlM_ignores {l : List (String × Value S)} (hl : ∀ z ∈ l, Ignores sName z.2)
    (hst : AgreeOff sName s t) {acc acc' : ValueMap S} (hacc : ∀ k, k ≠ name → acc[k]? = acc'[k]?) :
    ∃ s' t' m m', l.foldlM resolveEntry (.ok s, acc) = .ok (.ok s', m) ∧
      l.foldlM resolveEntry (.ok t, acc') = .ok (.ok t', m') ∧
      AgreeOff sName s' t' ∧ lookup sName s' = lookup sName s ∧ ∀ k, k ≠ name → m[k]? = m'[k]? := by
  induction l generalizing s t acc acc' with
  | nil => exact ⟨s, t, acc, acc', rfl, rfl, hst, rfl, hacc⟩
  | cons z l ih =>
    obtain ⟨s₁, t₁, w, hs, ht, hst₁, hlook⟩ := resolveValue_ignores (hl z List.mem_cons_self) hst
    have hacc₁ : ∀ k, k ≠ name → (acc.insert z.1 w)[k]? = (acc'.insert z.1 w)[k]? := by
      intro k hk
      rw [Std.ExtTreeMap.getElem?_insert, Std.ExtTreeMap.getElem?_insert, hacc k hk]
    obtain ⟨s', t', m, m', hm, hm', hst', hlook', hmm⟩ :=
      ih (fun y hy => hl y (List.mem_cons_of_mem _ hy)) hst₁ hacc₁
    refine ⟨s', t', m, m', ?_, ?_, hst', hlook'.trans hlook, hmm⟩
    · rw [List.foldlM_cons, ← Prod.mk.eta (p := z), resolveEntry_ok hs]
      exact hm
    · rw [List.foldlM_cons, ← Prod.mk.eta (p := z), resolveEntry_ok ht]
      exact hm'

/-! ## The state of the list -/

theorem looped_congr (h : lookup sName s = lookup sName t) : looped sName xs s = looped sName xs t := by
  simp only [looped, h]

theorem looped_of_none (h : lookup sName s = none) : looped sName xs s = xs := by
  simp only [looped, h, Option.bind_eq_bind, Option.bind_none, Option.getD_none, ite_self]

theorem looped_ne_nil (hxs : xs ≠ []) (s : S) : looped sName xs s ≠ [] := by
  simp only [looped]
  split
  · exact hxs
  · rename_i hne
    exact fun hnil => hne (List.isEmpty_iff.mpr hnil)

theorem statefList_cons {x : Value S} {rest : List (Value S)} (h : looped sName xs s = x :: rest) :
    statefList sName xs (.ok s) = .ok (.ok (StateMap.insert sName (.VList rest) s), x) := by
  simp only [statefList, bind, Except.bind, h]
  rfl

/-- One value is taken from the list, which starts again behind its end. -/
theorem statefList_step (hxs : xs ≠ []) (hplain : ∀ x ∈ xs, x.plain) {k : ℕ}
    (hs : looped sName xs s = xs.drop (k % xs.length)) :
    ∃ s' x, statefList sName xs (.ok s) = .ok (.ok s', x) ∧ xs[k % xs.length]? = some x ∧
      AgreeOff sName s' s ∧ ∀ s'', lookup sName s'' = lookup sName s' →
        looped sName xs s'' = xs.drop ((k + 1) % xs.length) := by
  have hpos := List.length_pos_iff.mpr hxs
  have hk := Nat.mod_lt k hpos
  obtain ⟨x, rest, hx⟩ : ∃ x rest, xs.drop (k % xs.length) = x :: rest := by
    rw [List.drop_eq_getElem_cons hk]
    exact ⟨_, _, rfl⟩
  have hget : xs[k % xs.length]? = some x := by
    rw [← List.head?_drop, hx, List.head?_cons]
  have hrest : rest = xs.drop (k % xs.length + 1) := by
    rw [← List.tail_drop, hx, List.tail_cons]
  have hstored : StateStore.stored (.VList rest) = some (.VList rest : Value S) := by
    refine stored_plain _ (allPlain_iff.mpr fun v hv => hplain v ?_)
    rw [hrest] at hv
    exact List.mem_of_mem_drop hv
  refine ⟨StateMap.insert sName (.VList rest) s, x, statefList_cons (hs.trans hx), hget, ?_, fun s'' hlook => ?_⟩
  · intro l hl
    exact lookup_insert_ne _ _ _ _ hl.symm
  · rw [lookup_insert, hstored] at hlook
    simp only [looped, hlook, Option.bind_eq_bind, Option.bind_some, Value.getList, Option.getD_some]
    by_cases hend : k % xs.length + 1 = xs.length
    · have hnil : rest = [] := by rw [hrest, hend, List.drop_length]
      have hmod : (k + 1) % xs.length = 0 := by
        rw [← Nat.mod_add_mod, hend, Nat.mod_self]
      rw [hnil, hmod]
      rfl
    · have hmod : (k + 1) % xs.length = k % xs.length + 1 := by
        rw [← Nat.mod_add_mod, Nat.mod_eq_of_lt (by omega)]
      have hne : rest ≠ [] := by
        rw [hrest]
        intro hnil
        have := List.drop_eq_nil_iff.mp hnil
        omega
      rw [if_neg (by simpa using hne), hmod, hrest]

/-! ## One event -/

/-- What an event with the list becomes after `k` onsets: at its onset the list has its value, and without
one the control is lost. The others are as in the event without the list. -/
structure PlaysList (name : String) (xs : List (Value S)) (k : ℕ) (e : Event (ValueMap S)) (vm vm' : ValueMap S) :
    Prop where
  list : vm[name]? = if e.eventHasOnset then xs[k % xs.length]? else none
  others : ∀ l, l ≠ name → vm[l]? = vm'[l]?
  kept : ∀ (l : String) v, l ≠ name → e.value[l]? = some v → v.notVState → vm[l]? = some v

/-- At an onset the entries before the list are resolved, then the list, and then the entries after it. -/
theorem resolveEvent_carries_onset (hxs : xs ≠ []) (hplain : ∀ x ∈ xs, x.plain) {e : Event (ValueMap S)}
    (he : CarriesList name sName xs e.value) (hon : e.eventHasOnset) {k : ℕ}
    (hs : looped sName xs s = xs.drop (k % xs.length)) (hst : AgreeOff sName s t) :
    ∃ s' t' vm vm', resolveEvent (.ok s) (e.map .ok) = (.ok s', .ok vm) ∧
      resolveEvent (.ok t) ((e.map (withoutControl name)).map .ok) = (.ok t', .ok vm') ∧
      AgreeOff sName s' t' ∧ looped sName xs s' = xs.drop ((k + 1) % xs.length) ∧
      PlaysList name xs k e vm vm' := by
  obtain ⟨l₁, l₂, hl, hl', hne⟩ := toList_split he.list
  have hign : ∀ z ∈ l₁ ++ l₂, Ignores sName z.2 := by
    intro z hz
    refine he.others z.1 z.2 (hne z hz) (Std.ExtTreeMap.mem_toList_iff_getElem?_eq_some.mp ?_)
    rw [hl]
    rcases List.mem_append.mp hz with hz | hz
    · exact List.mem_append_left _ hz
    · exact List.mem_append_right _ (List.mem_cons_of_mem _ hz)
  have h₀ : ∀ l, l ≠ name → (∅ : ValueMap S)[l]? = (∅ : ValueMap S)[l]? := fun _ _ => rfl
  obtain ⟨s₁, t₁, m₁, m₁', hm₁, hm₁', hst₁, hlook₁, hmm₁⟩ :=
    foldlM_ignores (fun z hz => hign z (List.mem_append_left _ hz)) hst h₀
  obtain ⟨s₂, x, hx, hget, hagree, hnext⟩ := statefList_step hxs hplain ((looped_congr hlook₁).trans hs)
  have hentry : resolveEntry (.ok s₁, m₁) (name, .VState (statefList sName xs)) =
      .ok (.ok s₂, m₁.insert name x) := resolveEntry_ok hx
  have hst₂ : AgreeOff sName s₂ t₁ := fun l hne => (hagree l hne).trans (hst₁ l hne)
  have hmm₂ : ∀ l, l ≠ name → (m₁.insert name x)[l]? = m₁'[l]? := by
    intro l hne
    rw [Std.ExtTreeMap.getElem?_insert, if_neg, hmm₁ l hne]
    rw [compare_eq_iff_eq]
    exact hne.symm
  obtain ⟨s₃, t₃, m₃, m₃', hm₃, hm₃', hst₃, hlook₃, hmm₃⟩ :=
    foldlM_ignores (fun z hz => hign z (List.mem_append_right _ hz)) hst₂ hmm₂
  have hrun : e.value.toList.foldlM resolveEntry (.ok s, ∅) = .ok (.ok s₃, m₃) := by
    rw [hl, List.foldlM_append, hm₁]
    show (((name, _) :: l₂).foldlM resolveEntry (.ok s₁, m₁) : Susp _) = _
    rw [List.foldlM_cons, hentry]
    exact hm₃
  have hrun' : (withoutControl name e.value).toList.foldlM resolveEntry (.ok t, ∅) = .ok (.ok t₃, m₃') := by
    rw [hl', List.foldlM_append, hm₁']
    exact hm₃'
  have hplayed : m₃[name]? = some x := by
    rw [(foldlM_resolveEntry_keeps hm₃).1 name fun z hz => hne z (List.mem_append_right _ hz),
      Std.ExtTreeMap.getElem?_insert, if_pos (compare_eq_iff_eq.mpr rfl)]
  refine ⟨s₃, t₃, m₃, m₃', resolveEvent_onset hon hrun, resolveEvent_onset (e := e.map _) hon hrun', hst₃,
    hnext s₃ hlook₃, ?_, hmm₃, fun l v _ hv hns => ?_⟩
  · rw [if_pos hon, hplayed, hget]
  · exact (foldlM_resolveEntry_keeps hrun).2 (pairwise_toList _) (l, v)
      (Std.ExtTreeMap.mem_toList_iff_getElem?_eq_some.mpr hv) hns

/-- Without an onset the stateful controls are lost and the state stays as it is. -/
theorem playsList_fragment {e : Event (ValueMap S)} (he : CarriesList name sName xs e.value)
    (hon : ¬ e.eventHasOnset) (k : ℕ) :
    PlaysList name xs k e (e.value.filter fun _ v => v.notVState)
      ((withoutControl name e.value).filter fun _ v => v.notVState) where
  list := by
    rw [if_neg hon, Std.ExtTreeMap.getElem?_filter', he.list]
    rfl
  others l hne := by
    have hne' : (l != name) = true := bne_iff_ne.mpr hne
    rw [Std.ExtTreeMap.getElem?_filter', Std.ExtTreeMap.getElem?_filter', withoutControl,
      Std.ExtTreeMap.getElem?_filter']
    cases e.value[l]? with
    | none => rfl
    | some v =>
      have hf : Option.filter (fun _ : Value S => l != name) (some v) = some v := Option.filter_some_pos hne'
      rw [hf]
  kept l v _ hv hns := by
    rw [Std.ExtTreeMap.getElem?_filter', hv]
    exact Option.filter_eq_some_iff.mpr ⟨rfl, hns⟩

theorem resolveEvent_carries (hxs : xs ≠ []) (hplain : ∀ x ∈ xs, x.plain) {e : Event (ValueMap S)}
    (he : CarriesList name sName xs e.value) {k : ℕ} (hs : looped sName xs s = xs.drop (k % xs.length))
    (hst : AgreeOff sName s t) :
    ∃ s' t' vm vm', resolveEvent (.ok s) (e.map .ok) = (.ok s', .ok vm) ∧
      resolveEvent (.ok t) ((e.map (withoutControl name)).map .ok) = (.ok t', .ok vm') ∧
      AgreeOff sName s' t' ∧
      looped sName xs s' = xs.drop ((k + [e].countP (eventHasOnset ·)) % xs.length) ∧
      PlaysList name xs k e vm vm' := by
  by_cases hon : e.eventHasOnset
  · rw [List.countP_singleton, if_pos hon]
    exact resolveEvent_carries_onset hxs hplain he hon hs hst
  · rw [List.countP_singleton, if_neg hon]
    exact ⟨s, t, _, _, resolveEvent_fragment hon s, resolveEvent_fragment (e := e.map _) hon t, hst, hs,
      playsList_fragment he hon k⟩

/-! ## Runs -/

/-- A run over events with the list, beside the run over the same events without it. -/
theorem resolveState_carries (hxs : xs ≠ []) (hplain : ∀ x ∈ xs, x.plain) {es : List (Event (ValueMap S))}
    (hes : ∀ e ∈ es, CarriesList name sName xs e.value) {k : ℕ}
    (hs : looped sName xs s = xs.drop (k % xs.length)) (hst : AgreeOff sName s t) :
    ∃ s' t' rs rs', resolveState (.ok s) (es.map (EventF.map .ok)) = (.ok s', rs) ∧
      resolveState (.ok t) ((es.map (EventF.map (withoutControl name))).map (EventF.map .ok)) = (.ok t', rs') ∧
      AgreeOff sName s' t' ∧
      ∀ i e, es[i]? = some e → ∃ vm vm', rs[i]? = some (withValue e (.ok vm)) ∧
        rs'[i]? = some (withValue e (.ok vm')) ∧
        PlaysList name xs (k + (es.take i).countP (eventHasOnset ·)) e vm vm' := by
  induction es generalizing s t k with
  | nil => exact ⟨s, t, [], [], rfl, rfl, hst, fun i e he => by simp at he⟩
  | cons e es ih =>
    obtain ⟨s₁, t₁, vm, vm', hev, hev', hst₁, hs₁, hplays⟩ :=
      resolveEvent_carries hxs hplain (hes e List.mem_cons_self) hs hst
    obtain ⟨s', t', rs, rs', hrun, hrun', hst', hall⟩ :=
      ih (fun e' he' => hes e' (List.mem_cons_of_mem _ he')) hs₁ hst₁
    refine ⟨s', t', withValue e (.ok vm) :: rs, withValue e (.ok vm') :: rs', ?_, ?_, hst', ?_⟩
    · rw [List.map_cons, resolveState_cons, hev, hrun]
      rfl
    · rw [List.map_cons, List.map_cons, resolveState_cons, hev', hrun']
      rfl
    · intro i e' he'
      cases i with
      | zero =>
        obtain rfl := Option.some.inj he'
        exact ⟨vm, vm', rfl, rfl, hplays⟩
      | succ i =>
        obtain ⟨wm, wm', h1, h2, h3⟩ := hall i e' he'
        refine ⟨wm, wm', h1, h2, ?_⟩
        rw [add_assoc, ← List.countP_append, List.singleton_append] at h3
        exact h3

/-- The events of `pStateList` carry its list. -/
theorem carriesList_pStateList {st : State (Susp S)} {es : List (Event (Susp (ValueMap S)))}
    (h : ((pStateList name sName xs).query st).all = .ok es) :
    ∀ e ∈ es, ∃ vm, e.value = .ok vm ∧ CarriesList name sName xs vm := by
  obtain rfl := Except.ok.inj h
  intro e he
  obtain ⟨e', he', rfl⟩ := List.mem_map.mp he
  obtain ⟨a, -, rfl⟩ := List.mem_map.mp he'
  refine ⟨_, rfl, ?_, fun k v hne hv => ?_⟩
  · rw [Std.ExtTreeMap.getElem?_insert, if_pos (compare_eq_iff_eq.mpr rfl)]
  · rw [Std.ExtTreeMap.getElem?_insert, if_neg fun hc => hne (compare_eq_iff_eq.mp hc).symm] at hv
    simp at hv

/-- A list does not use the state of another one. -/
theorem ignores_statefList {sName' : String} (hne : sName' ≠ sName) (hxs : xs ≠ []) :
    Ignores sName (.VState (statefList sName' xs)) := by
  intro s t hst
  have hlooped : looped sName' xs s = looped sName' xs t := looped_congr (hst sName' hne)
  obtain ⟨x, rest, hl⟩ := List.exists_cons_of_ne_nil (looped_ne_nil hxs t)
  refine ⟨_, _, x, statefList_cons (hlooped.trans hl), statefList_cons hl, fun k hk => ?_,
    lookup_insert_ne _ _ _ _ hne⟩
  by_cases hkn : sName' = k
  · subst hkn
    rw [lookup_insert, lookup_insert]
  · rw [lookup_insert_ne _ _ _ _ hkn, lookup_insert_ne _ _ _ _ hkn]
    exact hst k hk

/-- The events at their onsets play the list in order, however they are divided into batches, and the others
lose the control. All other controls and all other entries of the state are as they are without the list;
controls that are not stateful are kept, and if all others are such, so is the state. -/
theorem resolveBatches_pStateList (name sName : String) {xs : List (Value S)} (hxs : xs ≠ [])
    (hplain : ∀ x ∈ xs, x.plain) {s : S} (hs : lookup sName s = none)
    {ess : List (List (Event (ValueMap S)))} (hess : ∀ e ∈ ess.flatten, CarriesList name sName xs e.value) :
    ∃ s' t' rs rs',
      resolveBatches (.ok s) (ess.map (List.map (EventF.map .ok))) = (.ok s', rs) ∧
      resolveBatches (.ok s) ((ess.map (List.map (EventF.map (withoutControl name)))).map
        (List.map (EventF.map .ok))) = (.ok t', rs') ∧
      rs.map List.length = ess.map List.length ∧
      AgreeOff sName s' t' ∧
      ((∀ e ∈ ess.flatten, ∀ (k : String) v, k ≠ name → e.value[k]? = some v → v.notVState) →
        AgreeOff sName s' s) ∧
      ∀ i e, ess.flatten[i]? = some e → ∃ vm vm', rs.flatten[i]? = some (withValue e (.ok vm)) ∧
        rs'.flatten[i]? = some (withValue e (.ok vm')) ∧
        PlaysList name xs ((ess.flatten.take i).countP (eventHasOnset ·)) e vm vm' := by
  have h₀ : looped sName xs s = xs.drop (0 % xs.length) := by rw [Nat.zero_mod, looped_of_none hs]; rfl
  obtain ⟨s', t', rs, rs', hrun, hrun', hagree, hall⟩ := resolveState_carries hxs hplain hess h₀ fun _ _ => rfl
  obtain ⟨h1, h2, h3⟩ := resolveBatches_flatten (.ok s) (ess.map (List.map (EventF.map .ok)))
  obtain ⟨h1', h2', -⟩ := resolveBatches_flatten (.ok s)
    ((ess.map (List.map (EventF.map (withoutControl name)))).map (List.map (EventF.map .ok)))
  simp only [← List.map_flatten] at h1 h2 h1' h2'
  rw [hrun] at h1 h2
  rw [hrun'] at h1' h2'
  refine ⟨s', t', _, _, Prod.ext h1 rfl, Prod.ext h1' rfl, ?_, hagree, fun hother => ?_, fun i e he => ?_⟩
  · rw [h3, List.map_map]
    exact List.map_congr_left fun es _ => List.length_map _
  · have hplainOthers : ∀ e ∈ ess.flatten.map (EventF.map (withoutControl name)),
        ∀ (k : String) v, e.value[k]? = some v → v.notVState := by
      intro e he k v hv
      obtain ⟨e', he', rfl⟩ := List.mem_map.mp he
      replace hv : (e'.value.filter fun k _ => k != name)[k]? = some v := hv
      rw [Std.ExtTreeMap.getElem?_filter'] at hv
      obtain ⟨hv, hne⟩ := Option.filter_eq_some_iff.mp hv
      exact hother e' he' k v (bne_iff_ne.mp hne) hv
    have hstate := resolveState_notVState hplainOthers s
    rw [hrun'] at hstate
    obtain rfl := Except.ok.inj hstate
    exact hagree
  · obtain ⟨vm, vm', hvm, hvm', hplays⟩ := hall i e he
    rw [zero_add] at hplays
    exact ⟨vm, vm', (congrArg (·[i]?) h2).trans hvm, (congrArg (·[i]?) h2').trans hvm', hplays⟩

end Others

/-! ## A state map of data -/

namespace Value

variable {T : Type}

mutual

/-- The same data over another state map. -/
def recast : Value S → Option (Value T)
  | VS s => some (VS s)
  | VF x => some (VF x)
  | VN x => some (VN x)
  | VR x => some (VR x)
  | VI i => some (VI i)
  | VB b => some (VB b)
  | VX xs => some (VX xs)
  | VList vs => (recastList vs).map VList
  | VPattern _ => none
  | VState _ => none

def recastList : List (Value S) → Option (List (Value T))
  | [] => some []
  | v :: vs => do return (← recast v) :: (← recastList vs)

end

mutual

theorem recast_recast : (v : Value S) → v.plain → ((recast v : Option (Value T)) >>= recast) = some v
  | VS _, _ | VF _, _ | VN _, _ | VR _, _ | VI _, _ | VB _, _ | VX _, _ => rfl
  | VList vs, h => by
    have ih := recastList_recastList vs h
    cases hvs : (recastList vs : Option (List (Value T))) with
    | none => simp [hvs] at ih
    | some ws => simpa [recast, hvs] using ih

theorem recastList_recastList :
    (vs : List (Value S)) → allPlain vs → ((recastList vs : Option (List (Value T))) >>= recastList) = some vs
  | [], _ => rfl
  | v :: vs, h => by
    obtain ⟨hv, hvs⟩ := (Bool.and_eq_true _ _).mp h
    have ih := recast_recast v hv
    have ih' := recastList_recastList vs hvs
    cases h1 : (recast v : Option (Value T)) with
    | none => simp [h1] at ih
    | some w =>
      cases h2 : (recastList vs : Option (List (Value T))) with
      | none => simp [h2] at ih'
      | some ws =>
        simp only [h1, h2, Option.bind_eq_bind, Option.bind_some] at ih ih'
        simp [recastList, h1, h2, ih, ih']

end

end Value

/-- A state map that holds data only. -/
structure DataMap where
  entries : ValueMap Empty

instance : StateStore DataMap where
  insert k v m := match v.recast with
    | some w => ⟨Std.ExtTreeMap.insert m.entries k w⟩
    | none => ⟨m.entries.erase k⟩
  lookup k m := m.entries[k]? >>= Value.recast
  stored v := (v.recast : Option (Value Empty)) >>= Value.recast
  stored_plain := Value.recast_recast
  lookup_insert k v m := by
    cases h : (v.recast : Option (Value Empty)) with
    | none => simp
    | some w => simp
  lookup_insert_ne k l v m hne := by
    have hne' : ¬ compare k l = .eq := fun hc => hne (compare_eq_iff_eq.mp hc)
    cases h : (v.recast : Option (Value Empty)) with
    | none => simp [Std.ExtTreeMap.getElem?_erase, hne']
    | some w => simp [Std.ExtTreeMap.getElem?_insert, hne']

/-- A list of two numbers and a list of two strings, each with a place of its own. -/
def twoLists : ValueMap DataMap :=
  ((∅ : ValueMap DataMap).insert "s" (.VState (statefList "b" [.VS "bd", .VS "sn"]))).insert "n"
    (.VState (statefList "a" [.VI 0, .VI 5]))

/-- Two batches of notes with both lists. The second event has no onset. -/
def twoListsBatches : List (List (Event (ValueMap DataMap))) :=
  [[⟨⟨[]⟩, some ⟨0, 1⟩, ⟨0, 1⟩, twoLists⟩, ⟨⟨[]⟩, some ⟨0, 1⟩, ⟨1 / 2, 1⟩, twoLists⟩],
    [⟨⟨[]⟩, some ⟨1, 2⟩, ⟨1, 2⟩, twoLists⟩, ⟨⟨[]⟩, some ⟨2, 3⟩, ⟨2, 3⟩, twoLists⟩]]

theorem carriesList_twoLists : CarriesList "n" "a" [.VI 0, .VI 5] twoLists := by
  refine ⟨?_, fun k v hne hv => ?_⟩
  · rw [twoLists, Std.ExtTreeMap.getElem?_insert, if_pos (compare_eq_iff_eq.mpr rfl)]
  · rw [twoLists, Std.ExtTreeMap.getElem?_insert, if_neg fun hc => hne (compare_eq_iff_eq.mp hc).symm,
      Std.ExtTreeMap.getElem?_insert] at hv
    split at hv
    · obtain rfl := Option.some.inj hv
      exact ignores_statefList (by decide) (List.cons_ne_nil _ _)
    · simp at hv

/-- The third onset of `n` has its first number again. -/
theorem resolveBatches_pStateList_third :
    ∃ rs vm, (resolveBatches (.ok ⟨∅⟩) (twoListsBatches.map (List.map (EventF.map .ok)))).2 = rs ∧
      (rs.flatten[3]?).map EventF.value = some (.ok vm) ∧ vm["n"]? = some (.VI 0) := by
  have hall : ∀ e ∈ twoListsBatches.flatten, CarriesList "n" "a" [.VI 0, .VI 5] e.value := by
    intro e he
    simp only [twoListsBatches, List.flatten_cons, List.flatten_nil, List.append_nil, List.cons_append,
      List.nil_append, List.mem_cons, List.not_mem_nil, or_false] at he
    rcases he with rfl | rfl | rfl | rfl <;> exact carriesList_twoLists
  have hlookup : lookup "a" (⟨∅⟩ : DataMap) = none := by simp [lookup]
  obtain ⟨s', t', rs, rs', hrun, -, -, -, -, hev⟩ :=
    resolveBatches_pStateList "n" "a" (List.cons_ne_nil _ _) (by simp [Value.plain]) hlookup hall
  obtain ⟨vm, vm', hvm, -, hplays⟩ := hev 3 _ rfl
  refine ⟨rs, vm, congrArg Prod.snd hrun, ?_, hplays.list.trans ?_⟩
  · rw [hvm]
    rfl
  · have hcount : (twoListsBatches.flatten.take 3).countP (eventHasOnset ·) = 2 := by with_unfolding_all decide
    rw [hcount, if_pos (by decide)]
    rfl

end Tidal
