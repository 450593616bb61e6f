import Tidal.Stream.Process

/-!
# Proofs: bus numbers

A control `^k` of an event names the bus of the control `k`. The play message holds the name of the bus,
`c<n>`, in the place of the value, and a `/c_set` message writes the value to the bus. The first looks
the number up in the buses that the server has sent, the second takes it as it is.
-/

namespace Tidal

open EventF

variable {S : Type}

/-! ## The messages, one by one -/

/-- The controls that are played, the names of buses in place of the values. -/
def withBuses (busses : List ℤ) (val : ValueMap S) : ValueMap S :=
  Map.union
    (Map.mapKeys tailName ((val.filter fun k _ => isBusName k).map fun _ v =>
      .VS ("c" ++ toString (toBus busses (v.getI.getD 0)))))
    (val.filter fun k _ => !isBusName k)

/-- The message that plays the controls of an event. -/
def playMessage (showDouble : ℚ → String) (busses : List ℤ) (pe : ProcessedEvent S) (path : String)
    (args : Args S) (val : ValueMap S) : Option (Susp ℚ × Bool × Message) :=
  if pe.peHasOnset then do
    let extra : ValueMap S := Std.ExtTreeMap.ofList
      [("cps", Value.VF pe.peCps), ("delta", Value.VF (addMicrosToOsc pe.peDelta 0)),
        ("cycle", Value.VF pe.peCycle)]
    let vs ← toData args (Map.union (withBuses busses val) extra)
    let mungedPath ← substitutePath showDouble path (withBuses busses val)
    return (do return pe.peOnWholeOrPartOsc + (← nudgeOf (val.filter fun k _ => !isBusName k)), false,
      ⟨mungedPath, vs⟩)
  else none

/-- The message that writes a control to its bus, for the entry `k`, `b` of the event. -/
def busMessage (pe : ProcessedEvent S) (val : ValueMap S) (k : String) (b : Value S) :
    Option (Susp ℚ × Bool × Message) := do
  let k' ← if isBusName k then some (tailName k) else none
  let v ← (val.filter fun k _ => !isBusName k)[k']?
  let bi ← b.getI
  return ((do return pe.peOnPartOsc + (← nudgeOf (val.filter fun k _ => !isBusName k)) : Susp ℚ), true,
    (⟨"/c_set", [.ok (.int32 bi), toDatum v]⟩ : Message))

theorem toOSC_messages (showDouble : ℚ → String) (busses : List ℤ) {pe : ProcessedEvent S}
    (path : String) (args : Args S) {val : ValueMap S} (hval : pe.peEvent.value = .ok val) :
    toOSC showDouble busses pe (.OSC path args) =
      .ok (playMessage showDouble busses pe path args val ::
        (val.filter fun k _ => isBusName k).toList.map fun x => busMessage pe val x.1 x.2).reduceOption := by
  rw [toOSC, hval]
  rfl

/-! ## The bus of a control -/

/-- The data of named controls, in turn with their names. -/
def named : List (Susp Datum) → List (String × Susp Datum)
  | .ok (.string k) :: d :: ds => (k, d) :: named ds
  | _ => []

/-- The controls that a play message in this shape holds, with their data. -/
def controlsOf (osc : OSC S) (msg : Message) : List (String × Susp Datum) :=
  match osc with
  | .OSC _ (.ArgList as) => (as.map Prod.fst).zip msg.messageDatum
  | .OSC _ (.Named _) => named msg.messageDatum
  | .OSCContext _ => []

/-- The play message holds `c<n>` for the control `k`. -/
def PlaysBus (osc : OSC S) (ms : List (Susp ℚ × Bool × Message)) (k : String) (n : ℤ) : Prop :=
  ∃ m ∈ ms, m.2.1 = false ∧ (k, .ok (.string ("c" ++ toString n))) ∈ controlsOf osc m.2.2

/-- The message that accompanies it for the control `k` writes to bus `n`. -/
def SetsBus (pe : ProcessedEvent S) (val : ValueMap S) (ms : List (Susp ℚ × Bool × Message)) (k : String)
    (n : ℤ) : Prop :=
  ∃ b, val["^" ++ k]? = some b ∧ ∃ m ∈ ms, busMessage pe val ("^" ++ k) b = some m ∧
    ∃ d, m.2.2 = ⟨"/c_set", [.ok (.int32 n), d]⟩

/-! ## Names -/

theorem isBusName_caret (k : String) : isBusName ("^" ++ k) = true := by
  simp [isBusName]

theorem tailName_caret (k : String) : tailName ("^" ++ k) = k := by
  simp [tailName]

theorem isBusName_iff {k : String} : isBusName k = true ↔ ∃ cs, k.toList = '^' :: cs := by
  rw [isBusName, decide_eq_true_iff]
  cases k.toList with
  | nil => simp
  | cons c cs => simp

theorem tailName_injOn {k k' : String} (hk : isBusName k) (hk' : isBusName k')
    (h : tailName k = tailName k') : k = k' := by
  obtain ⟨cs, hcs⟩ := isBusName_iff.mp hk
  obtain ⟨cs', hcs'⟩ := isBusName_iff.mp hk'
  simp only [tailName, hcs, hcs', List.tail_cons, String.ofList_inj] at h
  rw [← String.toList_inj, hcs, hcs', h]

theorem bus_string_injective {c c' : ℤ} (h : "c" ++ toString c = "c" ++ toString c') : c = c' :=
  Int.repr_injective ((String.append_right_inj _).mp h)

theorem toBus_eq_iff (busses : List ℤ) (n : ℤ) :
    toBus busses n = n ↔ busses = [] ∨ busses.getD (n % busses.length).toNat 0 = n := by
  cases busses with
  | nil => simp [toBus]
  | cons b bs => simp [toBus]

/-! ## Entries -/

theorem getElem?_union_left {α : Type} {m : Map α} {k : String} {x : α} (h : m[k]? = some x)
    (n : Map α) : (Map.union m n)[k]? = some x := by
  show (n ∪ m)[k]? = _
  rw [Std.ExtTreeMap.getElem?_union, h]
  rfl

/-- Names that stay different keep their values. -/
theorem getElem?_mapKeys {α : Type} {f : String → String} {m : Map α}
    (hf : ∀ x ∈ m.toList, ∀ y ∈ m.toList, f x.1 = f y.1 → x.1 = y.1) {k : String} {x : α}
    (h : m[k]? = some x) : (Map.mapKeys f m)[f k]? = some x := by
  refine Std.ExtTreeMap.getElem?_ofList_of_mem (k := f k) Std.ReflCmp.compare_self ?_ ?_
  · rw [List.pairwise_map]
    refine m.distinct_keys_toList.imp_of_mem fun {y z} hy hz hne heq => hne ?_
    rw [Std.LawfulEqCmp.compare_eq_iff_eq] at heq ⊢
    exact hf y hy z hz heq
  · exact List.mem_map.mpr ⟨(k, x), Std.ExtTreeMap.mem_toList_iff_getElem?_eq_some.mpr h, rfl⟩

/-- A control that has a bus is played as the name of the bus. -/
theorem getElem?_withBuses (busses : List ℤ) {val : ValueMap S} {k : String} {b : Value S}
    (h : val["^" ++ k]? = some b) :
    (withBuses busses val)[k]? = some (.VS ("c" ++ toString (toBus busses (b.getI.getD 0)))) := by
  refine getElem?_union_left ?_ _
  rw [← tailName_caret k]
  refine getElem?_mapKeys (fun x hx y hy => ?_) ?_
  · have hbus : ∀ x ∈ ((val.filter fun k _ => isBusName k).map fun _ (v : Value S) =>
        (Value.VS ("c" ++ toString (toBus busses (v.getI.getD 0))) : Value S)).toList,
        isBusName x.1 = true := by
      intro x hx
      rw [Std.ExtTreeMap.mem_toList_iff_getElem?_eq_some, Std.ExtTreeMap.getElem?_map,
        Std.ExtTreeMap.getElem?_filter'] at hx
      obtain ⟨v, hv, _⟩ := Option.map_eq_some_iff.mp hx
      exact (Option.filter_eq_some_iff.mp hv).2
    exact tailName_injOn (hbus x hx) (hbus y hy)
  · rw [Std.ExtTreeMap.getElem?_map, Std.ExtTreeMap.getElem?_filter', h]
    simp [isBusName_caret]

/-! ## Shapes -/

theorem mem_named {xs : List (String × Susp Datum)} {x : String × Susp Datum}
    (h : x ∈ named (xs.flatMap fun y => [.ok (.string y.1), y.2])) : x ∈ xs := by
  induction xs with
  | nil => cases h
  | cons y ys ih =>
    rcases List.mem_cons.mp h with rfl | h
    · exact List.mem_cons_self ..
    · exact List.mem_cons_of_mem _ (ih h)

theorem mem_zip_mapM {as : List (String × Option (Value S))} {v : ValueMap S} {vs : List (Value S)}
    (h : (as.mapM fun x => v[x.1]? <|> x.2) = some vs) {k : String} {d : Susp Datum} {x : Value S}
    (hx : v[k]? = some x) (hd : (k, d) ∈ (as.map Prod.fst).zip (vs.map toDatum)) : d = toDatum x := by
  induction as generalizing vs with
  | nil => simp at hd
  | cons a as ih =>
    rw [List.mapM_cons] at h
    obtain ⟨y, hy, h⟩ := Option.bind_eq_some_iff.mp h
    obtain ⟨ys, hys, h⟩ := Option.bind_eq_some_iff.mp h
    obtain rfl := Option.some.inj h
    rw [List.map_cons, List.map_cons, List.zip_cons_cons] at hd
    rcases List.mem_cons.mp hd with heq | hd
    · obtain ⟨rfl, rfl⟩ := Prod.mk.inj heq
      rw [hx] at hy
      exact congrArg toDatum (Option.some.inj hy).symm
    · exact ih hys hd

/-- What a message holds for a control is the value of the control. -/
theorem controlsOf_toData {args : Args S} {v : ValueMap S} {vs : List (Susp Datum)}
    (h : toData args v = some vs) (path addr : String) {k : String} {d : Susp Datum} {x : Value S}
    (hx : v[k]? = some x) (hd : (k, d) ∈ controlsOf (.OSC path args) ⟨addr, vs⟩) : d = toDatum x := by
  cases args with
  | ArgList as =>
    obtain ⟨ys, hys, rfl⟩ := Option.map_eq_some_iff.mp h
    exact mem_zip_mapM hys hx hd
  | Named rqrd =>
    simp only [toData] at h
    split_ifs at h
    obtain rfl := Option.some.inj h
    have hmem : (k, d) ∈ v.toList.map fun y => (y.1, toDatum y.2) := by
      refine mem_named ?_
      rw [List.flatMap_map]
      exact hd
    obtain ⟨y, hy, heq⟩ := List.mem_map.mp hmem
    obtain ⟨rfl, rfl⟩ := Prod.mk.inj heq
    rw [Std.ExtTreeMap.mem_toList_iff_getElem?_eq_some.mp hy] at hx
    rw [Option.some.inj hx]

/-! ## Which bus -/

section Buses

variable {showDouble : ℚ → String} {busses : List ℤ} {pe : ProcessedEvent S} {osc : OSC S}
  {val : ValueMap S} {k : String} {b v : Value S} {n : ℤ} {ms : List (Susp ℚ × Bool × Message)}

theorem busMessage_some {j : String} {m : Susp ℚ × Bool × Message} (h : busMessage pe val j b = some m) :
    isBusName j = true ∧ (∃ v, (val.filter fun k _ => !isBusName k)[tailName j]? = some v) ∧
    ∃ t d bi, b.getI = some bi ∧ m = (t, true, ⟨"/c_set", [.ok (.int32 bi), d]⟩) := by
  rw [busMessage] at h
  by_cases hj : isBusName j = true
  · simp only [hj, if_true, Option.bind_eq_bind, Option.bind_some, Option.bind_eq_some_iff] at h
    obtain ⟨v, hv, bi, hbi, h⟩ := h
    exact ⟨hj, ⟨v, hv⟩, _, _, bi, hbi, (Option.some.inj h).symm⟩
  · simp [hj] at h

theorem playMessage_some {path : String} {args : Args S} {m : Susp ℚ × Bool × Message}
    (h : playMessage showDouble busses pe path args val = some m) :
    ∃ extra, toData args (Map.union (withBuses busses val) extra) = some m.2.2.messageDatum := by
  rw [playMessage] at h
  split_ifs at h
  obtain ⟨vs, hvs, h⟩ := Option.bind_eq_some_iff.mp h
  obtain ⟨path', _, h⟩ := Option.bind_eq_some_iff.mp h
  obtain rfl := Option.some.inj h
  exact ⟨_, hvs⟩

/-- The play message names the bus that is looked up. -/
theorem PlaysBus.eq_toBus (hval : pe.peEvent.value = .ok val) (hb : val["^" ++ k]? = some b)
    (hn : b.getI = some n) (hms : toOSC showDouble busses pe osc = .ok ms) {c : ℤ}
    (h : PlaysBus osc ms k c) : c = toBus busses n := by
  obtain ⟨m, hm, hplay, hd⟩ := h
  cases osc with
  | OSCContext path => cases hd
  | OSC path args =>
    rw [toOSC_messages showDouble busses path args hval] at hms
    obtain rfl := Except.ok.inj hms
    rcases List.mem_cons.mp (List.reduceOption_mem_iff.mp hm) with h | h
    · obtain ⟨extra, hvs⟩ := playMessage_some h.symm
      have hx := getElem?_union_left (getElem?_withBuses busses hb) extra
      have hdatum := controlsOf_toData hvs path m.2.2.messageAddress hx hd
      rw [hn] at hdatum
      exact bus_string_injective (Datum.string.inj (Except.ok.inj hdatum))
    · -- the other messages are not play messages
      obtain ⟨y, _, hy⟩ := List.mem_map.mp h
      obtain ⟨_, _, t, d, bi, _, rfl⟩ := busMessage_some hy
      cases hplay

/-- The message that accompanies it writes to the number in the event. -/
theorem SetsBus.eq (hb : val["^" ++ k]? = some b) (hn : b.getI = some n) {c : ℤ}
    (h : SetsBus pe val ms k c) : c = n := by
  obtain ⟨b', hb', m, _, hm, d, hd⟩ := h
  obtain rfl := Option.some.inj (hb.symm.trans hb')
  obtain ⟨_, _, t, d', bi, hbi, rfl⟩ := busMessage_some hm
  obtain rfl := Option.some.inj (hn.symm.trans hbi)
  have hargs := (Message.mk.inj hd).2
  exact (Datum.int32.inj (Except.ok.inj (List.cons.inj hargs).1)).symm

/-- A control has a message of its own unless its name is that of a bus itself. -/
theorem setsBus_of_control (hval : pe.peEvent.value = .ok val) (hb : val["^" ++ k]? = some b)
    (hn : b.getI = some n) (hv : val[k]? = some v) (hk : isBusName k = false) {path : String}
    {args : Args S} (hms : toOSC showDouble busses pe (.OSC path args) = .ok ms) :
    SetsBus pe val ms k n := by
  have hplay : (val.filter fun k _ => !isBusName k)[k]? = some v := by
    rw [Std.ExtTreeMap.getElem?_filter', hv]
    simp [hk]
  have hmsg : busMessage pe val ("^" ++ k) b = some ((do return pe.peOnPartOsc +
      (← nudgeOf (val.filter fun k _ => !isBusName k)) : Susp ℚ), true,
        (⟨"/c_set", [.ok (.int32 n), toDatum v]⟩ : Message)) := by
    simp only [busMessage, isBusName_caret, if_true, tailName_caret, hn]
    show ((val.filter fun k _ => !isBusName k)[k]?).bind _ = _
    rw [hplay]
    rfl
  have hentry : ("^" ++ k, b) ∈ (val.filter fun k _ => isBusName k).toList := by
    rw [Std.ExtTreeMap.mem_toList_iff_getElem?_eq_some, Std.ExtTreeMap.getElem?_filter', hb]
    simp [isBusName_caret]
  rw [toOSC_messages showDouble busses path args hval] at hms
  obtain rfl := Except.ok.inj hms
  exact ⟨b, hb, _, List.reduceOption_mem_iff.mpr (List.mem_cons_of_mem _
    (List.mem_map.mpr ⟨_, hentry, hmsg⟩)), hmsg, _, rfl⟩

theorem not_setsBus (hk : isBusName k = true) {c : ℤ} : ¬ SetsBus pe val ms k c := by
  rintro ⟨b, _, m, _, hm, _⟩
  obtain ⟨_, ⟨v, hv⟩, _⟩ := busMessage_some hm
  rw [tailName_caret, Std.ExtTreeMap.getElem?_filter'] at hv
  have := (Option.filter_eq_some_iff.mp hv).2
  simp [hk] at this

end Buses

/-! ## One control on the first bus -/

def cutoffValue : ValueMap Unit :=
  ((∅ : ValueMap Unit).insert "^cutoff" (.VI 0)).insert "cutoff" (.VF (1 / 2))

def cutoffEvent : ProcessedEvent Unit where
  peHasOnset := true
  peEvent := ⟨⟨[]⟩, some ⟨0, 1⟩, ⟨0, 1⟩, .ok cutoffValue⟩
  peCps := 1
  peDelta := 1000000
  peCycle := 0
  peOnWholeOrPart := 0
  peOnWholeOrPartOsc := 0
  peOnPart := 0
  peOnPartOsc := 0

def cutoffShape : OSC Unit := .OSC "/play" (.ArgList [("cutoff", none)])

theorem cutoffValue_bus : cutoffValue["^" ++ "cutoff"]? = some (.VI 0) := by
  show (((∅ : ValueMap Unit).insert "^cutoff" (.VI 0)).insert "cutoff" (.VF (1 / 2)))["^cutoff"]? = _
  rw [Std.ExtTreeMap.getElem?_insert, if_neg (by decide), Std.ExtTreeMap.getElem?_insert_self]

theorem cutoffValue_control : cutoffValue["cutoff"]? = some (.VF (1 / 2)) :=
  Std.ExtTreeMap.getElem?_insert_self

theorem cutoff_messages (busses : List ℤ) :
    ∃ ms, toOSC (fun _ => "") busses cutoffEvent cutoffShape = .ok ms ∧
      PlaysBus cutoffShape ms "cutoff" (toBus busses 0) ∧
      SetsBus cutoffEvent cutoffValue ms "cutoff" 0 := by
  have hval : cutoffEvent.peEvent.value = .ok cutoffValue := rfl
  have hms := toOSC_messages (fun _ => "") busses "/play" (.ArgList [("cutoff", none)]) hval
  have hdata : ∀ extra, toData (.ArgList [("cutoff", none)])
      (Map.union (withBuses busses cutoffValue) extra) =
        some [.ok (.string ("c" ++ toString (toBus busses 0)))] := by
    intro extra
    have hx := getElem?_union_left (getElem?_withBuses busses cutoffValue_bus) extra
    simp [toData, hx, toDatum, Value.getI]
  have hpath : ∀ cm : ValueMap Unit, substitutePath (fun _ => "") "/play" cm = some "/play" :=
    fun cm => by simp [substitutePath, parsePath]
  refine ⟨_, hms, ?_, setsBus_of_control hval cutoffValue_bus rfl cutoffValue_control (by decide) hms⟩
  have hplay : ∃ t, playMessage (fun _ => "") busses cutoffEvent "/play" (.ArgList [("cutoff", none)])
      cutoffValue = some (t, false, ⟨"/play", [.ok (.string ("c" ++ toString (toBus busses 0)))]⟩) :=
    ⟨_, by
      simp only [playMessage, cutoffEvent, if_true, hdata, hpath]
      rfl⟩
  obtain ⟨t, ht⟩ := hplay
  refine ⟨_, List.reduceOption_mem_iff.mpr (List.mem_cons.mpr (Or.inl ht.symm)), rfl, ?_⟩
  exact List.mem_singleton_self _

/-! ## The two numbers -/

/-- The play message of an event and the `/c_set` message that accompanies it name the same bus for a
control exactly when the number in the event is found again in the list of buses, or there is no list.
(A control whose own name starts with `^` has no such message.) -/
theorem bus_numbers_agree_iff (showDouble : ℚ → String) (busses : List ℤ) (pe : ProcessedEvent S)
    (osc : OSC S) (val : ValueMap S) (hval : pe.peEvent.value = .ok val) (k : String) (b v : Value S)
    (n : ℤ) (hb : val["^" ++ k]? = some b) (hn : b.getI = some n) (hv : val[k]? = some v)
    (ms : List (Susp ℚ × Bool × Message)) (hms : toOSC showDouble busses pe osc = .ok ms)
    (hplays : ∃ c, PlaysBus osc ms k c) :
    (∀ c c', PlaysBus osc ms k c → SetsBus pe val ms k c' → c = c') ↔
      isBusName k = true ∨ busses = [] ∨ busses.getD (n % busses.length).toNat 0 = n := by
  rw [← toBus_eq_iff]
  constructor
  · intro h
    refine or_iff_not_imp_left.mpr fun hk => ?_
    obtain ⟨c, hc⟩ := hplays
    cases osc with
    | OSCContext path =>
      obtain ⟨m, _, _, hd⟩ := hc
      cases hd
    | OSC path args =>
      have hset := setsBus_of_control hval hb hn hv (Bool.eq_false_of_not_eq_true hk) hms
      rw [← hc.eq_toBus hval hb hn hms]
      exact h c n hc hset
  · rintro (hk | heq) c c' hc hc'
    · exact (not_setsBus hk hc').elim
    · rw [hc.eq_toBus hval hb hn hms, hc'.eq hb hn, heq]

theorem bus_numbers_agree_iff_cutoff :
    ∃ ms, toOSC (fun _ => "") [10, 11] cutoffEvent cutoffShape = .ok ms ∧
      ((∀ c c', PlaysBus cutoffShape ms "cutoff" c → SetsBus cutoffEvent cutoffValue ms "cutoff" c' →
          c = c') ↔
        isBusName "cutoff" = true ∨ ([10, 11] : List ℤ) = [] ∨
          ([10, 11] : List ℤ).getD ((0 : ℤ) % ([10, 11] : List ℤ).length).toNat 0 = 0) := by
  obtain ⟨ms, hms, hplay, _⟩ := cutoff_messages [10, 11]
  exact ⟨ms, hms, bus_numbers_agree_iff (fun _ => "") [10, 11] cutoffEvent cutoffShape cutoffValue rfl
    "cutoff" (.VI 0) (.VF (1 / 2)) 0 cutoffValue_bus rfl cutoffValue_control ms hms ⟨_, hplay⟩⟩

/-- With a list of buses from the server, the control is read from one bus and written to another. -/
theorem cutoff_on_two_buses :
    cutoffEvent.peEvent.value = .ok cutoffValue ∧ cutoffEvent.peHasOnset = true ∧
    cutoffValue["^" ++ "cutoff"]? = some (.VI 0) ∧ cutoffValue["cutoff"]? = some (.VF (1 / 2)) ∧
    ∃ ms, toOSC (fun _ => "") [10, 11] cutoffEvent cutoffShape = .ok ms ∧
      PlaysBus cutoffShape ms "cutoff" 10 ∧ SetsBus cutoffEvent cutoffValue ms "cutoff" 0 :=
  ⟨rfl, rfl, cutoffValue_bus, cutoffValue_control, cutoff_messages [10, 11]⟩

end Tidal
