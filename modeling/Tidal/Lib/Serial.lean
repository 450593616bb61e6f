import Tidal.Lib.Concurrent

/-!
# Updates of a shared variable in any interleaving

Every thread has a list of jobs to do, of which each may update one variable, in a section that takes the
variable and puts back what becomes of its value. Whatever the interleaving, the sections come one after the
other: the value of the variable is what the jobs that were done lead to, each with what its thread did for
it, and those of each thread were done in its order, none twice and none left out. A job that may change
nothing may be done without a section. A thread may also keep the variable for ever, if its job may lose it;
then nothing more happens to the variable.
-/

namespace Concurrent

open Effect MVar

variable {L W U J A ε α β γ : Type} {V : Vars L W}

/-- The updates lead from `v` to `v'`, one after the other. -/
def Leads {β : Type} (app : U → β → β → Prop) : List U → β → β → Prop
  | [], v, v' => v' = v
  | u :: us, v, v' => ∃ v₁, app u v v₁ ∧ Leads app us v₁ v'

theorem leads_append {app : U → β → β → Prop} {us us' : List U} {v v₁ v' : β}
    (h : Leads app us v v₁) (h' : Leads app us' v₁ v') : Leads app (us ++ us') v v' := by
  induction us generalizing v with
  | nil => exact (h : v₁ = v) ▸ h'
  | cons u us ih =>
    obtain ⟨v₂, hu, h⟩ := h
    exact ⟨v₂, hu, ih h⟩

/-- Updates that may change nothing may lead nowhere. -/
theorem leads_same {app : U → β → β → Prop} {us : List U} (h : ∀ u ∈ us, ∀ v, app u v v) (v : β) :
    Leads app us v v := by
  induction us with
  | nil => rfl
  | cons u us ih =>
    exact ⟨v, h u List.mem_cons_self v, ih fun u' hu' => h u' (List.mem_cons_of_mem u hu')⟩

namespace Prog

section Plan

variable (l : L) (app : J × List (Label V) → V.Val l → V.Val l → Prop) (lost : J × List (Label V) → Prop)

/-- The program never puts the variable, at least not after it waited for it. -/
def NoPut : Prog V ε α → Prop
  | ret _ | fail _ => True
  | take l' k | read l' k => l' = l ∨ ∀ b, (k b).NoPut
  | put l' _ k => l' ≠ l ∧ k.NoPut
  | act x k => Leaves (V.var l).get x ∧ ∀ c, (k c).NoPut

/-- What the program still does to the variable: what it has done for the job that it is at, the job whose
section is under way, with the value that it started from, and then the other jobs in their order. -/
inductive Plan : List (Label V) → Option (J × V.Val l) → List J → Prog V ε α → Prop
  | ret (a : α) : Plan [] none [] (.ret a)
  | fail (as : List (Label V)) (js : List J) (e : ε) : Plan as none js (.fail e)
  | skip {as : List (Label V)} {j : J} {js : List J} {p : Prog V ε α} : (∀ v, app (j, as) v v) →
      Plan [] none js p → Plan as none (j :: js) p
  | take {as : List (Label V)} {j : J} {js : List J} {k : V.Val l → Prog V ε α} :
      (∀ b, Plan (as ++ [.took l b]) (some (j, b)) js (k b)) → Plan as none (j :: js) (.take l k)
  | put {as : List (Label V)} {j : J} {js : List J} {b b' : V.Val l} {k : Prog V ε α} :
      app (j, as ++ [.put l b']) b b' → Plan [] none js k → Plan as (some (j, b)) js (.put l b' k)
  | read {as : List (Label V)} {js : List J} {k : V.Val l → Prog V ε α} :
      (∀ b, Plan (as ++ [.read l b]) none js (k b)) → Plan as none js (.read l k)
  | takeOther {as : List (Label V)} {o : Option (J × V.Val l)} {js : List J} {l' : L}
      {k : V.Val l' → Prog V ε α} : l' ≠ l → (∀ b, Plan (as ++ [.took l' b]) o js (k b)) →
      Plan as o js (.take l' k)
  | putOther {as : List (Label V)} {o : Option (J × V.Val l)} {js : List J} {l' : L} {b : V.Val l'}
      {k : Prog V ε α} : l' ≠ l → Plan (as ++ [.put l' b]) o js k → Plan as o js (.put l' b k)
  | readOther {as : List (Label V)} {o : Option (J × V.Val l)} {js : List J} {l' : L}
      {k : V.Val l' → Prog V ε α} : l' ≠ l → (∀ b, Plan (as ++ [.read l' b]) o js (k b)) →
      Plan as o js (.read l' k)
  | act {as : List (Label V)} {o : Option (J × V.Val l)} {js : List J} {γ : Type} {x : Effect W ε γ}
      {k : γ → Prog V ε α} : Leaves (V.var l).get x → (o = none ∨ ∀ w e w', x w ≠ .raised e w') →
      (∀ w c w', x w = .returned c w' → Plan (as ++ [.acted w w']) o js (k c)) → Plan as o js (.act x k)
  | keep {as as' : List (Label V)} {j : J} {js : List J} {b : V.Val l} {p : Prog V ε α} : lost (j, as) →
      as <+: as' → p.NoPut l → Plan as' (some (j, b)) js p

variable {l app lost} {as : List (Label V)}

theorem leaves_attempt {x : Effect W ε β} {v : W → γ} (hx : Leaves v x) : Leaves v (attempt x) := by
  intro w
  have hw := hx w
  unfold attempt
  cases h : x w <;> rw [h] at hw <;> exact hw

theorem attempt_not_raised (x : Effect W ε β) (w : W) (e : ε) (w' : W) : attempt x w ≠ .raised e w' := by
  intro h
  unfold attempt at h
  cases hx : x w <;> rw [hx] at h <;> cases h

/-- An action under a handler. -/
theorem plan_attempt {o : Option (J × V.Val l)} {js : List J} {x : Effect W ε β}
    {k : Except ε β → Prog V ε α} (hx : Leaves (V.var l).get x)
    (hok : ∀ w c w', x w = .returned c w' → (k (.ok c)).Plan l app lost (as ++ [.acted w w']) o js)
    (herr : ∀ w e w', x w = .raised e w' → (k (.error e)).Plan l app lost (as ++ [.acted w w']) o js) :
    (Prog.act (attempt x) k).Plan l app lost as o js := by
  refine .act (leaves_attempt hx) (Or.inr fun w e w' => attempt_not_raised x w e w') ?_
  intro w c w' h
  unfold attempt at h
  cases hw : x w with
  | returned a w₁ => rw [hw] at h; cases h; exact hok w a _ hw
  | raised e w₁ => rw [hw] at h; cases h; exact herr w e _ hw
  | blocked w₁ => rw [hw] at h; cases h

/-- A program that keeps the variable if an action fails. -/
theorem noPut_attempt {x : Effect W ε β} {k : Except ε β → Prog V ε α} (hx : Leaves (V.var l).get x)
    (hok : ∀ c, (k (.ok c)).NoPut l) (herr : ∀ e, (k (.error e)).NoPut l) :
    (act (attempt x) k).NoPut l := by
  refine ⟨leaves_attempt hx, fun r => ?_⟩
  cases r with
  | ok c => exact hok c
  | error e => exact herr e

theorem NoPut.bind {p : Prog V ε α} {f : α → Prog V ε β} (hp : p.NoPut l)
    (hf : ∀ a, (f a).NoPut l) : (p >>= f).NoPut l := by
  rw [bind_eq]
  induction p with
  | ret a => exact hf a
  | fail e => trivial
  | take l' k ih => exact hp.imp_right fun h b => ih b (h b)
  | put l' b k ih => exact ⟨hp.1, ih hp.2⟩
  | read l' k ih => exact hp.imp_right fun h b => ih b (h b)
  | act x k ih => exact ⟨hp.1, fun c => ih c (hp.2 c)⟩

/-- A program that carries out its plan can be followed by another one. -/
theorem Plan.bind {o : Option (J × V.Val l)} {js js' : List J} {p : Prog V ε α} {f : α → Prog V ε β}
    (hp : p.Plan l app lost as o js) (hf : ∀ a, (f a).Plan l app lost [] none js')
    (hkeep : ∀ a, (f a).NoPut l) : (p >>= f).Plan l app lost as o (js ++ js') := by
  rw [bind_eq]
  induction hp with
  | ret a => exact hf a
  | fail as js e => exact .fail _ _ e
  | skip hj _ ih => exact .skip hj ih
  | take _ ih => exact .take ih
  | put hj _ ih => exact .put hj ih
  | read _ ih => exact .read ih
  | takeOther hl _ ih => exact .takeOther hl ih
  | putOther hl _ ih => exact .putOther hl ih
  | readOther hl _ ih => exact .readOther hl ih
  | act hx hr _ ih => exact .act hx hr ih
  | keep hlost has hp => exact .keep hlost has (hp.bind hkeep)

/-- What a step does to the variable, and the plan that is left. -/
def Moves (l : L) (app : J × List (Label V) → V.Val l → V.Val l → Prop) (lost : J × List (Label V) → Prop)
    (as : List (Label V)) (o : Option (J × V.Val l)) (js : List J) (w w' : W) (p' : Prog V ε α) : Prop :=
  ((V.var l).get w' = (V.var l).get w ∧ p'.Plan l app lost as o js) ∨
  (∃ j js' b, o = none ∧ js = j :: js' ∧ (V.var l).get w = some b ∧ (V.var l).get w' = none ∧
    p'.Plan l app lost as (some (j, b)) js') ∨
  (∃ j b b', o = some (j, b) ∧ app (j, as) b b' ∧ (V.var l).get w' = some b' ∧
    p'.Plan l app lost [] none js)

/-- A step of a program that keeps the variable. -/
theorem NoPut.step {p p' : Prog V ε α} {w w' : W} {a : Label V} (hp : p.NoPut l)
    (hw : (V.var l).get w = none) (hstep : Does a (w, p) (w', p')) :
    (V.var l).get w' = none ∧ p'.NoPut l := by
  cases hstep with
  | @take _ l' b k hb =>
    rcases hp with rfl | hp
    · rw [hw] at hb
      cases hb
    · by_cases hl : l' = l
      · subst hl
        rw [hw] at hb
        cases hb
      · exact ⟨(V.apart l' l hl none w).trans hw, hp b⟩
  | @put _ l' b k hb => exact ⟨(V.apart l' l hp.1 _ w).trans hw, hp.2⟩
  | @read _ l' b k hb =>
    rcases hp with rfl | hp
    · rw [hw] at hb
      cases hb
    · exact ⟨hw, hp b⟩
  | act hx =>
    have hleaves := hp.1 w
    rw [hx] at hleaves
    exact ⟨hleaves.trans hw, hp.2 _⟩
  | raise hx =>
    have hleaves := hp.1 w
    rw [hx] at hleaves
    exact ⟨hleaves.trans hw, trivial⟩

/-- Jobs that are done without a section: they may change nothing. -/
def Skipped (app : J × List A → β → β → Prop) (done : List (J × List A)) : Prop := ∀ u ∈ done, ∀ v, app u v v

/-- After some jobs that change nothing, a step goes on with the plan. -/
theorem Plan.step {o : Option (J × V.Val l)} {js : List J} {p p' : Prog V ε α} {w w' : W} {a : Label V}
    (hp : p.Plan l app lost as o js) (ho : o ≠ none → (V.var l).get w = none)
    (hstep : Does a (w, p) (w', p')) :
    ∃ done as₂ js₂, js = done.map Prod.fst ++ js₂ ∧ as = (done.map Prod.snd).flatten ++ as₂ ∧
      Skipped app done ∧ (done ≠ [] → o = none) ∧ Moves l app lost (as₂ ++ [a]) o js₂ w w' p' := by
  have hnow : ∀ {as : List (Label V)} {o : Option (J × V.Val l)} {js : List J},
      Moves l app lost (as ++ [a]) o js w w' p' →
        ∃ done as₂ js₂, js = done.map Prod.fst ++ js₂ ∧ as = (done.map Prod.snd).flatten ++ as₂ ∧
          Skipped app done ∧ (done ≠ [] → o = none) ∧ Moves l app lost (as₂ ++ [a]) o js₂ w w' p' :=
    fun h => ⟨[], _, _, rfl, rfl, fun _ hu => absurd hu List.not_mem_nil, fun h => absurd rfl h, h⟩
  induction hp with
  | ret a => cases hstep
  | fail as js e => cases hstep
  | @skip as j js p hj _ ih =>
    obtain ⟨done, as₂, js₂, rfl, has, hdone, _, hm⟩ := ih ho hstep
    refine ⟨(j, as) :: done, as₂, js₂, rfl, ?_, ?_, fun _ => rfl, hm⟩
    · rw [List.map_cons, List.flatten_cons, List.append_assoc, ← has, List.append_nil]
    · intro u hu
      rcases List.mem_cons.mp hu with rfl | hu
      · exact hj
      · exact hdone u hu
  | take hk _ =>
    cases hstep with
    | take hb =>
      exact hnow (Or.inr (Or.inl ⟨_, _, _, rfl, rfl, hb, (V.var l).get_set _ _, hk _⟩))
  | put hj hk _ =>
    cases hstep with
    | put hb => exact hnow (Or.inr (Or.inr ⟨_, _, _, rfl, hj, (V.var l).get_set _ _, hk⟩))
  | read hk _ =>
    cases hstep with
    | read hb => exact hnow (Or.inl ⟨rfl, hk _⟩)
  | takeOther hl hk _ =>
    cases hstep with
    | take hb => exact hnow (Or.inl ⟨V.apart _ l hl _ _, hk _⟩)
  | putOther hl hk _ =>
    cases hstep with
    | put hb => exact hnow (Or.inl ⟨V.apart _ l hl _ _, hk⟩)
  | readOther hl hk _ =>
    cases hstep with
    | read hb => exact hnow (Or.inl ⟨rfl, hk _⟩)
  | @act as o js γ x k hx hr hk _ =>
    cases hstep with
    | act hc =>
      have hleaves := hx w
      rw [hc] at hleaves
      exact hnow (Or.inl ⟨hleaves, hk _ _ _ hc⟩)
    | raise hc =>
      have hleaves := hx w
      rw [hc] at hleaves
      refine hnow (Or.inl ⟨hleaves, ?_⟩)
      rcases hr with rfl | hr
      · exact .fail _ _ _
      · exact absurd hc (hr _ _ _)
  | keep hlost has hp =>
    have hw := ho (Option.some_ne_none _)
    obtain ⟨hw', hp'⟩ := hp.step hw hstep
    exact hnow (Or.inl ⟨hw'.trans hw.symm, .keep hlost (has.trans (List.prefix_append _ _)) hp'⟩)

end Plan

end Prog

/-! ## The account of the updates -/

section Account

variable {ι : Type} [DecidableEq ι] {app : J × List A → β → β → Prop} {jobs : ι → List J} {v₀ : β}
  {x : Option β} {T : List (ι × A)} {log : List (ι × J × List A)} {now : ι → Option (J × β)}
  {left : ι → List J} {cur : ι → List A} {i : ι}

/-- What the account has of one thread. -/
def logOf (log : List (ι × U)) (i : ι) : List U := (log.filter fun y => y.1 = i).map Prod.snd

theorem logOf_append (log log' : List (ι × U)) (i : ι) :
    logOf (log ++ log') i = logOf log i ++ logOf log' i := by
  rw [logOf, List.filter_append, List.map_append]
  rfl

theorem logOf_self (us : List U) (i : ι) : logOf (us.map (Prod.mk i)) i = us := by
  simp [logOf, List.filter_map, Function.comp_def]

theorem logOf_other (us : List U) {i j : ι} (h : i ≠ j) : logOf (us.map (Prod.mk i)) j = [] := by
  simp [logOf, List.filter_map, Function.comp_def, h]

/-- The jobs of an account of one thread, in their order. -/
def jobsOf (log : List (ι × J × List A)) (i : ι) : List J := (logOf log i).map Prod.fst

/-- What a thread did for the jobs of an account. -/
def didOf (log : List (ι × J × List A)) (i : ι) : List A := ((logOf log i).map Prod.snd).flatten

/-- The account says which jobs were done, in their order and each with what its thread did for it, which are
under way and which are left: of each thread all its jobs in its order, and all that it did. The value of the
variable, or what was taken from it, is where the jobs that were done lead to. -/
structure Account (app : J × List A → β → β → Prop) (jobs : ι → List J) (v₀ : β) (x : Option β)
    (T : List (ι × A)) (log : List (ι × J × List A)) (now : ι → Option (J × β)) (left : ι → List J)
    (cur : ι → List A) : Prop where
  whole : ∀ i, jobsOf log i ++ (((now i).map Prod.fst).toList ++ left i) = jobs i
  steps : ∀ i, didOf log i ++ cur i = logOf T i
  value : ∃ v, Leads app (log.map Prod.snd) v₀ v ∧
    ((x = some v ∧ ∀ i, now i = none) ∨ (x = none ∧ ∃ i j, now i = some (j, v) ∧ ∀ k, k ≠ i → now k = none))

theorem account_start (jobs : ι → List J) (v₀ : β) :
    Account app jobs v₀ (some v₀) [] [] (fun _ => none) jobs fun _ => [] where
  whole _ := rfl
  steps _ := rfl
  value := ⟨v₀, rfl, Or.inl ⟨rfl, fun _ => rfl⟩⟩

/-- A thread makes a step. -/
theorem Account.act (h : Account app jobs v₀ x T log now left cur) (i : ι) (a : A) :
    Account app jobs v₀ x (T ++ [(i, a)]) log now left (Function.update cur i (cur i ++ [a])) where
  whole := h.whole
  steps k := by
    have hone : [(i, a)] = [a].map (Prod.mk i) := rfl
    rw [hone, logOf_append, ← h.steps k]
    by_cases hik : i = k
    · subst hik
      rw [logOf_self, Function.update_self, List.append_assoc]
    · rw [logOf_other [a] hik, List.append_nil, Function.update_of_ne (Ne.symm hik)]
  value := h.value

/-- Jobs that change nothing are done. -/
theorem Account.skip (h : Account app jobs v₀ x T log now left cur) {done : List (J × List A)}
    {js : List J} {as : List A} (hleft : left i = done.map Prod.fst ++ js)
    (hcur : cur i = (done.map Prod.snd).flatten ++ as) (hdone : Prog.Skipped app done)
    (hnow : done ≠ [] → now i = none) :
    Account app jobs v₀ x T (log ++ done.map (Prod.mk i)) now (Function.update left i js)
      (Function.update cur i as) where
  whole k := by
    have hk := h.whole k
    unfold jobsOf at hk ⊢
    rw [logOf_append, List.map_append]
    by_cases hik : i = k
    · subst hik
      rw [logOf_self, Function.update_self, ← hk, hleft]
      by_cases hnil : done = []
      · subst hnil
        simp only [List.map_nil, List.append_nil, List.nil_append]
      · rw [hnow hnil]
        simp only [Option.map_none, Option.toList_none, List.nil_append, List.append_assoc]
    · rw [logOf_other done hik, List.map_nil, List.append_nil, Function.update_of_ne (Ne.symm hik)]
      exact hk
  steps k := by
    have hk := h.steps k
    unfold didOf at hk ⊢
    rw [logOf_append, List.map_append, List.flatten_append]
    by_cases hik : i = k
    · subst hik
      rw [logOf_self, Function.update_self, ← hk, hcur, List.append_assoc]
    · rw [logOf_other done hik, List.map_nil, List.flatten_nil, List.append_nil,
        Function.update_of_ne (Ne.symm hik)]
      exact hk
  value := by
    obtain ⟨v, hv, hx⟩ := h.value
    refine ⟨v, ?_, hx⟩
    rw [List.map_append, List.map_map]
    refine leads_append hv ?_
    have hmap : done.map (Prod.snd ∘ Prod.mk i) = done := List.map_id done
    rw [hmap]
    exact leads_same hdone v

/-- The next job of a thread is under way. -/
theorem Account.take (h : Account app jobs v₀ x T log now left cur) {j : J} {js : List J} {b : β}
    (hnow : now i = none) (hleft : left i = j :: js) (hx : x = some b) :
    Account app jobs v₀ none T log (Function.update now i (some (j, b))) (Function.update left i js)
      cur where
  whole k := by
    have hk := h.whole k
    by_cases hik : k = i
    · subst hik
      rw [hnow, hleft] at hk
      rw [Function.update_self, Function.update_self]
      exact hk
    · rw [Function.update_of_ne hik, Function.update_of_ne hik]
      exact hk
  steps := h.steps
  value := by
    obtain ⟨v, hv, ⟨hxv, hnone⟩ | ⟨hxv, _⟩⟩ := h.value
    · rw [hx] at hxv
      cases hxv
      refine ⟨b, hv, Or.inr ⟨rfl, i, j, Function.update_self .., fun k hk => ?_⟩⟩
      rw [Function.update_of_ne hk]
      exact hnone k
    · rw [hx] at hxv
      cases hxv

/-- The job that is under way is done. -/
theorem Account.put (h : Account app jobs v₀ x T log now left cur) {j : J} {b b' : β}
    (hnow : now i = some (j, b)) (hj : app (j, cur i) b b') :
    Account app jobs v₀ (some b') T (log ++ [(i, j, cur i)]) (Function.update now i none) left
      (Function.update cur i []) where
  whole k := by
    have hk := h.whole k
    have hone : [(i, j, cur i)] = [(j, cur i)].map (Prod.mk i) := rfl
    unfold jobsOf at hk ⊢
    rw [hone, logOf_append, List.map_append]
    by_cases hik : i = k
    · subst hik
      rw [hnow] at hk
      rw [Function.update_self, logOf_self, List.append_assoc]
      exact hk
    · rw [Function.update_of_ne (Ne.symm hik), logOf_other _ hik, List.map_nil, List.append_nil]
      exact hk
  steps k := by
    have hk := h.steps k
    have hone : [(i, j, cur i)] = [(j, cur i)].map (Prod.mk i) := rfl
    unfold didOf at hk ⊢
    rw [hone, logOf_append, List.map_append, List.flatten_append]
    by_cases hik : i = k
    · subst hik
      rw [Function.update_self, logOf_self, ← hk]
      simp only [List.map_cons, List.map_nil, List.flatten_cons, List.flatten_nil, List.append_nil]
    · rw [Function.update_of_ne (Ne.symm hik), logOf_other _ hik, List.map_nil, List.flatten_nil,
        List.append_nil]
      exact hk
  value := by
    obtain ⟨v, hv, ⟨_, hnone⟩ | ⟨_, k, j', hk, hothers⟩⟩ := h.value
    · rw [hnone i] at hnow
      cases hnow
    · have hik : i = k := by
        by_contra hik
        rw [hothers i hik] at hnow
        cases hnow
      subst hik
      rw [hnow] at hk
      cases hk
      refine ⟨b', ?_, Or.inl ⟨rfl, fun k => ?_⟩⟩
      · rw [List.map_append]
        exact leads_append hv ⟨b', hj, rfl⟩
      · by_cases hk : k = i
        · subst hk
          exact Function.update_self ..
        · rw [Function.update_of_ne hk]
          exact hothers k hk

end Account

/-! ## Runs -/

namespace Pool

open Prog

variable {ι : Type} [DecidableEq ι] {l : L} {app : J × List (Label V) → V.Val l → V.Val l → Prop}
  {lost : J × List (Label V) → Prop} {jobs : ι → List J} {v₀ : V.Val l} {c c' : Pool V ε ι}
  {T : List (ι × Label V)} {log : List (ι × J × List (Label V))} {now : ι → Option (J × V.Val l)}
  {left : ι → List J} {cur : ι → List (Label V)}

/-- The account of a pool: the threads go by their plans. -/
structure Serial (l : L) (app : J × List (Label V) → V.Val l → V.Val l → Prop)
    (lost : J × List (Label V) → Prop) (jobs : ι → List J) (v₀ : V.Val l) (c : Pool V ε ι)
    (T : List (ι × Label V)) (log : List (ι × J × List (Label V))) (now : ι → Option (J × V.Val l))
    (left : ι → List J) (cur : ι → List (Label V)) : Prop where
  plan : ∀ i, (c.thread i).Plan l app lost (cur i) (now i) (left i)
  account : Account app jobs v₀ ((V.var l).get c.world) T log now left cur

theorem serial_start (hv : (V.var l).get c.world = some v₀)
    (hplan : ∀ i, (c.thread i).Plan l app lost [] none (jobs i)) :
    Serial l app lost jobs v₀ c [] [] (fun _ => none) jobs fun _ => [] where
  plan := hplan
  account := by rw [hv]; exact account_start jobs v₀

/-- An update is under way only while the variable is empty. -/
theorem Serial.empty (h : Serial l app lost jobs v₀ c T log now left cur) {i : ι} (hi : now i ≠ none) :
    (V.var l).get c.world = none := by
  obtain ⟨v, _, ⟨_, hnone⟩ | ⟨hx, _⟩⟩ := h.account.value
  · exact absurd (hnone i) hi
  · exact hx

/-- The plans after a step of thread `i`. -/
theorem plan_update (h : ∀ k, (c.thread k).Plan l app lost (cur k) (now k) (left k)) {i : ι}
    {p' : Prog V ε Unit} {as : List (Label V)} {o : Option (J × V.Val l)} {js : List J}
    (hp : p'.Plan l app lost as o js) (k : ι) :
    (Function.update c.thread i p' k).Plan l app lost (Function.update cur i as k)
      (Function.update now i o k) (Function.update left i js k) := by
  by_cases hk : k = i
  · subst hk
    simpa only [Function.update_self] using hp
  · simpa only [Function.update_of_ne hk] using h k

theorem Serial.threadStep (h : Serial l app lost jobs v₀ c T log now left cur) {i : ι} {a : Label V}
    {w' : W} {p' : Prog V ε Unit} (hstep : Does a (c.world, c.thread i) (w', p')) :
    ∃ log' now' left' cur',
      Serial l app lost jobs v₀ ⟨w', Function.update c.thread i p'⟩ (T ++ [(i, a)]) log' now' left' cur' := by
  obtain ⟨done, as, js, hleft, hcur, hdone, hnow, hm⟩ := (h.plan i).step h.empty hstep
  have hacc := (h.account.skip hleft hcur hdone hnow).act i a
  rw [Function.update_self, Function.update_idem] at hacc
  have hleft₂ : Function.update left i js i = js := Function.update_self ..
  have hcur₂ : Function.update cur i (as ++ [a]) i = as ++ [a] := Function.update_self ..
  rcases hm with ⟨hget, hp⟩ | ⟨j, js', b, ho, rfl, hb, hempty, hp⟩ | ⟨j, b, b', ho, hj, hb', hp⟩
  · refine ⟨log ++ done.map (Prod.mk i), now, Function.update left i js, Function.update cur i (as ++ [a]),
      ?_, ?_⟩
    · intro k
      have hk := plan_update (i := i) h.plan hp k
      rwa [Function.update_eq_self] at hk
    · change Account app jobs v₀ ((V.var l).get w') _ _ _ _ _
      rw [hget]
      exact hacc
  · refine ⟨log ++ done.map (Prod.mk i), _, _, _, plan_update h.plan hp, ?_⟩
    change Account app jobs v₀ ((V.var l).get w') _ _ _ _ _
    rw [hempty]
    have htake := hacc.take ho hleft₂ hb
    rwa [Function.update_idem] at htake
  · refine ⟨log ++ done.map (Prod.mk i) ++ [(i, j, as ++ [a])], _, _, _, plan_update h.plan hp, ?_⟩
    change Account app jobs v₀ ((V.var l).get w') _ _ _ _ _
    rw [hb']
    rw [← hcur₂] at hj
    have hput := hacc.put ho hj
    rwa [hcur₂, Function.update_idem] at hput

theorem Serial.path (h : Serial l app lost jobs v₀ c [] log now left cur) (hpath : Path c T c') :
    ∃ log' now' left' cur', Serial l app lost jobs v₀ c' T log' now' left' cur' := by
  induction hpath with
  | start => exact ⟨log, now, left, cur, h⟩
  | thread i _ hstep ih =>
    obtain ⟨log', now', left', cur', h'⟩ := ih
    exact h'.threadStep hstep
  | outside w' _ hget ih =>
    obtain ⟨log', now', left', cur', h'⟩ := ih
    refine ⟨log', now', left', cur', h'.plan, ?_⟩
    change Account app jobs v₀ ((V.var l).get w') _ _ _ _ _
    rw [hget]
    exact h'.account

/-- A thread that has returned has done its jobs, but for some that change nothing. -/
theorem plan_ret {as : List (Label V)} {o : Option (J × V.Val l)} {js : List J} {a : α}
    (h : (Prog.ret a : Prog V ε α).Plan l app lost as o js) (ho : o = none) :
    ∃ done, js = done.map Prod.fst ∧ as = (done.map Prod.snd).flatten ∧ Skipped app done := by
  generalize hp : (Prog.ret a : Prog V ε α) = p at h
  induction h with
  | ret => exact ⟨[], rfl, rfl, fun _ hu => absurd hu List.not_mem_nil⟩
  | @skip as j js p hj _ ih =>
    obtain ⟨done, rfl, has, hdone⟩ := ih ho hp
    refine ⟨(j, as) :: done, rfl, ?_, ?_⟩
    · rw [List.map_cons, List.flatten_cons, ← has, List.append_nil]
    · intro u hu
      rcases List.mem_cons.mp hu with rfl | hu
      · exact hj
      · exact hdone u hu
  | keep => cases ho
  | _ => cases hp

/-- What is left of an account in which every job may change nothing. -/
theorem account_finish {x : Option (V.Val l)}
    (h : Account app jobs v₀ x T log (fun _ => none) left cur)
    (hskip : ∀ i, ∃ done, left i = done.map Prod.fst ∧ cur i = (done.map Prod.snd).flatten ∧ Skipped app done)
    (is : List ι) :
    ∃ log' left' cur', Account app jobs v₀ x T log' (fun _ => none) left' cur' ∧
      (∀ i ∈ is, left' i = [] ∧ cur' i = []) ∧
      ∀ i, ∃ done, left' i = done.map Prod.fst ∧ cur' i = (done.map Prod.snd).flatten ∧ Skipped app done := by
  induction is with
  | nil => exact ⟨log, left, cur, h, fun _ hi => absurd hi List.not_mem_nil, hskip⟩
  | cons i is ih =>
    obtain ⟨log', left', cur', h', his, hskip'⟩ := ih
    obtain ⟨done, hleft, hcur, hdone⟩ := hskip' i
    rw [← List.append_nil (List.map _ _)] at hleft
    rw [← List.append_nil (List.flatten _)] at hcur
    refine ⟨_, _, _, h'.skip hleft hcur hdone fun _ => rfl, ?_, ?_⟩
    · intro k hk
      by_cases hki : k = i
      · subst hki
        exact ⟨Function.update_self .., Function.update_self ..⟩
      · rw [Function.update_of_ne hki, Function.update_of_ne hki]
        exact his k ((List.mem_cons.mp hk).resolve_left hki)
    · intro k
      by_cases hki : k = i
      · subst hki
        exact ⟨[], Function.update_self .., Function.update_self .., fun _ hu => absurd hu List.not_mem_nil⟩
      · rw [Function.update_of_ne hki, Function.update_of_ne hki]
        exact hskip' k

/-- When all threads have returned and the variable has a value, it is the one that all jobs lead to: each was
done once, those of every thread in its order, and what the thread did is what it did for them. -/
theorem Serial.finished [Fintype ι] (h : Serial l app lost jobs v₀ c T log now left cur)
    (hret : ∀ i, ∃ a, c.thread i = .ret a) {v : V.Val l} (hv : (V.var l).get c.world = some v) :
    ∃ log : List (ι × J × List (Label V)), Leads app (log.map Prod.snd) v₀ v ∧
      ∀ i, jobsOf log i = jobs i ∧ didOf log i = logOf T i := by
  have hnow : now = fun _ => none := by
    obtain ⟨_, _, ⟨_, hnone⟩ | ⟨hx, _⟩⟩ := h.account.value
    · exact funext hnone
    · rw [hv] at hx
      cases hx
  subst hnow
  have hskip : ∀ i, ∃ done, left i = done.map Prod.fst ∧ cur i = (done.map Prod.snd).flatten ∧
      Skipped app done := by
    intro i
    obtain ⟨a, ha⟩ := hret i
    have hplan := h.plan i
    rw [ha] at hplan
    exact plan_ret hplan rfl
  obtain ⟨log', left', cur', hacc, hleft, _⟩ := account_finish h.account hskip Finset.univ.toList
  obtain ⟨v', hlead, ⟨hx, _⟩ | ⟨hx, _⟩⟩ := hacc.value
  · rw [hv] at hx
    cases hx
    refine ⟨log', hlead, fun i => ?_⟩
    obtain ⟨hleft, hcur⟩ := hleft i (Finset.mem_toList.mpr (Finset.mem_univ i))
    have hi := hacc.whole i
    have hi' := hacc.steps i
    rw [hleft, List.append_nil, show (Option.map Prod.fst (none : Option (J × V.Val l))).toList = [] from rfl,
      List.append_nil] at hi
    rw [hcur, List.append_nil] at hi'
    exact ⟨hi, hi'⟩
  · rw [hv] at hx
    cases hx

/-- A program that has ended or waits for the variable, while it has the variable itself: its job has lost
the variable. -/
theorem plan_lost {as : List (Label V)} {j : J} {b : V.Val l} {js : List J} {p : Prog V ε α}
    (h : p.Plan l app lost as (some (j, b)) js) (hp : p.Ended ∨ p.Awaits l) :
    ∃ as', as' <+: as ∧ lost (j, as') := by
  cases h with
  | keep hlost has _ => exact ⟨_, has, hlost⟩
  | put => rcases hp with hp | ⟨k, hk | hk⟩ <;> contradiction
  | takeOther hl =>
    rcases hp with hp | ⟨k, hk | hk⟩
    · contradiction
    · cases hk
      exact absurd rfl hl
    · contradiction
  | putOther => rcases hp with hp | ⟨k, hk | hk⟩ <;> contradiction
  | readOther hl =>
    rcases hp with hp | ⟨k, hk | hk⟩
    · contradiction
    · contradiction
    · cases hk
      exact absurd rfl hl
  | act => rcases hp with hp | ⟨k, hk | hk⟩ <;> contradiction

/-- Where the variable is empty and every thread has ended or waits for it, some job has lost it: what its
thread did for it is part of what the thread did. -/
theorem Serial.exists_lost (h : Serial l app lost jobs v₀ c T log now left cur) (hx : (V.var l).get c.world = none)
    (hrest : ∀ i, (c.thread i).Ended ∨ (c.thread i).Awaits l) :
    ∃ i, ∃ j ∈ jobs i, ∃ as, as <:+: logOf T i ∧ lost (j, as) := by
  obtain ⟨v, _, ⟨hx', _⟩ | ⟨_, i, j, hi, _⟩⟩ := h.account.value
  · rw [hx] at hx'
    cases hx'
  · have hplan := h.plan i
    have hwhole := h.account.whole i
    rw [hi] at hplan hwhole
    obtain ⟨as, has, hlost⟩ := plan_lost hplan (hrest i)
    refine ⟨i, j, ?_, as, ?_, hlost⟩
    · rw [← hwhole]
      simp
    · rw [← h.account.steps i]
      exact has.isInfix.trans (List.suffix_append _ _).isInfix

end Pool

end Concurrent
