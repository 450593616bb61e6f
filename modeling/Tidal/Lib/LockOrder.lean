import Tidal.Lib.Concurrent

/-!
# Variables that are taken in order

The variables have a rank, and every thread takes them in ascending order: it waits for one only while
those that it has rank lower. Then threads that wait for each other do so upwards, and the last of them
waits for nothing. Some variables are `lossy`: a thread may come to its end without putting them back.
Threads that wait for ever wait for one of those, or below one of those.
-/

namespace Concurrent

open Effect MVar

variable {L W ε α β : Type} {V : Vars L W}

/-- The action touches no variable and does not wait. -/
structure Confined (V : Vars L W) (x : Effect W ε α) : Prop where
  leaves : ∀ l, Leaves (V.var l).get x
  goes : ∀ w w', x w ≠ .blocked w'

/-- The action raises nothing. -/
def Quiet (x : Effect W ε α) : Prop := ∀ w e w', x w ≠ .raised e w'

theorem confined_pure (a : α) : Confined V (pure a : Effect W ε α) :=
  ⟨fun _ => leaves_pure a, fun _ _ h => by cases h⟩

theorem Confined.bind {x : Effect W ε α} {f : α → Effect W ε β} (hx : Confined V x)
    (hf : ∀ a, Confined V (f a)) : Confined V (x >>= f) where
  leaves l := leaves_bind (hx.leaves l) fun a => (hf a).leaves l
  goes w w' h := by
    rw [bind_run] at h
    cases hw : x w with
    | returned a w₁ => rw [hw] at h; exact (hf a).goes w₁ w' h
    | raised e w₁ => rw [hw] at h; cases h
    | blocked w₁ => exact hx.goes w w₁ hw

theorem Confined.handle {h : ε → Effect W ε α} {x : Effect W ε α} (hh : ∀ e, Confined V (h e))
    (hx : Confined V x) : Confined V (Effect.handle h x) where
  leaves l := leaves_handle (fun e => (hh e).leaves l) (hx.leaves l)
  goes w w' hr := by
    unfold Effect.handle at hr
    cases hw : x w with
    | returned a w₁ => rw [hw] at hr; cases hr
    | raised e w₁ => rw [hw] at hr; exact (hh e).goes w₁ w' hr
    | blocked w₁ => exact hx.goes w w₁ hw

theorem confined_mapM {f : α → Effect W ε β} (hf : ∀ a, Confined V (f a)) (xs : List α) :
    Confined V (Effect.mapM f xs) := by
  induction xs with
  | nil => exact confined_pure []
  | cons x xs ih => exact (hf x).bind fun _ => ih.bind fun _ => confined_pure _

theorem confined_forM_ {f : α → Effect W ε Unit} (hf : ∀ a, Confined V (f a)) (xs : List α) :
    Confined V (forM_ xs f) :=
  (confined_mapM hf xs).bind fun _ => confined_pure ()

/-- An action that is tried out raises nothing. -/
theorem quiet_attempt (x : Effect W ε α) : Quiet (Prog.attempt x) := by
  intro w e w' h
  unfold Prog.attempt at h
  cases hx : x w <;> rw [hx] at h <;> cases h

theorem Confined.attempt {x : Effect W ε α} (hx : Confined V x) : Confined V (Prog.attempt x) where
  leaves l w := by
    have hw := hx.leaves l w
    unfold Prog.attempt
    cases h : x w <;> rw [h] at hw <;> exact hw
  goes w w' h := by
    unfold Prog.attempt at h
    cases hw : x w with
    | blocked w₁ => exact hx.goes w w₁ hw
    | _ => rw [hw] at h; cases h

namespace Prog

section Ordered

variable (rank : L → ℕ) (lossy : L → Prop)

/-- Each of the variables may be lost. -/
def AllLossy (hs : List L) : Prop := ∀ h ∈ hs, lossy h

/-- A program that has the variables `hs`: it takes and reads variables that rank higher than those it
has, but for lossy ones; it puts the one it took last; and it ends with lossy ones only. -/
def Ordered : Prog V ε α → List L → Prop
  | ret _, hs => AllLossy lossy hs
  | fail _, hs => AllLossy lossy hs
  | take l k, hs => (∀ h ∈ hs, rank h < rank l ∨ lossy h) ∧ ∀ b, (k b).Ordered (l :: hs)
  | put l _ k, hs => ∃ hs', hs = l :: hs' ∧ k.Ordered hs'
  | read l k, hs => (∀ h ∈ hs, rank h < rank l ∨ lossy h) ∧ ∀ b, (k b).Ordered hs
  | act x k, hs => Confined V x ∧ (Quiet x ∨ AllLossy lossy hs) ∧
      ∀ c, (∃ w w', x w = .returned c w') → (k c).Ordered hs

variable {rank lossy} {hs : List L}

theorem ordered_take {l : L} {k : V.Val l → Prog V ε α} (hl : ∀ h ∈ hs, rank h < rank l ∨ lossy h)
    (hk : ∀ b, (k b).Ordered rank lossy (l :: hs)) : (take l k).Ordered rank lossy hs := ⟨hl, hk⟩

theorem ordered_put {l : L} {b : V.Val l} {k : Prog V ε α} (hk : k.Ordered rank lossy hs) :
    (put l b k).Ordered rank lossy (l :: hs) := ⟨hs, rfl, hk⟩

theorem ordered_read {l : L} {k : V.Val l → Prog V ε α} (hl : ∀ h ∈ hs, rank h < rank l ∨ lossy h)
    (hk : ∀ b, (k b).Ordered rank lossy hs) : (read l k).Ordered rank lossy hs := ⟨hl, hk⟩

/-- An action under a handler. -/
theorem ordered_attempt {x : Effect W ε β} {k : Except ε β → Prog V ε α} (hx : Confined V x)
    (hok : ∀ c, (∃ w w', x w = .returned c w') → (k (.ok c)).Ordered rank lossy hs)
    (herr : ∀ e, (∃ w w', x w = .raised e w') → (k (.error e)).Ordered rank lossy hs) :
    (act (attempt x) k).Ordered rank lossy hs := by
  refine ⟨hx.attempt, Or.inl (quiet_attempt x), ?_⟩
  rintro c ⟨w, w', hc⟩
  unfold attempt at hc
  cases hw : x w with
  | returned a w₁ => rw [hw] at hc; cases hc; exact hok a ⟨w, _, hw⟩
  | raised e w₁ => rw [hw] at hc; cases hc; exact herr e ⟨w, _, hw⟩
  | blocked w₁ => rw [hw] at hc; cases hc

theorem ordered_act {x : Effect W ε β} {k : β → Prog V ε α} (hx : Confined V x)
    (hl : AllLossy lossy hs) (hk : ∀ c, (k c).Ordered rank lossy hs) :
    (act x k).Ordered rank lossy hs := ⟨hx, Or.inr hl, fun c _ => hk c⟩

theorem Ordered.bind {p : Prog V ε α} {f : α → Prog V ε β} (hp : p.Ordered rank lossy hs)
    (hf : ∀ a hs, AllLossy lossy hs → (f a).Ordered rank lossy hs) :
    (p >>= f).Ordered rank lossy hs := by
  rw [bind_eq]
  induction p generalizing hs with
  | ret a => exact hf a hs hp
  | fail e => exact hp
  | take l k ih => exact ⟨hp.1, fun b => ih b (hp.2 b)⟩
  | put l b k ih =>
    obtain ⟨hs', heq, hk⟩ := hp
    exact ⟨hs', heq, ih hk⟩
  | read l k ih => exact ⟨hp.1, fun b => ih b (hp.2 b)⟩
  | act x k ih => exact ⟨hp.1, hp.2.1, fun c hc => ih c (hp.2.2 c hc)⟩

end Ordered

end Prog

/-! ## The invariant -/

namespace Pool

variable {ι : Type} {rank : L → ℕ} {lossy : L → Prop} {c c' : Pool V ε ι}
  {held : ι → List L}

/-- `held` says which variables the threads have: the empty ones, each with one thread. -/
structure Holds (rank : L → ℕ) (lossy : L → Prop) (c : Pool V ε ι) (held : ι → List L) : Prop where
  ordered : ∀ i, (c.thread i).Ordered rank lossy (held i)
  nodup : ∀ i, (held i).Nodup
  empty : ∀ l, (V.var l).get c.world = none ↔ ∃ i, l ∈ held i
  single : ∀ i j l, l ∈ held i → l ∈ held j → i = j

/-- At first every variable is full, and no thread has one. -/
theorem holds_start (hfull : ∀ l, (V.var l).get c.world ≠ none)
    (hord : ∀ i, (c.thread i).Ordered rank lossy []) : Holds rank lossy c fun _ => [] where
  ordered := hord
  nodup _ := List.nodup_nil
  empty l := ⟨fun h => absurd h (hfull l), fun ⟨_, h⟩ => absurd h List.not_mem_nil⟩
  single _ _ _ h := absurd h List.not_mem_nil

/-- What happens outside changes nothing. -/
theorem Holds.outside (h : Holds rank lossy c held) {w' : W}
    (hget : ∀ l, (V.var l).get w' = (V.var l).get c.world) :
    Holds rank lossy ⟨w', c.thread⟩ held :=
  ⟨h.ordered, h.nodup, fun l => by rw [hget]; exact h.empty l, h.single⟩

/-- The next access of the thread is to this variable, which is empty. -/
def Waits (c : Pool V ε ι) (i : ι) (l : L) : Prop :=
  (V.var l).get c.world = none ∧ (c.thread i).Awaits l

/-- A thread that waits has only variables that rank lower, but for lossy ones. -/
theorem Holds.rank_lt (h : Holds rank lossy c held) {i : ι} {l l' : L} (hw : Waits c i l)
    (hl' : l' ∈ held i) : rank l' < rank l ∨ lossy l' := by
  have hord := h.ordered i
  obtain ⟨_, k, hk | hk⟩ := hw
  · rw [hk] at hord
    exact hord.1 l' hl'
  · rw [hk] at hord
    exact hord.1 l' hl'

variable [DecidableEq ι]

/-- A step of thread `i` leaves the programs of the others as they were. -/
theorem ordered_update (h : ∀ j, (c.thread j).Ordered rank lossy (held j)) {i : ι}
    {p' : Prog V ε Unit} {hs' : List L} (hp : p'.Ordered rank lossy hs') (j : ι) :
    (Function.update c.thread i p' j).Ordered rank lossy (Function.update held i hs' j) := by
  by_cases hj : j = i
  · subst hj
    simpa only [Function.update_self] using hp
  · simpa only [Function.update_of_ne hj] using h j

theorem nodup_update (h : ∀ j, (held j).Nodup) {i : ι} {hs' : List L} (hnd : hs'.Nodup) :
    ∀ j, (Function.update held i hs' j).Nodup :=
  (Function.forall_update_iff held fun _ hs => hs.Nodup).mpr ⟨hnd, fun j _ => h j⟩

section Step

variable {i : ι} {w' : W} {p' : Prog V ε Unit}

/-- A step that changes no variable. -/
theorem Holds.same (h : Holds rank lossy c held)
    (hget : ∀ l, (V.var l).get w' = (V.var l).get c.world) (hp : p'.Ordered rank lossy (held i)) :
    Holds rank lossy ⟨w', Function.update c.thread i p'⟩ held where
  ordered j := by
    have hall := ordered_update (i := i) h.ordered hp j
    rwa [Function.update_eq_self] at hall
  nodup := h.nodup
  empty l := by rw [hget]; exact h.empty l
  single := h.single

/-- A full variable is taken. -/
theorem Holds.take (h : Holds rank lossy c held) {l : L} {b : V.Val l}
    (hb : (V.var l).get c.world = some b) (hp : p'.Ordered rank lossy (l :: held i)) :
    Holds rank lossy ⟨(V.var l).set none c.world, Function.update c.thread i p'⟩
      (Function.update held i (l :: held i)) := by
  have hnot : ∀ j, l ∉ held j := fun j hj => by
    rw [(h.empty l).mpr ⟨j, hj⟩] at hb
    cases hb
  have hmem : ∀ j x, x ∈ Function.update held i (l :: held i) j ↔ x ∈ held j ∨ j = i ∧ x = l := by
    intro j x
    by_cases hj : j = i
    · subst hj
      rw [Function.update_self, List.mem_cons]
      tauto
    · rw [Function.update_of_ne hj]
      tauto
  refine ⟨ordered_update h.ordered hp,
    nodup_update h.nodup (List.nodup_cons.mpr ⟨hnot i, h.nodup i⟩), ?_, ?_⟩
  · intro x
    by_cases hx : l = x
    · subst hx
      exact ⟨fun _ => ⟨i, (hmem i l).mpr (Or.inr ⟨rfl, rfl⟩)⟩, fun _ => (V.var l).get_set _ _⟩
    · rw [V.apart l x hx none c.world, h.empty x]
      simp only [hmem, Ne.symm hx, and_false, or_false]
  · intro j k x hj hk
    rcases (hmem j x).mp hj with hj | ⟨hji, hx⟩ <;> rcases (hmem k x).mp hk with hk | ⟨hki, hx'⟩
    · exact h.single j k x hj hk
    · exact absurd (hx' ▸ hj) (hnot j)
    · exact absurd (hx ▸ hk) (hnot k)
    · exact hji.trans hki.symm

/-- The variable that was taken last is put. -/
theorem Holds.put (h : Holds rank lossy c held) {l : L} {b : V.Val l} {hs : List L}
    (hheld : held i = l :: hs) (hp : p'.Ordered rank lossy hs) :
    Holds rank lossy ⟨(V.var l).set (some b) c.world, Function.update c.thread i p'⟩
      (Function.update held i hs) := by
  have hnd := h.nodup i
  rw [hheld, List.nodup_cons] at hnd
  have hmem : ∀ j x, x ∈ Function.update held i hs j ↔ x ∈ held j ∧ x ≠ l := by
    intro j x
    by_cases hj : j = i
    · subst hj
      rw [Function.update_self, hheld, List.mem_cons]
      constructor
      · intro hx
        exact ⟨Or.inr hx, fun heq => hnd.1 (heq ▸ hx)⟩
      · rintro ⟨hx | hx, hne⟩
        · exact absurd hx hne
        · exact hx
    · rw [Function.update_of_ne hj]
      refine ⟨fun hx => ⟨hx, ?_⟩, fun hx => hx.1⟩
      rintro rfl
      exact hj (h.single j i x hx (by rw [hheld]; exact List.mem_cons_self))
  refine ⟨ordered_update h.ordered hp, nodup_update h.nodup hnd.2, ?_, ?_⟩
  · intro x
    by_cases hx : l = x
    · subst hx
      rw [(V.var l).get_set]
      simp only [hmem, ne_eq, not_true_eq_false, and_false, exists_false, reduceCtorEq]
    · rw [V.apart l x hx _ c.world, h.empty x]
      simp only [hmem, ne_eq, Ne.symm hx, not_false_eq_true, and_true]
  · intro j k x hj hk
    exact h.single j k x ((hmem j x).mp hj).1 ((hmem k x).mp hk).1

/-- Every step of a thread keeps account of who has what. -/
theorem Holds.threadStep (h : Holds rank lossy c held) (hstep : ThreadStep i c c') :
    ∃ held', Holds rank lossy c' held' := by
  obtain ⟨hstep⟩ := hstep
  have hord := h.ordered i
  generalize c.thread i = p at hstep hord
  cases hstep with
  | take hb => exact ⟨_, h.take hb (hord.2 _)⟩
  | put hb =>
    obtain ⟨hs, hheld, hk⟩ := hord
    exact ⟨_, h.put hheld hk⟩
  | read hb => exact ⟨_, h.same (fun _ => rfl) (hord.2 _)⟩
  | act hx =>
    refine ⟨_, h.same (fun l => ?_) (hord.2.2 _ ⟨_, _, hx⟩)⟩
    have hleaves := hord.1.leaves l c.world
    rwa [hx] at hleaves
  | raise hx =>
    refine ⟨_, h.same (fun l => ?_) ?_⟩
    · have hleaves := hord.1.leaves l c.world
      rwa [hx] at hleaves
    · rcases hord.2.1 with hq | hl
      · exact absurd hx (hq _ _ _)
      · exact hl

end Step

theorem Holds.reachable (h : Holds rank lossy c held) (hr : Reachable c c') :
    ∃ held', Holds rank lossy c' held' := by
  induction hr with
  | refl => exact ⟨held, h⟩
  | tail _ hstep ih =>
    obtain ⟨held', h'⟩ := ih
    cases hstep with
    | thread i hi => exact h'.threadStep hi
    | outside w' hget => exact ⟨held', h'.outside hget⟩

/-! ## Waiting -/

/-- A thread that cannot make a step has ended or waits for a variable. -/
theorem Holds.ended_or_waits (h : Holds rank lossy c held) {i : ι} (hi : ¬ CanStep c i) :
    (c.thread i).Ended ∨ ∃ l, Waits c i l := by
  have hstuck : ∀ w' p', ¬ Prog.Step (c.world, c.thread i) (w', p') := fun w' p' hs => hi ⟨_, ⟨hs⟩⟩
  have hord := h.ordered i
  unfold Waits
  generalize c.thread i = p at hstuck hord
  cases p with
  | ret a => exact Or.inl trivial
  | fail e => exact Or.inl trivial
  | take l k =>
    right
    cases hb : (V.var l).get c.world with
    | none => exact ⟨l, hb, k, Or.inl rfl⟩
    | some b => exact absurd (.take hb) (hstuck _ _)
  | put l b k =>
    obtain ⟨hs, hheld, _⟩ := hord
    have hempty := (h.empty l).mpr ⟨i, by rw [hheld]; exact List.mem_cons_self⟩
    exact absurd (.put hempty) (hstuck _ _)
  | read l k =>
    right
    cases hb : (V.var l).get c.world with
    | none => exact ⟨l, hb, k, Or.inr rfl⟩
    | some b => exact absurd (.read hb) (hstuck _ _)
  | act x k =>
    cases hx : x c.world with
    | returned a w' => exact absurd (.act hx) (hstuck _ _)
    | raised e w' => exact absurd (.raise hx) (hstuck _ _)
    | blocked w' => exact absurd hx (hord.1.goes _ _)

/-- Where no thread can make a step, whoever waits does so for a lossy variable, or below one. -/
theorem Holds.waits_below_lossy (h : Holds rank lossy c held) {n : ℕ} (hn : ∀ l, rank l < n)
    (hstuck : ∀ i, ¬ CanStep c i) {i : ι} {l : L} (hw : Waits c i l) :
    ∃ l', rank l ≤ rank l' ∧ lossy l' ∧ (V.var l').get c.world = none := by
  -- along the threads that wait for each other the rank rises
  induction hd : n - rank l using Nat.strong_induction_on generalizing i l with
  | h d ih =>
    obtain ⟨j, hj⟩ := (h.empty l).mp hw.1
    rcases h.ended_or_waits (hstuck j) with hend | ⟨l', hw'⟩
    · refine ⟨l, le_refl _, ?_, hw.1⟩
      have hord := h.ordered j
      generalize c.thread j = p at hord hend
      cases p with
      | ret a => exact hord l hj
      | fail e => exact hord l hj
      | _ => cases hend
    · rcases h.rank_lt hw' hj with hlt | hlossy
      · obtain ⟨l'', hle, hl''⟩ := ih (n - rank l') (by have := hn l'; omega) hw' rfl
        exact ⟨l'', by omega, hl''⟩
      · exact ⟨l, le_refl _, hlossy, hw.1⟩

/-- If only the variables of the lowest rank may be lost: where no thread can make a step, every thread
has ended or waits for one of those. -/
theorem Holds.stuck (h : Holds rank lossy c held) {n : ℕ} (hn : ∀ l, rank l < n)
    (hlow : ∀ l l', lossy l' → rank l ≤ rank l' → l = l') (hstuck : ∀ i, ¬ CanStep c i) (i : ι) :
    (c.thread i).Ended ∨ ∃ l, lossy l ∧ Waits c i l := by
  rcases h.ended_or_waits (hstuck i) with hend | ⟨l, hw⟩
  · exact Or.inl hend
  · obtain ⟨l', hle, hlossy, _⟩ := h.waits_below_lossy hn hstuck hw
    have heq := hlow l l' hlossy hle
    exact Or.inr ⟨l, heq ▸ hlossy, hw⟩

/-- And the other variables are full. -/
theorem Holds.full (h : Holds rank lossy c held) {n : ℕ} (hn : ∀ l, rank l < n)
    (hlow : ∀ l l', lossy l' → rank l ≤ rank l' → l = l') (hstuck : ∀ i, ¬ CanStep c i) {l : L}
    (hl : ¬ lossy l) : (V.var l).get c.world ≠ none := by
  intro hempty
  obtain ⟨j, hj⟩ := (h.empty l).mp hempty
  rcases h.stuck hn hlow hstuck j with hend | ⟨l', hl', hw⟩
  · have hord := h.ordered j
    generalize c.thread j = p at hord hend
    cases p with
    | ret a => exact hl (hord l hj)
    | fail e => exact hl (hord l hj)
    | _ => cases hend
  · rcases h.rank_lt hw hj with hlt | hlossy
    · exact hl (hlow l l' hl' (le_of_lt hlt) ▸ hl')
    · exact hl hlossy

end Pool

end Concurrent
