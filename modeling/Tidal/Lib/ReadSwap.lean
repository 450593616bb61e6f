import Mathlib

/-!
# A variable that is updated atomically, and a thread that reads it and swaps it later

Other threads update a shared variable, each time by taking it and putting back the updated value. One
thread looks at the variable, makes a new value of what it saw, and swaps that in: nothing keeps the
others from updating the variable in between. The steps are those of the individual accesses, in any
order. The system keeps account of the updates: those that came before the look, those between look and
swap, and those after.
-/

namespace ReadSwap

variable {V U : Type}

/-- Where the swapping thread is. -/
inductive Place (V : Type) where
  | start
  | looked (v : V)
  | ready (v : V)
  | swapping (v : V)
  | finished
  | failed

/-- The variable, what an updating thread has taken from it and for which update, and the swapping
thread; with the updates in the order in which they were put back. -/
structure System (V U : Type) where
  var : Option V
  held : Option (U × V)
  place : Place V
  early : List U
  mid : List U
  late : List U

/-- Nothing has happened yet. -/
def start (v : V) : System V U := ⟨some v, none, .start, [], [], []⟩

/-- Takes the update down in the account. -/
def System.made (s : System V U) (u : U) : System V U :=
  match s.place with
  | .start => { s with early := s.early ++ [u] }
  | .finished | .failed => { s with late := s.late ++ [u] }
  | _ => { s with mid := s.mid ++ [u] }

/-- The steps. `make` says what the swapping thread may make of the value that it saw; it may also
fail. -/
inductive Step (app : U → V → V) (make : V → V → Prop) : System V U → System V U → Prop
  | take {s : System V U} {v : V} (u : U) : s.var = some v →
      Step app make s { s with var := none, held := some (u, v) }
  | put {s : System V U} {u : U} {v : V} : s.held = some (u, v) → s.var = none →
      Step app make s (System.made { s with var := some (app u v), held := none } u)
  | look {s : System V U} {v : V} : s.place = .start → s.var = some v →
      Step app make s { s with place := .looked v }
  | make {s : System V U} {v v' : V} : s.place = .looked v → make v v' →
      Step app make s { s with place := .ready v' }
  | fail {s : System V U} {v : V} : s.place = .looked v → Step app make s { s with place := .failed }
  | swapTake {s : System V U} {v v' : V} : s.place = .ready v' → s.var = some v →
      Step app make s { s with var := none, place := .swapping v' }
  | swapPut {s : System V U} {v' : V} : s.place = .swapping v' → s.var = none →
      Step app make s { s with var := some v', place := .finished }

/-- The systems that the steps lead to, in any order. -/
def Reachable (app : U → V → V) (make : V → V → Prop) (v₀ : V) : System V U → Prop :=
  Relation.ReflTransGen (Step app make) (start v₀)

/-- The swapping thread is through, and no update is under way. -/
def System.Done (s : System V U) : Prop := (s.place = .finished ∨ s.place = .failed) ∧ s.held = none

variable {app : U → V → V} {make : V → V → Prop} {v₀ : V} {s s' : System V U}

/-- The updates one after the other. -/
def run (app : U → V → V) (us : List U) (v : V) : V := us.foldl (fun v u => app u v) v

@[simp] theorem run_nil (v : V) : run app [] v = v := rfl

theorem run_append (us us' : List U) (v : V) : run app (us ++ us') v = run app us' (run app us v) :=
  List.foldl_append

theorem run_concat (us : List U) (u : U) (v : V) : run app (us ++ [u]) v = app u (run app us v) :=
  run_append us [u] v

/-- The value of the variable, or what has been taken from it. -/
def System.content (s : System V U) : Option V := s.var <|> s.held.map Prod.snd

/-- What the variable holds follows from the account. -/
def System.Accounted (app : U → V → V) (make : V → V → Prop) (v₀ : V) (s : System V U) : Prop :=
  match s.place with
  | .start => s.mid = [] ∧ s.late = [] ∧ s.content = some (run app s.early v₀)
  | .looked v => v = run app s.early v₀ ∧ s.late = [] ∧ s.content = some (run app s.mid v)
  | .ready v' => make (run app s.early v₀) v' ∧ s.late = [] ∧
      s.content = some (run app s.mid (run app s.early v₀))
  | .swapping v' => make (run app s.early v₀) v' ∧ s.late = [] ∧ s.var = none ∧ s.held = none
  | .finished => ∃ v', make (run app s.early v₀) v' ∧ s.content = some (run app s.late v')
  | .failed => s.content = some (run app s.late (run app s.mid (run app s.early v₀)))

/-- The account is right, and the variable is empty while an update is under way. -/
structure Inv (app : U → V → V) (make : V → V → Prop) (v₀ : V) (s : System V U) : Prop where
  exclusive : s.held.isSome → s.var = none
  accounted : s.Accounted app make v₀

theorem inv_start (v₀ : V) : Inv app make v₀ (start v₀ : System V U) where
  exclusive h := by cases h
  accounted := ⟨rfl, rfl, rfl⟩

/-- What has been taken is still accounted for. -/
theorem inv_take {v : V} {u : U} (hi : Inv app make v₀ s) (hv : s.var = some v) :
    Inv app make v₀ { s with var := none, held := some (u, v) } where
  exclusive _ := rfl
  accounted := by
    have hacc := hi.accounted
    obtain ⟨var, held, place, early, mid, late⟩ := s
    simp only at hv
    subst hv
    cases place with
    | swapping v' => cases hacc.2.2.1
    | _ => exact hacc

/-- The update that is put back joins the account, in the part that its time belongs to. -/
theorem inv_put {v : V} {u : U} (hi : Inv app make v₀ s) (hheld : s.held = some (u, v))
    (hv : s.var = none) :
    Inv app make v₀ (System.made { s with var := some (app u v), held := none } u) := by
  have hacc := hi.accounted
  obtain ⟨var, held, place, early, mid, late⟩ := s
  simp only at hheld hv
  subst hheld hv
  cases place with
  | start =>
    obtain ⟨hmid, hlate, hc⟩ := hacc
    obtain rfl : v = run app early v₀ := Option.some.inj hc
    exact ⟨fun h => absurd h Bool.false_ne_true, hmid, hlate, congrArg some (run_concat _ _ _).symm⟩
  | looked v₁ =>
    obtain ⟨hv₁, hlate, hc⟩ := hacc
    obtain rfl : v = run app mid v₁ := Option.some.inj hc
    exact ⟨fun h => absurd h Bool.false_ne_true, hv₁, hlate, congrArg some (run_concat _ _ _).symm⟩
  | ready v₁ =>
    obtain ⟨hmake, hlate, hc⟩ := hacc
    obtain rfl : v = run app mid (run app early v₀) := Option.some.inj hc
    exact ⟨fun h => absurd h Bool.false_ne_true, hmake, hlate, congrArg some (run_concat _ _ _).symm⟩
  | swapping v₁ => cases hacc.2.2.2
  | finished =>
    obtain ⟨v₁, hmake, hc⟩ := hacc
    obtain rfl : v = run app late v₁ := Option.some.inj hc
    exact ⟨fun h => absurd h Bool.false_ne_true, v₁, hmake, congrArg some (run_concat _ _ _).symm⟩
  | failed =>
    obtain rfl : v = run app late (run app mid (run app early v₀)) := Option.some.inj hacc
    exact ⟨fun h => absurd h Bool.false_ne_true, congrArg some (run_concat _ _ _).symm⟩

theorem inv_step (hi : Inv app make v₀ s) (h : Step app make s s') : Inv app make v₀ s' := by
  have hacc := hi.accounted
  cases h with
  | take u hv => exact inv_take hi hv
  | put hheld hv => exact inv_put hi hheld hv
  | @look v hp hv =>
    rw [System.Accounted, hp] at hacc
    obtain ⟨hmid, hlate, hc⟩ := hacc
    have hv' : s.content = some v := by rw [System.content, hv]; rfl
    refine ⟨hi.exclusive, Option.some.inj (hv'.symm.trans hc), hlate, hv'.trans ?_⟩
    simp only [hmid, run_nil]
  | make hp hmake =>
    rw [System.Accounted, hp] at hacc
    obtain ⟨rfl, hlate, hc⟩ := hacc
    exact ⟨hi.exclusive, hmake, hlate, hc⟩
  | fail hp =>
    rw [System.Accounted, hp] at hacc
    obtain ⟨rfl, hlate, hc⟩ := hacc
    refine ⟨hi.exclusive, hc.trans ?_⟩
    simp only [hlate, run_nil]
  | swapTake hp hv =>
    rw [System.Accounted, hp] at hacc
    refine ⟨fun _ => rfl, hacc.1, hacc.2.1, rfl, Option.not_isSome_iff_eq_none.mp fun h => ?_⟩
    rw [hi.exclusive h] at hv
    cases hv
  | swapPut hp hv =>
    rw [System.Accounted, hp] at hacc
    obtain ⟨hmake, hlate, _, hheld⟩ := hacc
    refine ⟨fun h => ?_, _, hmake, ?_⟩
    · rw [hheld] at h
      cases h
    · simp only [hlate, run_nil]
      rfl

theorem inv_reachable (h : Reachable app make v₀ s) : Inv app make v₀ s := by
  induction h with
  | refl => exact inv_start v₀
  | tail _ hstep ih => exact inv_step ih hstep

theorem var_eq_of_content (hheld : s.held = none) {v : V} (hc : s.content = some v) :
    s.var = some v := by
  rw [System.content, hheld] at hc
  simpa using hc

/-- In the end the updates between look and swap are gone: the swapped value was made without them. -/
theorem done_cases (h : Reachable app make v₀ s) (hdone : s.Done) :
    (∃ v', s.place = .finished ∧ make (run app s.early v₀) v' ∧ s.var = some (run app s.late v')) ∨
      s.place = .failed ∧ s.var = some (run app (s.early ++ s.mid ++ s.late) v₀) := by
  have hacc := (inv_reachable h).accounted
  obtain ⟨hp | hp, hheld⟩ := hdone
  · rw [System.Accounted, hp] at hacc
    obtain ⟨v', hmake, hc⟩ := hacc
    exact .inl ⟨v', hp, hmake, var_eq_of_content hheld hc⟩
  · rw [System.Accounted, hp] at hacc
    refine .inr ⟨hp, ?_⟩
    rw [run_append, run_append]
    exact var_eq_of_content hheld hacc

end ReadSwap
