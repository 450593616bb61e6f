import Mathlib

/-!
# Operations seen at one place

Operations act on a state that is looked at through views, one for each place. At its place every
operation acts on what is seen there and on nothing else. So a run of operations is seen at a place as a
run on what is there, and the operations that do nothing at the place may be left out. Of a part that
each operation overwrites or leaves alone, the last operation that writes decides.
-/

namespace Views

variable {O σ K α β : Type}

/-- The operations one after the other. -/
def run (step : O → σ → σ) (os : List O) (s : σ) : σ := os.foldl (fun s o => step o s) s

theorem run_cons (step : O → σ → σ) (o : O) (os : List O) (s : σ) :
    run step (o :: os) s = run step os (step o s) := rfl

/-- A run is seen at a place as a run on what is there. -/
theorem view_run {step : O → σ → σ} (view : σ → α) {on : O → α → α}
    (h : ∀ o s, view (step o s) = on o (view s)) (os : List O) (s : σ) :
    view (run step os s) = run on os (view s) := by
  induction os generalizing s with
  | nil => rfl
  | cons o os ih => rw [run_cons, run_cons, ih, h]

section Touches

variable {on : O → α → α} {touches : O → Bool}

/-- Operations that do nothing may be left out. -/
theorem run_filter (h : ∀ o, touches o = false → ∀ a, on o a = a) (os : List O) (a : α) :
    run on (os.filter touches) a = run on os a := by
  induction os generalizing a with
  | nil => rfl
  | cons o os ih =>
    by_cases ho : touches o = true
    · rw [List.filter_cons_of_pos ho, run_cons, run_cons, ih]
    · have hskip : on o a = a := h o (Bool.eq_false_of_not_eq_true ho) a
      rw [List.filter_cons_of_neg ho, run_cons, hskip, ih]

theorem run_congr (h : ∀ o, touches o = false → ∀ a, on o a = a) {os os' : List O}
    (hos : os.filter touches = os'.filter touches) (a : α) : run on os a = run on os' a := by
  rw [← run_filter h os, hos, run_filter h os']

end Touches

/-- The last operation that writes decides. -/
theorem get_run {on : O → α → α} {get : α → β} {write : O → Option β}
    (h : ∀ o a, get (on o a) = (write o).getD (get a)) (os : List O) (a : α) :
    get (run on os a) = (os.filterMap write).getLast?.getD (get a) := by
  induction os generalizing a with
  | nil => rfl
  | cons o os ih =>
    rw [run_cons, ih, h]
    cases hw : write o with
    | none => rw [List.filterMap_cons_none hw, Option.getD_none]
    | some b =>
      rw [List.filterMap_cons_some hw, List.getLast?_cons]
      rfl

end Views
