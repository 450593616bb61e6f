import Mathlib

/-!
# Spans laid end to end

A list of spans that leads from `s` to `e`: each has some width and starts where the one before it ended.
Nothing is assumed of the type of the spans but that they have two ends.
-/

namespace Tiling

variable {T ι κ : Type*} [LinearOrder T] {lo hi : ι → T} {lo' hi' : κ → T} {s e : T} {x y : ι} {l : List ι}

/-- The spans of the list are laid end to end from `s` to `e`. -/
structure Tiles (lo hi : ι → T) (s e : T) (l : List ι) : Prop where
  pos : ∀ x ∈ l, lo x < hi x
  first : l.head?.map lo = some s
  last : l.getLast?.map hi = some e
  joined : l.IsChain fun x y => hi x = lo y

theorem tiles_singleton : Tiles lo hi s e [x] ↔ lo x = s ∧ lo x < hi x ∧ hi x = e := by
  constructor
  · intro h
    exact ⟨Option.some.inj h.first, h.pos x (List.mem_singleton_self x), Option.some.inj h.last⟩
  · rintro ⟨rfl, hpos, rfl⟩
    exact ⟨by simpa using hpos, rfl, rfl, List.isChain_singleton x⟩

theorem tiles_cons_cons : Tiles lo hi s e (x :: y :: l) ↔
    lo x = s ∧ lo x < hi x ∧ Tiles lo hi (hi x) e (y :: l) := by
  constructor
  · intro h
    obtain ⟨hx, hpos⟩ := List.forall_mem_cons.mp h.pos
    obtain ⟨hxy, hjoined⟩ := List.isChain_cons_cons.mp h.joined
    have hlast := h.last
    rw [List.getLast?_cons_cons] at hlast
    exact ⟨Option.some.inj h.first, hx, hpos, congrArg some hxy.symm, hlast, hjoined⟩
  · rintro ⟨rfl, hx, h⟩
    refine ⟨List.forall_mem_cons.mpr ⟨hx, h.pos⟩, rfl, ?_, ?_⟩
    · rw [List.getLast?_cons_cons]
      exact h.last
    · exact List.isChain_cons_cons.mpr ⟨(Option.some.inj h.first).symm, h.joined⟩

/-- One span more in front. -/
theorem Tiles.cons (h : Tiles lo hi (hi x) e l) (hx : lo x < hi x) : Tiles lo hi (lo x) e (x :: l) := by
  cases l with
  | nil => cases h.first
  | cons y l => exact tiles_cons_cons.mpr ⟨rfl, hx, h⟩

/-- What holds of every last span and is kept by one in front of it holds of all that leads to `e`. -/
theorem Tiles.induction {motive : T → List ι → Prop}
    (single : ∀ x, lo x < hi x → hi x = e → motive (lo x) [x])
    (cons : ∀ x l, lo x < hi x → Tiles lo hi (hi x) e l → motive (hi x) l → motive (lo x) (x :: l))
    (h : Tiles lo hi s e l) : motive s l := by
  induction l generalizing s with
  | nil => cases h.first
  | cons x l ih =>
    cases l with
    | nil =>
      obtain ⟨rfl, hx, he⟩ := tiles_singleton.mp h
      exact single x hx he
    | cons y l =>
      obtain ⟨rfl, hx, hl⟩ := tiles_cons_cons.mp h
      exact cons x _ hx hl (ih hl)

theorem Tiles.bounds (h : Tiles lo hi s e l) : s < e ∧ ∀ x ∈ l, s ≤ lo x ∧ hi x ≤ e := by
  refine h.induction (motive := fun s l => s < e ∧ ∀ x ∈ l, s ≤ lo x ∧ hi x ≤ e) ?_ ?_
  · rintro x hx rfl
    refine ⟨hx, fun y hy => ?_⟩
    rw [List.mem_singleton.mp hy]
    exact ⟨le_rfl, le_rfl⟩
  · rintro x l hx - ⟨hlt, hall⟩
    refine ⟨hx.trans hlt, fun y hy => ?_⟩
    rcases List.mem_cons.mp hy with rfl | hy
    · exact ⟨le_rfl, hlt.le⟩
    · exact ⟨hx.le.trans (hall y hy).1, (hall y hy).2⟩

/-- Spans moved by an order-preserving map of their ends. -/
theorem Tiles.map {f : ι → κ} {g : T → T} (h : Tiles lo hi s e l) (hg : StrictMono g)
    (hlo : ∀ x, lo' (f x) = g (lo x)) (hhi : ∀ x, hi' (f x) = g (hi x)) :
    Tiles lo' hi' (g s) (g e) (l.map f) := by
  refine h.induction (motive := fun s l => Tiles lo' hi' (g s) (g e) (l.map f)) ?_ ?_
  · rintro x hx rfl
    refine tiles_singleton.mpr ⟨hlo x, ?_, hhi x⟩
    rw [hlo, hhi]
    exact hg hx
  · rintro x l hx - ih
    rw [← hhi] at ih
    rw [← hlo]
    refine ih.cons ?_
    rw [hlo, hhi]
    exact hg hx

/-- The widths add up to the way from `s` to `e`. -/
theorem Tiles.sum_widths {T : Type*} [AddCommGroup T] [LinearOrder T] {lo hi : ι → T} {s e : T}
    (h : Tiles lo hi s e l) : (l.map fun x => hi x - lo x).sum = e - s := by
  refine h.induction (motive := fun s l => (l.map fun x => hi x - lo x).sum = e - s) ?_ ?_
  · rintro x - rfl
    rw [List.map_singleton, List.sum_singleton]
  · rintro x l - - ih
    rw [List.map_cons, List.sum_cons, ih, add_comm, sub_add_sub_cancel]

end Tiling
