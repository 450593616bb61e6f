import Mathlib

/-!
# Bags of tagged values

A bag is a multiset of values that each carry a tag, and `op` combines the tags when a value gives rise
to further ones. This is the writer construction over multisets; the laws need only the laws of `op`.
-/

namespace TaggedBag

variable {W α β γ : Type*}

/-- Replaces every value by a bag, combining the tags. -/
def bind (op : W → W → W) (m : Multiset (W × α)) (f : α → Multiset (W × β)) : Multiset (W × β) :=
  m.bind fun x => (f x.2).map fun y => (op x.1 y.1, y.2)

/-- Applies every function to every argument, combining the tags. -/
def ap (op : W → W → W) (m : Multiset (W × (α → β))) (n : Multiset (W × α)) : Multiset (W × β) :=
  bind op m fun f => n.map fun y => (y.1, f y.2)

variable {op : W → W → W}

@[simp] theorem bind_singleton (x : W × α) (f : α → Multiset (W × β)) :
    bind op {x} f = (f x.2).map fun y => (op x.1 y.1, y.2) := by
  simp [bind]

theorem bind_congr {m : Multiset (W × α)} {f g : α → Multiset (W × β)}
    (h : ∀ x ∈ m, f x.2 = g x.2) : bind op m f = bind op m g :=
  Multiset.bind_congr fun x hx => by rw [h x hx]

theorem bind_assoc (hop : ∀ a b c, op (op a b) c = op a (op b c)) (m : Multiset (W × α))
    (f : α → Multiset (W × β)) (g : β → Multiset (W × γ)) :
    bind op (bind op m f) g = bind op m fun x => bind op (f x) g := by
  simp only [bind, Multiset.bind_assoc, Multiset.map_bind, Multiset.map_map, Multiset.bind_map]
  refine Multiset.bind_congr fun x _ => Multiset.bind_congr fun y _ => Multiset.map_congr rfl ?_
  intro z _
  simp [hop]

theorem bind_map_left (h : α → β) (m : Multiset (W × α)) (f : β → Multiset (W × γ)) :
    bind op (m.map fun x => (x.1, h x.2)) f = bind op m fun x => f (h x) := by
  simp [bind, Multiset.bind_map]

/-- Without the tags, a bag of tagged values is a plain multiset. -/
theorem map_snd_bind (m : Multiset (W × α)) (f : α → Multiset (W × β)) :
    (bind op m f).map Prod.snd = (m.map Prod.snd).bind fun x => (f x).map Prod.snd := by
  simp only [bind, Multiset.map_bind, Multiset.map_map, Multiset.bind_map]
  rfl

/-- Composition: applying `(∘)` to two bags of functions and then to the arguments is applying them one
after the other. -/
theorem ap_comp (hop : ∀ a b c, op (op a b) c = op a (op b c)) (u : Multiset (W × (β → γ)))
    (v : Multiset (W × (α → β))) (w : Multiset (W × α)) :
    ap op (ap op (u.map fun x => (x.1, fun (g : α → β) => x.2 ∘ g)) v) w = ap op u (ap op v w) := by
  unfold ap
  rw [bind_assoc hop, bind_map_left (fun (f : β → γ) (g : α → β) => f ∘ g)]
  refine bind_congr fun x _ => ?_
  rw [bind_map_left (fun (g : α → β) => x.2 ∘ g)]
  simp only [bind, Multiset.map_bind, Multiset.map_map]
  rfl

/-- Interchange: with a commutative `op` a single argument may be applied from either side. -/
theorem ap_interchange (hop : ∀ a b, op a b = op b a) (u : Multiset (W × (α → β))) (c : W) (y : α) :
    ap op u {(c, y)} = ap op {(c, fun f : α → β => f y)} u := by
  rw [ap, ap, bind_singleton, Multiset.map_map]
  simp only [bind, Multiset.map_singleton, Multiset.bind_singleton]
  exact Multiset.map_congr rfl fun x _ => by simp [hop c]

end TaggedBag
