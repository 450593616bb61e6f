import Tidal.Transform
import Tidal.Active

/-!
# The meaning of transformers

A pattern is known by what it plays at each moment. Here is what the transformers that users write mean
for that: operations on behaviours that know nothing of queries, and a language of transformers with two
readings, as functions on patterns that answer queries and as functions on behaviours.
-/

namespace Tidal

variable {Γ α β γ : Type}

/-! ## Operations on behaviours -/

namespace Behaviour

/-- The same value once a cycle. -/
def pure (v : α) : Behaviour α := fun t => {(some (timeToCycleArc t), v)}

def map (f : α → β) (S : Behaviour α) : Behaviour β := fun t => (S t).map fun x => (x.1, f x.2)

/-- What was played at `g t`, with the times of its wholes moved by `f`. -/
def moved (f g : Time → Time) (S : Behaviour α) : Behaviour α :=
  fun t => (S (g t)).map (onWhole (ArcF.map f))

def rotL (s : Time) (S : Behaviour α) : Behaviour α := moved (· - s) (· + s) S

def rotR (s : Time) (S : Behaviour α) : Behaviour α := rotL (-s) S

open Classical in
/-- What is played just before `u`: what `S` stays at for some time before `u`. -/
noncomputable def before (S : Behaviour α) (u : Time) : Multiset (Option Arc × α) :=
  if h : ∃ x, ∃ v < u, ∀ t, v < t → t < u → S t = x then h.choose else 0

/-- Every cycle mirrored. -/
noncomputable def rev (S : Behaviour α) : Behaviour α := fun t =>
  let mid := sam t + 1 / 2
  (before S (2 * mid - t)).map (onWhole (Pattern.mirrorArc mid))

noncomputable def fast (r : Time) (S : Behaviour α) : Behaviour α :=
  if r = 0 then 0
  else if r < 0 then rev (moved (· / -r) (· * -r) S)
  else moved (· / r) (· * r) S

noncomputable def slow (r : Time) (S : Behaviour α) : Behaviour α :=
  if r = 0 then 0 else fast (1 / r) S

/-- One behaviour in the cycles that pass the test, and another one in the rest. -/
def choose (test : ℤ → Bool) (S T : Behaviour α) : Behaviour α :=
  fun t => if test ⌊t⌋ then S t else T t

/-- The behaviours in turn, a cycle of each. -/
def cat (Ss : List (Behaviour α)) : Behaviour α := fun t =>
  let n : ℤ := Ss.length
  let i := ⌊t⌋ % n
  let offset : Time := ((⌊t⌋ - (⌊t⌋ - i) / n : ℤ) : Time)
  ((Ss.getD i.toNat 0) (t - offset)).map (onWhole (ArcF.map (· + offset)))

noncomputable def fastCat (Ss : List (Behaviour α)) : Behaviour α := fast Ss.length (cat Ss)

/-- What has a whole that passes the test. -/
def keep (test : Arc → Bool) (S : Behaviour α) : Behaviour α :=
  fun t => (S t).filter fun x => x.1.elim false test

/-- For everything that `B` plays, what `f` makes of its value: whole and all. -/
def each (B : Behaviour β) (f : β → Behaviour α) : Behaviour α :=
  fun t => (B t).bind fun y => f y.2 t

/-- All pairs of what `S` and `B` play, with a value by `op` and a whole by `w`. -/
def both (w : Option Arc → Option Arc → Option Arc) (op : α → β → γ) (S : Behaviour α) (B : Behaviour β) :
    Behaviour γ := fun t => (S t).bind fun x => (B t).map fun y => (w x.1 y.1, op x.2 y.2)

/-- The values of `S`, with the wholes of what `B` has that is true. -/
def struct (B : Behaviour Bool) (S : Behaviour α) : Behaviour α :=
  fun t => ((B t).filter fun y => y.2).bind fun y => (S t).map fun x => (y.1, x.2)

/-- Everything that is played, replaced by a cycle of what `f` makes of its value. -/
noncomputable def squeeze (S : Behaviour β) (f : β → Behaviour α) : Behaviour α := fun t =>
  (S t).bind fun x =>
    let w := x.1.getD ⟨t, t⟩
    (rotR (cyclePos w.start) (fast (1 / (w.stop - w.start)) (f x.2)) t).map fun y => (meet x.1 y.1, y.2)

end Behaviour

/-! ## At random -/

/-- A pattern that answers every query with one number, which depends on the arc alone. -/
def Noise (r : Arc → ℚ) (prand : Pattern Γ ℚ) : Prop :=
  ∀ a m, prand.query ⟨a, m⟩ = [⟨⟨[]⟩, none, a, r a⟩]

/-- The random number for an arc. The seed of the random numbers is a shift of their time. -/
def luckAt (seed : Time) (w : Arc) : ℚ := Pattern.timeToRand ((w.stop + seed + (w.start + seed)) / 2)

/-- The random number of an event with this whole. -/
def luck (w : Arc) : ℚ := Pattern.timeToRand ((w.stop + w.start) / 2)

/-- What `_degradeByUsing` and `_unDegradeBy` have in common: the events are kept whose random number passes
a test. -/
def byLuck (prand : Pattern Γ ℚ) (test : ℚ → Bool) (p : Pattern Γ α) : Pattern Γ α :=
  Pattern.fmap Prod.fst (Pattern.filterValues (fun v => test v.2)
    (Pattern.apLeft (Pattern.fmap Prod.mk p) prand))

/-! ## Transformers -/

/-- A pattern whose answers are strictly well-formed and do not depend on the cut. -/
structure Sure (Γ α : Type) where
  pat : Pattern Γ α
  wellFormed : WellFormed True pat
  steady : Steady pat

/-- The transformers: the functions of the source that their names say, applied to numbers, to patterns
and to other transformers. A number that the source divides by is not zero. -/
inductive Fx (Γ α : Type) : Type 1 where
  | id
  | comp (f g : Fx Γ α)
  | fast (r : Time)
  | slow (r : Time)
  | rotL (t : Time)
  | rotR (t : Time)
  | rev
  | when (test : ℤ → Bool) (f : Fx Γ α)
  | every (n : ℤ) (f : Fx Γ α)
  | every' (n o : ℤ) (hn : n ≠ 0) (f : Fx Γ α)
  | foldEvery (ns : List ℤ) (f : Fx Γ α)
  | someCyclesBy (x : ℚ) (f : Fx Γ α)
  | ifp (test : ℤ → Bool) (f g : Fx Γ α)
  | palindrome
  | brak
  | iter (n : ℤ)
  | iter' (n : ℤ)
  | superimpose (f : Fx Γ α)
  | off (t : Time) (f : Fx Γ α)
  | stutter (n : ℤ) (t : Time)
  | echoWith (n : ℤ) (t : Time) (f : Fx Γ α)
  | ghostWith (t : Time) (f : Fx Γ α)
  | soak (n : ℤ) (f : Fx Γ α)
  | repeatCycles (n : ℤ)
  | spread {τ : Type} (f : τ → Fx Γ α) (xs : List τ)
  | fastspread {τ : Type} (f : τ → Fx Γ α) (xs : List τ)
  | layer {τ : Type} (f : τ → Fx Γ α) (xs : List τ)
  | inside (n : Time) (f : Fx Γ α)
  | outside (n : Time) (hn : n ≠ 0) (f : Fx Γ α)
  | euclid (n k : ℤ)
  | euclidInv (n k : ℤ)
  | euclidFull (n k : ℤ) (f g : Fx Γ α)
  | euclidOff (n k s : ℤ)
  | within (s e : Time) (f : Fx Γ α)
  | mask (b : Sure Γ Bool)
  | struct (b : Sure Γ Bool)
  | sew (b : Sure Γ Bool) (f g : Fx Γ α)
  | «while» (b : Sure Γ Bool) (f : Fx Γ α)
  | stitch (b : Sure Γ Bool) (f g : Fx Γ α)
  | segment (n : Time)
  | opBoth {β : Type} (op : α → β → α) (q : Sure Γ β)
  | opLeft {β : Type} (op : α → β → α) (q : Sure Γ β)
  | opRight {β : Type} (op : α → β → α) (q : Sure Γ β)
  | opSqueeze {β : Type} (op : α → β → α) (q : Sure Γ β)
  | ply (n : ℚ)
  | degradeBy (x : ℚ)
  | unDegradeBy (x : ℚ)
  | sometimesBy (x : ℚ) (f : Fx Γ α)
  | patterned {τ : Type} (q : Sure Γ τ) (f : τ → Fx Γ α)

namespace Fx

/-- What a transformer does to a pattern. -/
def run : Fx Γ α → Pattern Γ α → Pattern Γ α
  | id => fun p => p
  | comp f g => fun p => f.run (g.run p)
  | fast r => Pattern._fast r
  | slow r => Pattern._slow r
  | rotL t => Pattern.rotL t
  | rotR t => Pattern.rotR t
  | rev => Pattern.rev
  | when test f => Pattern.when test f.run
  | every n f => Pattern._every n f.run
  | every' n o _ f => Pattern._every' n o f.run
  | foldEvery ns f => Pattern.foldEvery ns f.run
  | someCyclesBy x f => Pattern._someCyclesBy x f.run
  | ifp test f g => Pattern.ifp test f.run g.run
  | palindrome => Pattern.palindrome
  | brak => Pattern.brak
  | iter n => Pattern._iter n
  | iter' n => Pattern._iter' n
  | superimpose f => Pattern.superimpose f.run
  | off t f => Pattern._off t f.run
  | stutter n t => Pattern.stutter n t
  | echoWith n t f => Pattern._echoWith n t f.run
  | ghostWith t f => Pattern.ghostWith t f.run
  | soak n f => Pattern.soak n f.run
  | repeatCycles n => Pattern._repeatCycles n
  | spread f xs => Pattern.spread (fun x => (f x).run) xs
  | fastspread f xs => Pattern.fastspread (fun x => (f x).run) xs
  | layer f xs => Pattern.layer (xs.map fun x => (f x).run)
  | inside n f => Pattern._inside n f.run
  | outside n _ f => Pattern._outside n f.run
  | euclid n k => Pattern._euclid n k
  | euclidInv n k => Pattern._euclidInv n k
  | euclidFull n k f g => fun p =>
      Pattern.euclidFull (Pattern.pure n) (Pattern.pure k) (f.run p) (g.run p)
  | euclidOff n k s => Pattern._euclidOff n k s
  | within s e f => Pattern.within (s, e) f.run
  | mask b => Pattern.mask b.pat
  | struct b => Pattern.struct b.pat
  | sew b f g => fun p => Pattern.sew b.pat (f.run p) (g.run p)
  | «while» b f => Pattern.while b.pat f.run
  | stitch b f g => fun p => Pattern.stitch b.pat (f.run p) (g.run p)
  | segment n => Pattern._segment n
  | opBoth op q => fun p => Pattern.opBoth op p q.pat
  | opLeft op q => fun p => Pattern.opLeft op p q.pat
  | opRight op q => fun p => Pattern.opRight op p q.pat
  | opSqueeze op q => fun p => Pattern.opSqueeze op p q.pat
  | ply n => Pattern._ply n
  | degradeBy x => Pattern._degradeBy x
  | unDegradeBy x => Pattern._unDegradeBy x
  | sometimesBy x f => Pattern.sometimesBy (Pattern.pure x) f.run
  | patterned q f => fun p => Pattern.innerJoin (Pattern.fmap (fun x => (f x).run p) q.pat)

/-- What a transformer does to a behaviour, when the controls are `m`. -/
noncomputable def mean (m : Γ) : Fx Γ α → Behaviour α → Behaviour α
  | id => fun S => S
  | comp f g => fun S => f.mean m (g.mean m S)
  | fast r => Behaviour.fast r
  | slow r => Behaviour.slow r
  | rotL t => Behaviour.rotL t
  | rotR t => Behaviour.rotR t
  | rev => Behaviour.rev
  | when test f => fun S => Behaviour.choose test (f.mean m S) S
  | every n f => fun S => Behaviour.choose (fun c => n ∣ c ∧ n ≠ 0) (f.mean m S) S
  | every' n o _ f => fun S => Behaviour.choose (fun c => c.fmod n = o) (f.mean m S) S
  | foldEvery ns f => ns.foldr fun n S => Behaviour.choose (fun c => n ∣ c ∧ n ≠ 0) (f.mean m S) S
  | someCyclesBy x f => fun S => Behaviour.choose (fun c => Pattern.timeToRand c < x) (f.mean m S) S
  | ifp test f g => fun S => Behaviour.choose test (f.mean m S) (g.mean m S)
  | palindrome => fun S => Behaviour.cat [S, Behaviour.rev S]
  | brak => fun S => Behaviour.choose (fun c => ¬ Even c)
      (Behaviour.rotR (1 / 4) (Behaviour.fastCat [S, 0])) S
  | iter n => fun S => Behaviour.cat ((List.range n.toNat).map fun i : ℕ => Behaviour.rotL (i / n) S)
  | iter' n => fun S => Behaviour.cat ((List.range n.toNat).map fun i : ℕ => Behaviour.rotR (i / n) S)
  | superimpose f => fun S => S + f.mean m S
  | off t f => fun S => S + f.mean m (Behaviour.rotR t S)
  | stutter n t => fun S => ((List.range n.toNat).map fun i : ℕ => Behaviour.rotR (t * i) S).sum
  | echoWith n t f => fun S => (fun T => f.mean m (Behaviour.rotR t T) + S)^[(n - 1).toNat] S
  | ghostWith t f => fun S => S + Behaviour.rotR (t * (3 / 2)) (f.mean m S) +
      Behaviour.rotR (t * (5 / 2)) (f.mean m (S + Behaviour.rotR (t * (3 / 2)) (f.mean m S)))
  | soak n f => fun S => Behaviour.cat ((List.range n.toNat).map fun i => (f.mean m)^[i] S)
  | repeatCycles n => fun S => Behaviour.cat (List.replicate n.toNat S)
  | spread f xs => fun S => Behaviour.cat (xs.map fun x => (f x).mean m S)
  | fastspread f xs => fun S => Behaviour.fastCat (xs.map fun x => (f x).mean m S)
  | layer f xs => fun S => (xs.map fun x => (f x).mean m S).sum
  | inside n f => fun S => Behaviour.fast n (f.mean m (Behaviour.slow n S))
  | outside n _ f => fun S => Behaviour.fast (1 / n) (f.mean m (Behaviour.slow (1 / n) S))
  | euclid n k => euclidean n k
  | euclidInv n k => euclidean (-n) k
  | euclidFull n k f g => fun S => euclidean n k (f.mean m S) + euclidean (-n) k (g.mean m S)
  | euclidOff n k s => fun S => if k = 0 then 0 else Behaviour.rotL (s / k) (euclidean n k S)
  | within s e f => fun S =>
      Behaviour.keep (fun w => cyclePos w.start ≥ s ∧ cyclePos w.start < e) (f.mean m S) +
        Behaviour.keep (fun w => ¬ (cyclePos w.start ≥ s ∧ cyclePos w.start < e)) S
  | mask b => fun S => Behaviour.each (behaviour b.pat m) fun x => if x then S else 0
  | struct b => Behaviour.struct (behaviour b.pat m)
  | sew b f g => fun S => Behaviour.each (behaviour b.pat m) fun x => if x then f.mean m S else g.mean m S
  | «while» b f => fun S => Behaviour.each (behaviour b.pat m) fun x => if x then f.mean m S else S
  | stitch b f g => fun S => Behaviour.struct (behaviour b.pat m) (f.mean m S) +
      Behaviour.struct (Behaviour.map (!·) (behaviour b.pat m)) (g.mean m S)
  | segment n => Behaviour.both (fun w _ => w) (fun f x => f x) (Behaviour.fast n (Behaviour.pure fun x => x))
  | opBoth op q => fun S => Behaviour.both meet op S (behaviour q.pat m)
  | opLeft op q => fun S => Behaviour.both (fun w _ => w) op S (behaviour q.pat m)
  | opRight op q => fun S => Behaviour.both (fun w _ => w) (fun y x => op x y) (behaviour q.pat m) S
  | opSqueeze op q => fun S => Behaviour.squeeze S fun x => Behaviour.map (op x) (behaviour q.pat m)
  | ply n => fun S => Behaviour.squeeze S fun v => Behaviour.fast n (Behaviour.pure v)
  | degradeBy x => Behaviour.keep fun w => luck w > x
  | unDegradeBy x => Behaviour.keep fun w => luck w ≤ x
  | sometimesBy x f => fun S => Behaviour.keep (fun w => luck w > x) S +
      f.mean m (Behaviour.keep (fun w => luck w ≤ x) S)
  | patterned q f => fun S => Behaviour.each (behaviour q.pat m) fun x => (f x).mean m S
where
  /-- A Euclidean rhythm of `S`; one of its rests if `n` is negative. -/
  euclidean (n k : ℤ) (S : Behaviour α) : Behaviour α :=
    if 0 ≤ n then Behaviour.fastCat ((bjorklund n k).map fun b => if b then S else 0)
    else Behaviour.fastCat ((bjorklund (-n) k).map fun b => if b then 0 else S)

end Fx

end Tidal
