import Tidal.Active
import Tidal.Lib.Slots

/-!
# Cycles moved into timespans

What squeezing, compressing, zooming and weighted sequencing are for: one cycle of a pattern is played in
a timespan of another cycle, by one affine map for the times of its events. The maps below are the
intended ones, stated for a whole event at once; the operators rescale arc by arc.
-/

namespace Tidal

open Pattern

variable {Γ α : Type}

/-- Digital, with parts inside their wholes, and the same at every moment for all queries that hold the
moment. -/
structure Settled (p : Pattern Γ α) : Prop where
  digital : ∀ a m, a.start ≤ a.stop → ∀ e ∈ p.query ⟨a, m⟩, e.isDigital
  inWhole : ∀ a m, a.start ≤ a.stop → ∀ e ∈ p.query ⟨a, m⟩, ∀ w, e.whole = some w → Within e.part w
  steady : Steady p

/-- The pair with its whole intersected with `c`, and no pair if they do not intersect. -/
def clip (c : Arc) (x : Option Arc × α) : Option (Option Arc × α) :=
  (subMaybeArc (some c) x.1).map fun w => (w, x.2)

/-! ## One cycle squeezed into a whole -/

/-- Where a time of cycle `sam w.start` lands when that cycle is played in the timespan `w`. -/
def intoSpan (w : Arc) (x : Time) : Time := w.start + (x - sam w.start) * (w.stop - w.start)

/-- The time of cycle `sam w.start` that is heard at `t` when that cycle is played in `w`. -/
def fromSpan (w : Arc) (t : Time) : Time := sam w.start + (t - w.start) / (w.stop - w.start)

/-- What a cycle that plays `s` at a moment plays there once it is moved into `w`. -/
def oneCycle (w : Arc) (s : Multiset (Option Arc × α)) : Multiset (Option Arc × α) :=
  (s.map (onWhole (ArcF.map (intoSpan w)))).filterMap (clip w)

/-- How far `focusArc` is off: it speeds up about time zero and then shifts by the position in the
cycle, so the cycle number is sped up too. -/
def drift (w : Arc) : Time := sam w.start * (1 / (w.stop - w.start) - 1)

/-- At `τ`, and seen through the cycle of `w`, the pattern plays the same when it is moved back by the
drift. -/
def Repeats (v : Pattern Γ α) (m : Γ) (w : Arc) (τ : Time) : Prop :=
  ((behaviour v m (τ + drift w)).map (onWhole (ArcF.map (· - drift w)))).filterMap
      (clip (timeToCycleArc w.start)) =
    (behaviour v m τ).filterMap (clip (timeToCycleArc w.start))

/-! ## Each cycle squashed into its beginning -/

/-- The events are digital, with parts inside the query and inside their wholes. -/
def Placed (a : Arc) (es : List (Event α)) : Prop :=
  ∀ e ∈ es, e.isDigital ∧ Within e.part a ∧ ∀ w, e.whole = some w → Within e.part w

/-- How `_fastGap` moves the arc of an answer: relative to the cycle in which that arc starts. -/
def gapArc (r : Time) (a : Arc) : Arc :=
  ⟨sam a.start + (a.start - sam a.start) / r, sam a.start + (a.stop - sam a.start) / r⟩

/-- The query that `_fastGap` asks about a piece of its own query. -/
def gapQuery (r : Time) (b : Arc) : Arc := ⟨mungeQuery r b.start, mungeQuery r b.stop⟩

/-- After its part the whole lasts for `r - 1` times the cycles by which it started before the part. -/
def Outlasts (r : Time) (e : Event α) : Prop :=
  ∀ w, e.whole = some w → (sam e.part.start - sam w.start) * (r - 1) ≤ w.stop - e.part.stop

/-- The answers that `_fastGap r p` gets for the query `a` can be squashed arc by arc: their wholes last
long enough, and none lies at the end of a cycle that the query does not reach. -/
def Squashable (r : Time) (p : Pattern Γ α) (m : Γ) (a : Arc) : Prop :=
  ∀ b ∈ arcCyclesZW a, b.start < sam b.start + 1 / r → ∀ e ∈ p.query ⟨gapQuery r b, m⟩,
    Outlasts r e ∧ (e.part.start = nextSam b.start → nextSam b.start ≤ a.stop)

/-! ## A window of each cycle spread over the cycle -/

/-- The time of the window `a` of cycle `sam t` that is heard at `t` when the window fills the cycle. -/
def zoomTime (a : Arc) (t : Time) : Time := sam t + a.start + (t - sam t) * (a.stop - a.start)

/-- Where a time lands when the window `a` of cycle `c` is spread over the cycle. -/
def unzoomTime (a : Arc) (c : Time) (x : Time) : Time := c + (x - c - a.start) / (a.stop - a.start)

/-! ## Weighted slots -/

/-- Digital, with parts inside their wholes, each whole inside a single cycle, and answers that do not
depend on how the query is cut. -/
structure Cyclewise (p : Pattern Γ α) : Prop where
  digital : ∀ a m, a.start ≤ a.stop → ∀ e ∈ p.query ⟨a, m⟩, e.isDigital
  inWhole : ∀ a m, a.start ≤ a.stop → ∀ e ∈ p.query ⟨a, m⟩, ∀ w, e.whole = some w → Within e.part w
  single : ∀ a m, a.start ≤ a.stop → ∀ e ∈ p.query ⟨a, m⟩, ∀ w, e.whole = some w →
    ∃ c : ℤ, Within w ⟨(c : Time), c + 1⟩
  cutFree : CutFree p

/-- The time of cycle `c` that slot `i` plays at the position `x` of that cycle. -/
def slotTime (ws : List Time) (c x : Time) (i : ℕ) : Time :=
  c + (x * ws.sum - Slots.before ws i) / ws.getD i 0

/-- Where a time of cycle `c` lands in slot `i` of that cycle. -/
def intoSlot (ws : List Time) (c : Time) (i : ℕ) (y : Time) : Time :=
  c + (Slots.before ws i + (y - c) * ws.getD i 0) / ws.sum

end Tidal
