import Tidal.Checked

/-!
# Where mini-notation divides by zero

A polymeter divides its rate by the size of each layer, and the size may be zero. Whether that division is
ever evaluated depends on what comes to ask for the rate. Here a tree is read as a pattern together with
that condition, which is stated in what the patterns play: nothing here can raise.
-/

namespace Tidal

/-- A pattern, and when it comes to the rate of a layer of size zero. -/
structure Demanding (Γ α : Type) where
  /-- What it plays. -/
  pattern : Pattern Γ α
  /-- Evaluating the pattern comes to such a rate. -/
  opens : Prop
  /-- Answering the query comes to such a rate. -/
  asks : State Γ → Prop
  /-- The values are such rates. Only `fast` is given a pattern of this kind. -/
  divided : Prop := False

namespace Demanding

variable {Γ α β γ δ : Type}

def silence : Demanding Γ α := ⟨Pattern.silence, False, fun _ => False, False⟩

protected def pure (x : α) : Demanding Γ α := ⟨Pattern.pure x, False, fun _ => False, False⟩

def fmap (f : α → β) (p : Demanding Γ α) : Demanding Γ β where
  pattern := Pattern.fmap f p.pattern
  opens := p.opens
  asks := p.asks

def setContext (c : Context) (p : Demanding Γ α) : Demanding Γ α :=
  { p with pattern := Pattern.setContext c p.pattern }

/-! ## Time -/

def splitQueries (p : Demanding Γ α) : Demanding Γ α where
  pattern := Pattern.splitQueries p.pattern
  opens := p.opens
  asks st := ∃ a ∈ arcCyclesZW st.arc, p.asks { st with arc := a }

def withResultArc (f : Arc → Arc) (p : Demanding Γ α) : Demanding Γ α :=
  { p with pattern := Pattern.withResultArc f p.pattern }

def withQueryTime (f : Time → Time) (p : Demanding Γ α) : Demanding Γ α where
  pattern := Pattern.withQueryTime f p.pattern
  opens := p.opens
  asks st := p.asks ⟨ArcF.map f st.arc, st.controls⟩

def rotL (t : Time) (p : Demanding Γ α) : Demanding Γ α :=
  withResultArc (ArcF.map fun x => x - t) (withQueryTime (fun x => x + t) p)

def rotR (t : Time) (p : Demanding Γ α) : Demanding Γ α := rotL (-t) p

/-- `rev` within one cycle. -/
def revCycle (p : Demanding Γ α) : Demanding Γ α where
  pattern := { p.pattern with query := Pattern.revCycle p.pattern }
  opens := p.opens
  asks st := p.asks { st with arc := Pattern.mirrorArc (Pattern.midCycle st.arc) st.arc }

def rev (p : Demanding Γ α) : Demanding Γ α := splitQueries (revCycle p)

def _fastForward (rate : Time) (p : Demanding Γ α) : Demanding Γ α :=
  { withResultArc (ArcF.map fun x => x / rate) (withQueryTime (fun x => x * rate) p) with
    pattern := Pattern._fastForward rate p.pattern }

def _fast (rate : Time) (p : Demanding Γ α) : Demanding Γ α :=
  if rate = 0 then silence
  else if rate < 0 then rev (_fastForward (-rate) p)
  else _fastForward rate p

def _slow (r : Time) (p : Demanding Γ α) : Demanding Γ α := if r = 0 then silence else _fast (1 / r) p

def gapQuery (r : Time) (p : Pattern Γ α) (st : State Γ) : List (Event α) :=
  if (Checked.gapArc r st.arc).start = nextSam st.arc.start then []
  else p.query { st with arc := Checked.gapArc r st.arc }

/-- `_fastGap` within one cycle: a query that starts at the end of the cycle does not come to `p`. -/
def gapCycle (r : Time) (p : Demanding Γ α) : Demanding Γ α where
  pattern := { p.pattern with query := gapQuery r p.pattern }
  opens := p.opens
  asks st := (Checked.gapArc r st.arc).start ≠ nextSam st.arc.start ∧ p.asks { st with arc := Checked.gapArc r st.arc }

def _fastGap (r : Time) (p : Demanding Γ α) : Demanding Γ α :=
  if r = 0 then silence
  else
    let r' := max r 1
    splitQueries (withResultArc
      (fun a => ⟨sam a.start + (a.start - sam a.start) / r', sam a.start + (a.stop - sam a.start) / r'⟩)
      (gapCycle r' p))

def compressArc (a : Arc) (p : Demanding Γ α) : Demanding Γ α :=
  if a.start > a.stop then silence
  else if a.start > 1 ∨ a.stop > 1 then silence
  else if a.start < 0 ∨ a.stop < 0 then silence
  else rotR a.start (_fastGap (1 / (a.stop - a.start)) p)

/-! ## Parameters -/

/-- An inner pattern is evaluated, and asked for the part of its outer event. -/
def innerJoin (pp : Demanding Γ (Demanding Γ α)) : Demanding Γ α where
  pattern := Pattern.innerJoin (Pattern.fmap pattern pp.pattern)
  opens := pp.opens
  asks st := pp.asks st ∨ ∃ e ∈ pp.pattern.query st, e.value.opens ∨ e.value.asks { st with arc := e.part }

def patternify (f : α → Demanding Γ β) (pa : Demanding Γ α) : Demanding Γ β :=
  match pa.pattern.pureValue with
  | some (some a) => { f a with opens := pa.opens ∨ (f a).opens }
  | some none => { (silence : Demanding Γ β) with opens := True }
  | none => innerJoin (fmap f pa)

def fast (t : Demanding Γ Time) (p : Demanding Γ α) : Demanding Γ α :=
  { patternify (fun r => { _fast r p with opens := t.divided ∨ (_fast r p).opens }) t with
    pattern := Pattern.fast t.pattern p.pattern
    divided := False }

def slow (t : Demanding Γ Time) (p : Demanding Γ α) : Demanding Γ α :=
  { patternify (fun r => _slow r p) t with
    pattern := Pattern.slow t.pattern p.pattern
    divided := False }

/-- A query comes to both sides, and again for the events of the other side. -/
def ap (pf : Demanding Γ (α → β)) (px : Demanding Γ α) : Demanding Γ β where
  pattern := Pattern.ap pf.pattern px.pattern
  opens := False
  asks st := pf.opens ∨ px.opens ∨ pf.asks st ∨
    (∃ ef ∈ pf.pattern.query st, px.asks { st with arc := ef.wholeOrPart }) ∨
    px.asks st ∨
    ∃ ex ∈ (Pattern.filterAnalog px.pattern).query st, pf.asks { st with arc := ex.part }

/-- The parameters are evaluated one after another, up to the first that is not constant. -/
def patternify3 (f : α → β → γ → Demanding Γ δ) (a : Demanding Γ α) (b : Demanding Γ β)
    (c : Demanding Γ γ) : Demanding Γ δ :=
  let joined := innerJoin (ap (ap (fmap f a) b) c)
  match a.pattern.pureValue, b.pattern.pureValue, c.pattern.pureValue with
  | none, _, _ => { joined with opens := a.opens }
  | some _, none, _ => { joined with opens := a.opens ∨ b.opens }
  | some _, some _, none => { joined with opens := a.opens ∨ b.opens ∨ c.opens }
  | some (some x), some (some y), some (some z) =>
    { f x y z with opens := a.opens ∨ b.opens ∨ c.opens ∨ (f x y z).opens }
  | some _, some _, some _ => { (silence : Demanding Γ δ) with opens := True }

/-! ## Combining patterns -/

def overlay (p p' : Demanding Γ α) : Demanding Γ α where
  pattern := Pattern.overlay p.pattern p'.pattern
  opens := p.opens ∨ p'.opens
  asks st := p.asks st ∨ p'.asks st

/-- All patterns of a stack are evaluated, and asked. -/
def stack (ps : List (Demanding Γ α)) : Demanding Γ α :=
  { ps.foldr overlay silence with
    pattern := Pattern.stack (ps.map pattern)
    divided := False }

/-- Only the pattern that plays in the cycle is evaluated, and asked. -/
def catAsks (ps : List (Demanding Γ α)) (st : State Γ) (a : Arc) : Prop :=
  let n : ℤ := ps.length
  let cyc := ⌊a.start⌋
  let i := cyc % n
  let offset : Time := ((cyc - (cyc - i) / n : ℤ) : Time)
  let p := ps.getD i.toNat silence
  p.opens ∨ p.asks { st with arc := ⟨a.start - offset, a.stop - offset⟩ }

def cat : List (Demanding Γ α) → Demanding Γ α
  | [] => silence
  | [p] => p
  | ps =>
    { pattern := Pattern.cat (ps.map pattern)
      opens := False
      asks := fun st => ∃ a ∈ arcCyclesZW st.arc, catAsks ps st a }

def fastCat : List (Demanding Γ α) → Demanding Γ α
  | [p] => p
  | ps => { _fast ps.length (cat ps) with pattern := Pattern.fastCat (ps.map pattern) }

def fastFromList (xs : List α) : Demanding Γ α := fastCat (xs.map Demanding.pure)

/-- The patterns of positive weight are evaluated, and asked in their slots. -/
def timeCat : List (Time × Demanding Γ α) → Demanding Γ α
  | [(_, p)] => p
  | tps =>
    let total := (tps.map Prod.fst).sum
    { stack ((arrange 0 (tps.filter fun x => x.1 > 0)).map fun x =>
        compressArc ⟨x.1 / total, x.2.1 / total⟩ x.2.2) with
      pattern := Pattern.timeCat (tps.map fun x => (x.1, x.2.pattern)) }

/-! ## Euclidean rhythms -/

def _euclid (n k : ℤ) (a : Demanding Γ α) : Demanding Γ α :=
  if 0 ≤ n then fastCat ((bjorklund n k).map fun b => if b then a else silence)
  else fastCat ((bjorklund (-n) k).map fun b => if b then silence else a)

def _euclidBool (n k : ℤ) : Demanding Γ Bool :=
  if 0 ≤ n then fastFromList (bjorklund n k) else fastFromList ((bjorklund (-n) k).map (!·))

def _euclidOff (n k s : ℤ) (p : Demanding Γ α) : Demanding Γ α :=
  if k = 0 then silence else rotL (s / k) (_euclid n k p)

def _euclidOffBool (n k s : ℤ) (p : Demanding Γ Bool) : Demanding Γ Bool :=
  if k = 0 then silence
  else rotL (s / k) (ap (fmap (fun a b => if b then a else !a) (_euclidBool n k)) p)

def euclidOff (n k s : Demanding Γ ℤ) (p : Demanding Γ α) : Demanding Γ α :=
  { patternify3 (fun n k s => _euclidOff n k s p) n k s with
    pattern := Pattern.euclidOff n.pattern k.pattern s.pattern p.pattern
    divided := False }

def euclidOffBool (n k s : Demanding Γ ℤ) (p : Demanding Γ Bool) : Demanding Γ Bool :=
  { patternify3 (fun n k s => _euclidOffBool n k s p) n k s with
    pattern := Pattern.euclidOffBool n.pattern k.pattern s.pattern p.pattern
    divided := False }

end Demanding

/-- Trees read as patterns with their demand for rates of layers of size zero. -/
def demanding {Γ : Type} (I : Interpretation (Demanding Γ)) : Interpretation (Demanding Γ) :=
  { I with
    silence := Demanding.silence
    pure := Demanding.pure
    setContext := Demanding.setContext
    stack := Demanding.stack
    timeCat := Demanding.timeCat
    fast := Demanding.fast
    slow := Demanding.slow
    divideBy := fun sz p => { Demanding.fmap (· / sz) p with divided := p.divided ∨ sz = 0 }
    doEuclid := fun how n k s p => match how, p with
      | .euclidOff, p => Demanding.euclidOff n k s p
      | .euclidOffBool, p => Demanding.euclidOffBool n k s p }

end Tidal
