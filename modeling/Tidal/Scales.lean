import Tidal.UI

/-!
# Scales (`Sound.Tidal.Scales`, `Sound.Tidal.UI`)

A scale is the list of the notes of one octave, and is repeated in the octaves above and below.
-/

namespace Tidal.Pattern

variable {Γ α : Type}

/-- `xs !!! n`, where the list may be empty: there is no remainder of a division by zero. -/
def atWrapped (xs : List α) (n : ℤ) : Lazy α :=
  if h : xs = [] then none else some ((⟨xs, h⟩ : Choices α).at n)

/-! ## Lists as scales -/

namespace toScale'

def octave (s : Choices α) (x : ℤ) : ℤ := x / s.xs.length

def noteInScale [Add α] [IntCast α] (o : ℤ) (s : Choices α) (x : ℤ) : α :=
  s.at x + (MachineInt.mul o (octave s x) : α)

end toScale'

/-- As `toScale`, though allowing scales of arbitrary size. -/
def toScale' [Add α] [IntCast α] (o : ℤ) : List α → Pattern Γ ℤ → Pattern Γ α
  | [] => fun _ => silence
  | x :: xs => fmap (toScale'.noteInScale o ⟨x :: xs, List.cons_ne_nil x xs⟩)

/-- Interprets a pattern of note numbers into a scale that fits within an octave. -/
def toScale [Add α] [IntCast α] (s : List α) (p : Pattern Γ ℤ) : Pattern Γ α := toScale' 12 s p

/-! ## Named scales -/

namespace getScale

/-- Nothing divides by the length of an empty scale before `!!!` has. -/
def octave (s : List α) (x : ℤ) : ℤ := x / s.length

def noteInScale [Add α] [IntCast α] (s : List α) (x : ℤ) : Lazy α :=
  (atWrapped s x).map (· + (MachineInt.mul 12 (octave s x) : α))

/-- The note of a number in a scale of the table. A scale that is not there has the note 0 only. -/
def note [Add α] [IntCast α] [Zero α] (table : List (String × List α)) (n : ℤ) (scaleName : String) : Lazy α :=
  noteInScale ((table.lookup scaleName).getD [0]) n

end getScale

/-- Builds a scale function from a table of scales. -/
def getScale [Add α] [IntCast α] [Zero α] (table : List (String × List α)) (sp : Pattern Γ String)
    (p : Pattern Γ ℤ) : Pattern Γ (Lazy α) :=
  apLeft (fmap (getScale.note table) p) sp

end Tidal.Pattern
