import Tidal.Pattern
import Tidal.Lib.Rounds

/-!
# Chords (`Sound.Tidal.Chords`)

A chord is a list of notes above its root, and modifiers re-voice it. The source draws notes from an endless
list, the chord repeated an octave higher each time; the model works that list out for `fuel` rounds. A list
the source never comes to the first cell of is `none`. Notes are unevaluated: one that is looked up outside
of its list is an error for whoever plays it, not for the list it stands in.
-/

namespace Tidal.Chords

variable {α : Type}

/-! ## Chord definitions -/

/-! ### Major chords -/

def major : List ℤ := [0, 4, 7]
def aug : List ℤ := [0, 4, 8]
def six : List ℤ := [0, 4, 7, 9]
def sixNine : List ℤ := [0, 4, 7, 9, 14]
def major7 : List ℤ := [0, 4, 7, 11]
def major9 : List ℤ := [0, 4, 7, 11, 14]
def add9 : List ℤ := [0, 4, 7, 14]
def major11 : List ℤ := [0, 4, 7, 11, 14, 17]
def add11 : List ℤ := [0, 4, 7, 17]
def major13 : List ℤ := [0, 4, 7, 11, 14, 21]
def add13 : List ℤ := [0, 4, 7, 21]

/-! ### Dominant chords -/

def dom7 : List ℤ := [0, 4, 7, 10]
def dom9 : List ℤ := [0, 4, 7, 14]
def dom11 : List ℤ := [0, 4, 7, 17]
def dom13 : List ℤ := [0, 4, 7, 21]
def sevenFlat5 : List ℤ := [0, 4, 6, 10]
def sevenSharp5 : List ℤ := [0, 4, 8, 10]
def sevenFlat9 : List ℤ := [0, 4, 7, 10, 13]
def nine : List ℤ := [0, 4, 7, 10, 14]
def eleven : List ℤ := [0, 4, 7, 10, 14, 17]
def thirteen : List ℤ := [0, 4, 7, 10, 14, 17, 21]

/-! ### Minor chords -/

def minor : List ℤ := [0, 3, 7]
def diminished : List ℤ := [0, 3, 6]
def minorSharp5 : List ℤ := [0, 3, 8]
def minor6 : List ℤ := [0, 3, 7, 9]
def minorSixNine : List ℤ := [0, 3, 9, 7, 14]
def minor7flat5 : List ℤ := [0, 3, 6, 10]
def minor7 : List ℤ := [0, 3, 7, 10]
def minor7sharp5 : List ℤ := [0, 3, 8, 10]
def minor7flat9 : List ℤ := [0, 3, 7, 10, 13]
def minor7sharp9 : List ℤ := [0, 3, 7, 10, 15]
def diminished7 : List ℤ := [0, 3, 6, 9]
def minor9 : List ℤ := [0, 3, 7, 10, 14]
def minor11 : List ℤ := [0, 3, 7, 10, 14, 17]
def minor13 : List ℤ := [0, 3, 7, 10, 14, 17, 21]
def minorMajor7 : List ℤ := [0, 3, 7, 11]

/-! ### Other chords -/

def one : List ℤ := [0]
def five : List ℤ := [0, 7]
def sus2 : List ℤ := [0, 2, 7]
def sus4 : List ℤ := [0, 5, 7]
def sevenSus2 : List ℤ := [0, 2, 7, 10]
def sevenSus4 : List ℤ := [0, 5, 7, 10]
def nineSus4 : List ℤ := [0, 5, 7, 10, 14]

/-! ### Questionable chords -/

def sevenFlat10 : List ℤ := [0, 4, 7, 10, 15]
def nineSharp5 : List ℤ := [0, 1, 13]
def minor9sharp5 : List ℤ := [0, 1, 14]
def sevenSharp5flat9 : List ℤ := [0, 4, 8, 10, 13]
def minor7sharp5flat9 : List ℤ := [0, 3, 8, 10, 13]
def elevenSharp : List ℤ := [0, 4, 7, 10, 14, 18]
def minor11sharp : List ℤ := [0, 3, 7, 10, 14, 18]

/-! ## The table -/

/-- All available chords and their notes. -/
def chordTable : List (String × List ℤ) :=
  [("major", major), ("maj", major), ("M", major), ("aug", aug), ("plus", aug), ("sharp5", aug),
    ("six", six), ("6", six), ("sixNine", sixNine), ("six9", sixNine), ("sixby9", sixNine),
    ("6by9", sixNine), ("major7", major7), ("maj7", major7), ("M7", major7), ("major9", major9),
    ("maj9", major9), ("M9", major9), ("add9", add9), ("major11", major11), ("maj11", major11),
    ("M11", major11), ("add11", add11), ("major13", major13), ("maj13", major13), ("M13", major13),
    ("add13", add13), ("dom7", dom7), ("dom9", dom9), ("dom11", dom11), ("dom13", dom13),
    ("sevenFlat5", sevenFlat5), ("7f5", sevenFlat5), ("sevenSharp5", sevenSharp5), ("7s5", sevenSharp5),
    ("sevenFlat9", sevenFlat9), ("7f9", sevenFlat9), ("nine", nine), ("eleven", eleven), ("11", eleven),
    ("thirteen", thirteen), ("13", thirteen), ("minor", minor), ("min", minor), ("m", minor),
    ("diminished", diminished), ("dim", diminished), ("minorSharp5", minorSharp5),
    ("msharp5", minorSharp5), ("mS5", minorSharp5), ("minor6", minor6), ("min6", minor6),
    ("m6", minor6), ("minorSixNine", minorSixNine), ("minor69", minorSixNine), ("min69", minorSixNine),
    ("minSixNine", minorSixNine), ("m69", minorSixNine), ("mSixNine", minorSixNine),
    ("m6by9", minorSixNine), ("minor7flat5", minor7flat5), ("minor7f5", minor7flat5),
    ("min7flat5", minor7flat5), ("min7f5", minor7flat5), ("m7flat5", minor7flat5),
    ("m7f5", minor7flat5), ("minor7", minor7), ("min7", minor7), ("m7", minor7),
    ("minor7sharp5", minor7sharp5), ("minor7s5", minor7sharp5), ("min7sharp5", minor7sharp5),
    ("min7s5", minor7sharp5), ("m7sharp5", minor7sharp5), ("m7s5", minor7sharp5),
    ("minor7flat9", minor7flat9), ("minor7f9", minor7flat9), ("min7flat9", minor7flat9),
    ("min7f9", minor7flat9), ("m7flat9", minor7flat9), ("m7f9", minor7flat9),
    ("minor7sharp9", minor7sharp9), ("minor7s9", minor7sharp9), ("min7sharp9", minor7sharp9),
    ("min7s9", minor7sharp9), ("m7sharp9", minor7sharp9), ("m7s9", minor7sharp9),
    ("diminished7", diminished7), ("dim7", diminished7), ("minor9", minor9), ("min9", minor9),
    ("m9", minor9), ("minor11", minor11), ("min11", minor11), ("m11", minor11), ("minor13", minor13),
    ("min13", minor13), ("m13", minor13), ("minorMajor7", minorMajor7), ("minMaj7", minorMajor7),
    ("mmaj7", minorMajor7), ("one", one), ("1", one), ("five", five), ("5", five), ("sus2", sus2),
    ("sus4", sus4), ("sevenSus2", sevenSus2), ("7sus2", sevenSus2), ("sevenSus4", sevenSus4),
    ("7sus4", sevenSus4), ("nineSus4", nineSus4), ("ninesus4", nineSus4), ("9sus4", nineSus4),
    ("sevenFlat10", sevenFlat10), ("7f10", sevenFlat10), ("nineSharp5", nineSharp5),
    ("9sharp5", nineSharp5), ("9s5", nineSharp5), ("minor9sharp5", minor9sharp5),
    ("minor9s5", minor9sharp5), ("min9sharp5", minor9sharp5), ("min9s5", minor9sharp5),
    ("m9sharp5", minor9sharp5), ("m9s5", minor9sharp5), ("sevenSharp5flat9", sevenSharp5flat9),
    ("7s5f9", sevenSharp5flat9), ("minor7sharp5flat9", minor7sharp5flat9),
    ("m7sharp5flat9", minor7sharp5flat9), ("elevenSharp", elevenSharp), ("11s", elevenSharp),
    ("minor11sharp", minor11sharp), ("m11sharp", minor11sharp), ("m11s", minor11sharp)]

/-! ## Chord functions -/

inductive Modifier
  | Range (i : ℤ)
  | Drop (i : ℤ)
  | Invert
  | Open
deriving DecidableEq

/-- `(!!)` -/
def index (ds : List (Lazy α)) (s : ℤ) : Lazy α := if 0 ≤ s then ds[s.toNat]?.join else none

section Notes

variable [AddCommGroupWithOne α]

/-- `(+ x)` -/
def add (x : α) (d : Lazy α) : Lazy α := d.map (· + x)

/-- The first `fuel` rounds of `concatMap (\x -> map (+ x) ds) [0,12..]`. -/
def octaves (fuel : ℕ) (ds : List (Lazy α)) : List (Lazy α) :=
  Rounds.rounds (fun k => ds.map (add (12 * k : ℕ))) fuel

/-- `take i` of an endless list that is known as far as `xs`. -/
def takeKnown (i : ℤ) (xs : List (Lazy α)) : Option (List (Lazy α)) :=
  if i ≤ xs.length then some (xs.take i.toNat) else none

def invert : List (Lazy α) → List (Lazy α)
  | [] => []
  | d :: ds => ds ++ [add 12 d]

def openVoicing (ds : List (Lazy α)) : List (Lazy α) :=
  if ds.length > 2 then
    [add (-12) (index ds 0), add (-12) (index ds 2), index ds 1] ++
      (ds.reverse.take (ds.length - 3)).reverse
  else ds

def dropNote (i : ℤ) (ds : List (Lazy α)) : List (Lazy α) :=
  if ds.length < i then ds
  else
    let s : ℤ := ds.length - i
    let (xs, ys) := ds.splitAt s.toNat
    add (-12) (index ds s) :: (xs ++ ys.drop 1)

/-- `Range` looks at its list only when it takes a note. -/
def applyModifier (fuel : ℕ) (m : Modifier) (ds : Option (List (Lazy α))) : Option (List (Lazy α)) :=
  match m with
  | .Range i => takeKnown i (octaves fuel (ds.getD []))
  | .Invert => ds.map invert
  | .Open => ds.map openVoicing
  | .Drop i => ds.map (dropNote i)

/-- What `applyModifierPat` does to one chord. -/
def applyModifiers (fuel : ℕ) (ch : List (Lazy α)) (ms : List Modifier) : Option (List (Lazy α)) :=
  ms.foldl (fun ds m => applyModifier fuel m ds) (some ch)

/-- The notes of a named chord above a root, as `chordToPatSeq` looks them up. -/
def chordNotes (n : α) (name : String) : List (Lazy α) :=
  (((chordTable.lookup name).getD [0]).map fun x : ℤ => some (x : α)).map (add n)

/-- The notes that `parseChord` takes for a range of `i` and `j` inversions. -/
def parseChordNotes (fuel : ℕ) (i : ℤ) (j : ℕ) (foundChord : List (Lazy α)) : Option (List (Lazy α)) :=
  takeKnown i ((octaves fuel foundChord).drop j)

/-! ## Voicings -/

/-- The same note, or the note one octave above or below. -/
def Octave (x y : α) : Prop := y = x ∨ y = x + 12 ∨ y = x - 12

/-- The notes that are whole octaves away from a note. -/
def pitchClass (x : α) : α ⧸ AddSubgroup.zmultiples (12 : α) := QuotientAddGroup.mk x

def pitchClasses (ds : List α) : Multiset (α ⧸ AddSubgroup.zmultiples (12 : α)) :=
  (ds.map pitchClass : List _)

end Notes

end Tidal.Chords
