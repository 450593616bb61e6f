import Tidal.Time

/-!
# Printing times

A time is printed as its whole part, followed by what is left: one character for some fractions, super- and
subscript digits for the others with single digits, `n/d` otherwise. An `Int` has 64 bits here, as times are
not bounded.
-/

namespace Tidal.Show

/-- The decimal digits of a number that is not zero. -/
def numeral (n : ℕ) : List Char := (Nat.digits 10 n).reverse.map Nat.digitChar

/-- `show` on `Int` and `Integer`. -/
def showInt (z : ℤ) : List Char :=
  (if z < 0 then ['-'] else []) ++ if z = 0 then ['0'] else numeral z.natAbs

/-- The fractions that have a character. -/
def vulgar : List ((ℤ × ℤ) × Char) :=
  [((1, 2), '½'), ((1, 3), '⅓'), ((2, 3), '⅔'), ((1, 4), '¼'), ((3, 4), '¾'), ((1, 5), '⅕'), ((2, 5), '⅖'),
    ((3, 5), '⅗'), ((4, 5), '⅘'), ((1, 6), '⅙'), ((5, 6), '⅚'), ((1, 7), '⅐'), ((1, 8), '⅛'), ((3, 8), '⅜'),
    ((5, 8), '⅝'), ((7, 8), '⅞'), ((1, 9), '⅑'), ((1, 10), '⅒')]

def superscripts : List (ℤ × Char) :=
  [(1, '¹'), (2, '²'), (3, '³'), (4, '⁴'), (5, '⁵'), (6, '⁶'), (7, '⁷'), (8, '⁸'), (9, '⁹'), (0, '⁰')]

def subscripts : List (ℤ × Char) :=
  [(1, '₁'), (2, '₂'), (3, '₃'), (4, '₄'), (5, '₅'), (6, '₆'), (7, '₇'), (8, '₈'), (9, '₉'), (0, '₀')]

def up (n : ℤ) : Option Char := superscripts.lookup n

def down (d : ℤ) : Option Char := subscripts.lookup d

/-- What is written with superscript and subscript digits. -/
def scripts (n d : ℤ) : Option (List Char) := do
  let n' ← up n
  let d' ← down d
  return [n', d']

def plain (n d : ℤ) : List Char := showInt n ++ '/' :: showInt d

def showFrac (n d : ℤ) : List Char :=
  if n = 0 then []
  else match vulgar.lookup (n, d) with
    | some c => [c]
    | none => (scripts n d).getD (plain n d)

/-- The whole part, as an `Int`. -/
def unit (r : ℚ) : ℤ := Int.bmod ⌊r⌋ (2 ^ 64)

def frac (r : ℚ) : ℚ := r - unit r

def prettyRat (r : ℚ) : List Char :=
  if unit r = 0 ∧ 0 < frac r then showFrac (frac r).num (frac r).den
  else showInt (unit r) ++ showFrac (frac r).num (frac r).den

/-- `show` on `Arc`. -/
def showArc (a : Arc) : List Char := prettyRat a.start ++ '>' :: prettyRat a.stop

end Tidal.Show
