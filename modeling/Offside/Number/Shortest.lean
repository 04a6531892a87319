import Offside.Number.Double
import Offside.Text.Basic

/-!
# The shortest decimal

A number in double precision is written with the fewest digits that read back
to it, and of those the nearest; a half goes away from zero. Its digits are
laid out around the point, with zeros up to it and never with a power of ten.
-/
namespace Offside

namespace Double

/-- The decimal digits of a natural number. -/
def digitsOf (n : Nat) : Text := Nat.toDigits 10 n

/-- The power of ten at the first digit of a positive fraction. -/
def leadingPower (num den : Nat) : Int :=
  if den ≤ num then (digitsOf (num / den)).length - 1
  else -((digitsOf ((den + num - 1) / num - 1)).length : Int)

/-- `c * 10 ^ g` against the fraction: whether it is at most that. -/
def atMost (c : Nat) (g : Int) (num den : Nat) : Bool :=
  let (n, d) := scaled 10 c 1 g
  n * den ≤ num * d

/-- How far `c * 10 ^ g` is from a fraction, as a fraction. -/
def distance (c : Nat) (g : Int) (num den : Nat) : Nat × Nat :=
  let (n, d) := scaled 10 c 1 g
  (max (n * den) (num * d) - min (n * den) (num * d), d * den)

/-- The numbers that read back to `m * 2 ^ q`: all between two fractions with
the same denominator, which belong to them if `m` is even. -/
structure Span where
  low : Nat
  value : Nat
  high : Nat
  den : Nat
  closed : Bool

/-- Halfway to the neighbours on either side; below a power of two the lower
neighbour is nearer. -/
def spanOf (m : Nat) (q : Int) : Span :=
  let below := if m = Nat.pow 2 52 ∧ minExponent < q then 1 else 2
  let (unit, den) := scaled 2 1 1 (q - 2)
  ⟨(4 * m - below) * unit, 4 * m * unit, (4 * m + 2) * unit, den, m % 2 == 0⟩

/-- Whether `c * 10 ^ g` lies in the span. -/
def Span.holds (s : Span) (c : Nat) (g : Int) : Bool :=
  let (n, d) := scaled 10 c 1 g
  if s.closed then s.low * d ≤ n * s.den && n * s.den ≤ s.high * d
  else s.low * d < n * s.den && n * s.den < s.high * d

/-- The nearer of the value's two neighbours on the grid of `10 ^ g` that lies
in the span; of two equally near, the larger. -/
def Span.onGrid? (s : Span) (g : Int) : Option Nat :=
  let (n, d) := scaled 10 s.value s.den (-g)
  let c := n / d
  match s.holds c g && 0 < c, s.holds (c + 1) g with
  | true, true =>
    let (a, _) := distance c g s.value s.den
    let (b, _) := distance (c + 1) g s.value s.den
    some (if a < b then c else c + 1)
  | true, false => some c
  | false, true => some (c + 1)
  | false, false => none

/-- The first grid with a point in the span, from the one whose point has one
digit on; `tries` grids are looked at. -/
def Span.shortest (s : Span) : Nat → Int → Nat × Int
  | 0, g => (((scaled 10 s.value s.den (-g)).1 / (scaled 10 s.value s.den (-g)).2), g)
  | tries + 1, g =>
    match s.onGrid? g with
    | some c => (c, g)
    | none => s.shortest tries (g - 1)

/-- Takes zeros off the end. -/
def trimZeros (t : Text) : Text := (t.reverse.dropWhile (· == '0')).reverse

/-- `c * 10 ^ g` written out around the point. -/
def layOut (c : Nat) (g : Int) : Text :=
  match g with
  | .ofNat k => digitsOf c ++ List.replicate k '0'
  | .negSucc k =>
    let ds := digitsOf c
    let ds := List.replicate (k + 2 - ds.length) '0' ++ ds
    let cut := ds.length - (k + 1)
    let fraction := trimZeros (ds.drop cut)
    ds.take cut ++ if fraction.isEmpty then [] else '.' :: fraction

/-- The shortest text of a number. -/
def text : Double → Text
  | .notANumber => ['N', 'a', 'N']
  | .infinite negative => (if negative then ['-'] else []) ++ ['i', 'n', 'f']
  | .finite negative m q =>
    (if negative then ['-'] else []) ++
      if m = 0 then ['0']
      else
        let s := spanOf m q
        let (c, g) := s.shortest 17 (leadingPower s.value s.den)
        layOut c g

end Double

end Offside
