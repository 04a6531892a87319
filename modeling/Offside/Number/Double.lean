/-!
# Double precision

A number in double precision is a sign and a natural number of at most 53
binary digits times a power of two, or one of the values beyond all numbers.

* `ofDecimal`: the number nearest to a decimal, ties to the even neighbour;
* `isZero`: what counts as no.
-/
namespace Offside

/-- A number in double precision. A finite one is `mantissa * 2 ^ exponent`. -/
inductive Double where
  | finite (negative : Bool) (mantissa : Nat) (exponent : Int)
  | infinite (negative : Bool)
  | notANumber
  deriving DecidableEq, Repr

namespace Double

/-- A positive fraction, times a power of `base`. -/
def scaled (base num den : Nat) (exponent : Int) : Nat × Nat :=
  match exponent with
  | .ofNat k => (num * Nat.pow base k, den)
  | .negSucc k => (num, den * Nat.pow base (k + 1))

/-- The natural number nearest to a fraction; of two equally near, the even one. -/
def roundToEven (num den : Nat) : Nat :=
  let q := num / den
  let twice := 2 * (num % den)
  if twice < den then q else if den < twice then q + 1 else q + q % 2

/-- The smallest exponent a number can have. -/
def minExponent : Int := -1074

/-- The largest exponent a number can have. -/
def maxExponent : Int := 971

/-- The exponent at which a positive fraction has 53 binary digits before the
point, or the smallest one if it would be less. -/
def exponentFor (num den : Nat) : Int :=
  let guess := max minExponent ((num.log2 : Int) - den.log2 - 53)
  let (n, d) := scaled 2 num den (-guess)
  if n / d < Nat.pow 2 53 then guess else guess + 1

/-- The number nearest to a positive fraction. -/
def ofFraction (negative : Bool) (num den : Nat) : Double :=
  let q := exponentFor num den
  let (n, d) := scaled 2 num den (-q)
  let m := roundToEven n d
  let (m, q) := if m = Nat.pow 2 53 then (Nat.pow 2 52, q + 1) else (m, q)
  if maxExponent < q then .infinite negative else .finite negative m q

/-- The number nearest to `digits * 10 ^ exponent`. Powers of ten far beyond
the range are not worked out. -/
def ofDecimal (negative : Bool) (digits : Nat) (exponent : Int) : Double :=
  let size : Int := (Nat.toDigits 10 digits).length + exponent
  if digits = 0 ∨ size < -330 then .finite negative 0 0
  else if 310 < size then .infinite negative
  else
    let (n, d) := scaled 10 digits 1 exponent
    ofFraction negative n d

/-- Zero of either sign. -/
def isZero : Double → Bool
  | .finite _ m _ => m == 0
  | _ => false

end Double

end Offside
