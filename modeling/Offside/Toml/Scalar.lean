import Offside.Number.Double
import Offside.Toml.DateTime

/-!
# TOML: numbers and other scalars

Digits of a number may have single underscores between them. A whole number has
64 bits.
-/
namespace Offside

namespace Toml

/-! ## Numbers -/

/-- Digits that `isDigit` knows, with single underscores between them. -/
def digitsWith? (isDigit : Char → Bool) : Text → Option (Text × Text)
  | [] => none
  | c :: rest =>
    if isDigit c then
      match rest with
      | '_' :: more => (digitsWith? isDigit more).map fun (ds, after) => (c :: ds, after)
      | d :: more =>
        if isDigit d then
          (digitsWith? isDigit (d :: more)).map fun (ds, after) => (c :: ds, after)
        else some ([c], rest)
      | [] => some ([c], [])
    else none

/-- Decimal digits. -/
def digits? : Text → Option (Text × Text) := digitsWith? Char.isDigit

/-- Decimal digits without a zero before others. -/
def wholeDigits? : Text → Option (Text × Text)
  | '0' :: rest => some (['0'], rest)
  | t => digits? t

/-- A sign, and whether it is a minus. -/
def sign : Text → Bool × Text
  | '-' :: rest => (true, rest)
  | '+' :: rest => (false, rest)
  | t => (false, t)

/-- A whole number, if it has 64 bits. -/
def integer (negative : Bool) (n : Nat) : Option Value :=
  if negative then if n ≤ Nat.pow 2 63 then some (.integer (-n)) else none
  else if n < Nat.pow 2 63 then some (.integer n) else none

/-- A whole number in another base, behind what announces the base. -/
def based? (base : Nat) (t : Text) : Option (Value × Text) :=
  let isDigit := fun c => (hexDigit? c).any (· < base)
  match digitsWith? isDigit t with
  | some (ds, after) => (integer false (valueOf base ds)).map (·, after)
  | none => none

/-- The digits behind a point; none if there is no point. -/
def fraction? : Text → Option (Text × Text)
  | '.' :: rest => digits? rest
  | t => some ([], t)

/-- The power of ten behind an `e`; none if there is no `e`. -/
def exponent? : Text → Option (Option Int × Text)
  | 'e' :: rest | 'E' :: rest =>
    let (negative, rest) := sign rest
    (digits? rest).map fun (ds, after) =>
      let n : Int := valueOf 10 ds
      (some (if negative then -n else n), after)
  | t => some (none, t)

/-- A decimal number. One that is too large is refused, unless it is negative. -/
def decimal? (negative : Bool) (t : Text) : Option (Value × Text) := do
  let (whole, rest) ← wholeDigits? t
  let (fraction, rest) ← fraction? rest
  let (power, after) ← exponent? rest
  if fraction.isEmpty && power.isNone then
    return (← integer negative (valueOf 10 whole), after)
  else
    let d := Double.ofDecimal negative (valueOf 10 (whole ++ fraction))
      (power.getD 0 - fraction.length)
    if d = .infinite false then none else some (.double d, after)

/-- A number. -/
def number? : Text → Option (Value × Text)
  | '0' :: 'x' :: rest => based? 16 rest
  | '0' :: 'o' :: rest => based? 8 rest
  | '0' :: 'b' :: rest => based? 2 rest
  | t =>
    let (negative, rest) := sign t
    match rest with
    | 'i' :: 'n' :: 'f' :: after => some (.double (.infinite negative), after)
    | 'n' :: 'a' :: 'n' :: after => some (.double .notANumber, after)
    | _ => decimal? negative rest

/-! ## All of them -/

/-- A value that holds no others; a date or a time is tagged as one. -/
def scalar? : Text → Option (Value × Text)
  | 't' :: 'r' :: 'u' :: 'e' :: rest => some (.boolean true, rest)
  | 'f' :: 'a' :: 'l' :: 's' :: 'e' :: rest => some (.boolean false, rest)
  | t =>
    match string? t with
    | some (s, rest) => some (.text s, rest)
    | none =>
      match dateTime? t with
      | some (s, rest) => some (tagged s, rest)
      | none => number? t

end Toml

end Offside
