import Offside.Toml.Lexical
import Offside.Value

/-!
# TOML: dates and times

A date or a time becomes a text in one fixed form. Until a document is read to
its end it is kept apart from strings: as a table with a single name that is
reserved for this. A document may spell such a table out, and means a date or a
time by it all the same.

* `dateTime?`: a date, a time, or both at the front of a text;
* `settle?`: a value in which tagged dates and times have become texts.
-/
namespace Offside

namespace Toml

/-! ## As they are written -/

/-- The value of digits in a base. -/
def valueOf (base : Nat) (ds : Text) : Nat :=
  ds.foldl (fun n c => base * n + (hexDigit? c).getD 0) 0

/-- A number of exactly `n` digits, up to a limit, as it is written. -/
def field? (n low high : Nat) (t : Text) : Option (Text × Text) :=
  let ds := t.take n
  if ds.length = n ∧ ds.all Char.isDigit ∧ low ≤ valueOf 10 ds ∧ valueOf 10 ds ≤ high then
    some (ds, t.drop n)
  else none

/-- One character that has to come next. -/
def expect? (c : Char) : Text → Option Text
  | d :: rest => if d = c then some rest else none
  | [] => none

def isLeapYear (year : Nat) : Bool := year % 4 == 0 && (year % 100 != 0 || year % 400 == 0)

def daysIn (year month : Nat) : Nat :=
  if month = 2 then if isLeapYear year then 29 else 28
  else if month = 4 ∨ month = 6 ∨ month = 9 ∨ month = 11 then 30
  else 31

/-- A date, as it is written. -/
def date? (t : Text) : Option (Text × Text) := do
  let (year, rest) ← field? 4 0 9999 t
  let rest ← expect? '-' rest
  let (month, rest) ← field? 2 1 12 rest
  let rest ← expect? '-' rest
  let (day, rest) ← field? 2 1 (daysIn (valueOf 10 year) (valueOf 10 month)) rest
  return (year ++ '-' :: month ++ '-' :: day, rest)

/-- The fraction of a second: nine digits count, and zeros at the end do not
show. -/
def secondFraction? : Text → Option (Text × Text)
  | '.' :: rest =>
    match rest.takeWhile Char.isDigit with
    | [] => none
    | ds =>
      let shown := ((ds.take 9).reverse.dropWhile (· == '0')).reverse
      some (if shown.isEmpty then [] else '.' :: shown, rest.dropWhile Char.isDigit)
  | t => some ([], t)

/-- A time of day. -/
def time? (t : Text) : Option (Text × Text) := do
  let (hour, rest) ← field? 2 0 23 t
  let rest ← expect? ':' rest
  let (minute, rest) ← field? 2 0 59 rest
  let rest ← expect? ':' rest
  let (second, rest) ← field? 2 0 60 rest
  let (fraction, rest) ← secondFraction? rest
  return (hour ++ ':' :: minute ++ ':' :: second ++ fraction, rest)

/-- How far a time is from universal time; none is no offset. No distance is
never negative. -/
def offset? : Text → Option (Text × Text)
  | 'Z' :: rest | 'z' :: rest => some (['Z'], rest)
  | '+' :: rest => distance '+' rest
  | '-' :: rest => distance '-' rest
  | t => some ([], t)
where
  distance (mark : Char) (t : Text) : Option (Text × Text) := do
    let (hour, rest) ← field? 2 0 23 t
    let rest ← expect? ':' rest
    let (minute, rest) ← field? 2 0 59 rest
    let mark := if valueOf 10 (hour ++ minute) = 0 then '+' else mark
    return (mark :: hour ++ ':' :: minute, rest)

/-- The time that may follow a date, with its offset. -/
def timeAfterDate? : Text → Option (Text × Text)
  | c :: rest =>
    if c = 'T' ∨ c = 't' ∨ c = ' ' then do
      let (time, rest) ← time? rest
      let (offset, rest) ← offset? rest
      return ('T' :: time ++ offset, rest)
    else none
  | [] => none

/-- A date, a time, or both. -/
def dateTime? (t : Text) : Option (Text × Text) :=
  match date? t with
  | some (date, rest) =>
    match timeAfterDate? rest with
    | some (time, rest) => some (date ++ time, rest)
    | none => some (date, rest)
  | none => time? t

/-! ## As values -/

/-- The reserved name. -/
def dateTimeName : Text := "$__toml_private_datetime".toList

/-- A date or a time, told apart from a string. -/
def tagged (t : Text) : Value := .table [(dateTimeName, .text t)]

/-- What the entries of a table give for a date or a time, if they begin with
the reserved name; those behind it do not count. -/
def tag? : List (Text × Value) → Option Value
  | (name, v) :: _ => if name = dateTimeName then some v else none
  | [] => none

/-- The date or time that a string spells from its start to its end. -/
def spelled? : Value → Option Value
  | .text t =>
    match dateTime? t with
    | some (s, []) => some (.text s)
    | _ => none
  | _ => none

mutual

/-- A value in which every tagged date or time is a text; none if a tag is on
something else. -/
def settle? : Value → Option Value
  | .table es =>
    match tag? es with
    | some v => spelled? v
    | none => (settleEntries? es).map .table
  | .list vs => (settleAll? vs).map .list
  | v => some v

def settleEntries? : List (Text × Value) → Option (List (Text × Value))
  | [] => some []
  | (name, v) :: es =>
    match settle? v, settleEntries? es with
    | some v, some es => some ((name, v) :: es)
    | _, _ => none

def settleAll? : List Value → Option (List Value)
  | [] => some []
  | v :: vs =>
    match settle? v, settleAll? vs with
    | some v, some vs => some (v :: vs)
    | _, _ => none

end

end Toml

end Offside
