import Offside.Statement.Range

/-!
# JSON output

A small form of JSON, and how it can be written: two blanks for each level of
nesting, one member on each line, and nothing between the brackets of what is
empty.

* `Json.Plain`, `Json.numbers`: values without strings, and their numbers in order;
* `Json.render`: a value written out.
-/
namespace Offside

/-- A JSON value with whole numbers only. -/
inductive Json where
  | number (n : Nat)
  | boolean (b : Bool)
  | string (t : Text)
  | list (vs : List Json)
  | object (members : List (String × Json))
  deriving Repr

namespace Json

/-! ## Numbers in a value -/

mutual

/-- The numbers in a value, in order. -/
def numbers : Json → List Nat
  | .number n => [n]
  | .boolean _ => []
  | .string _ => []
  | .list vs => elementNumbers vs
  | .object ms => memberNumbers ms

def elementNumbers : List Json → List Nat
  | [] => []
  | v :: vs => numbers v ++ elementNumbers vs

def memberNumbers : List (String × Json) → List Nat
  | [] => []
  | (_, v) :: ms => numbers v ++ memberNumbers ms

end

/-- A name of letters and underscores. -/
def PlainName (name : Text) : Prop := ∀ c ∈ name, c.isAlpha ∨ c = '_'

instance (name : Text) : Decidable (PlainName name) :=
  decidable_of_iff (name.all fun c => c.isAlpha || c == '_') (by simp [PlainName])

mutual

/-- A value without strings, all of whose names are plain. -/
def Plain : Json → Prop
  | .number _ => True
  | .boolean _ => True
  | .string _ => False
  | .list vs => PlainElements vs
  | .object ms => PlainMembers ms

def PlainElements : List Json → Prop
  | [] => True
  | v :: vs => Plain v ∧ PlainElements vs

def PlainMembers : List (String × Json) → Prop
  | [] => True
  | (name, v) :: ms => PlainName name.toList ∧ Plain v ∧ PlainMembers ms

end

/-! ## Writing values -/

/-- A character within a JSON string. -/
def escape (c : Char) : Text :=
  if c = '"' ∨ c = '\\' then ['\\', c]
  else if c = '\n' then ['\\', 'n']
  else if c = '\r' then ['\\', 'r']
  else if c = '\t' then ['\\', 't']
  else if c = '\x08' then ['\\', 'b']
  else if c = '\x0c' then ['\\', 'f']
  else if c.toNat < 0x20 then
    ['\\', 'u', '0', '0', Nat.digitChar (c.toNat / 16), Nat.digitChar (c.toNat % 16)]
  else [c]

def quote (t : Text) : Text := '"' :: t.flatMap escape ++ ['"']

/-- What a line at a depth begins with. -/
def indent (depth : Nat) : Text := List.replicate (2 * depth) ' '

mutual

/-- A value that begins on a line of some depth. -/
def render (depth : Nat) : Json → Text
  | .number n => Nat.toDigits 10 n
  | .boolean b => (if b then "true" else "false").toList
  | .string t => quote t
  | .list [] => ['[', ']']
  | .list (v :: vs) => ['[', '\n'] ++ renderElements (depth + 1) (v :: vs) ++ indent depth ++ [']']
  | .object [] => ['\x7b', '\x7d']
  | .object (m :: ms) =>
    ['\x7b', '\n'] ++ renderMembers (depth + 1) (m :: ms) ++ indent depth ++ ['\x7d']

/-- The elements of a list, each on lines of its own. -/
def renderElements (depth : Nat) : List Json → Text
  | [] => []
  | v :: vs =>
    indent depth ++ render depth v ++ (if vs.isEmpty then ['\n'] else [',', '\n']) ++
      renderElements depth vs

/-- The members of an object, each on lines of its own. -/
def renderMembers (depth : Nat) : List (String × Json) → Text
  | [] => []
  | (name, v) :: ms =>
    indent depth ++ quote name.toList ++ [':', ' '] ++ render depth v ++
      (if ms.isEmpty then ['\n'] else [',', '\n']) ++ renderMembers depth ms

end

end Json

def Position.json (p : Position) : Json :=
  .object [("line", .number p.line), ("column", .number p.column)]

def Token.json (t : Token) : Json :=
  .object [("kind", .string t.kind.name.toList), ("start", t.start.json), ("end", t.stop.json),
    ("text", .string t.text)]

/-- mirrors replfeed-normalizer/src/parsing/ranges.rs:13-18 -/
def LineRange.json (r : LineRange) : Json :=
  .object [("start_line", .number r.first), ("end_line", .number r.last),
    ("is_single_line", .boolean r.isSingle)]

end Offside
