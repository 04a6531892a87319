import Offside.Value

/-!
# Paths to settings

A path names a setting in nested tables: a name, then names behind points and
indices in square brackets, as in `output.on_error` or `levels[0]`.

* `Path.Leads`: the path leads to a name in a group;
* `Path.parse?`: reads a path;
* `Path.set`: gives the setting a value, and makes the tables and lists on the
  way there.
-/
namespace Offside

/-- One step down from a value. -/
inductive Path.Step where
  | name (n : Text)
  | index (i : Int)
  deriving DecidableEq, Repr

/-- A name in the outermost table, and the steps down from there. -/
structure Path where
  head : Text
  steps : List Path.Step
  deriving DecidableEq, Repr

namespace Path

/-! ## Paths of names -/

/-- The names of some steps, if none is an index. -/
def names? : List Step → Option (List Text)
  | [] => some []
  | .name n :: steps => (names? steps).map (n :: ·)
  | .index _ :: _ => none

/-- A value in nested tables of one name each. -/
def nested (v : Value) : List Text → Value
  | [] => v
  | n :: ns => .table [(n, nested v ns)]

/-- What a path of names puts under its first one when it gives a value. -/
def headValue? (p : Path) (v : Value) : Option Value := (names? p.steps).map (nested v)

/-- The path leads to a name in a group. -/
def Leads (p : Path) (group name : Text) : Prop :=
  ∃ m, p.steps = [.name m] ∧ Value.foldCase p.head = group ∧ Value.foldCase m = name

/-- A name that means nothing but itself as a path. -/
def Plain (t : Text) : Prop := t ≠ [] ∧ ∀ c ∈ t, c.isAlphanum ∨ c = '_'

instance (t : Text) : Decidable (Plain t) :=
  decidable_of_iff (t ≠ [] ∧ t.all fun c => c.isAlphanum || c == '_') (by simp [Plain])

/-! ## Reading and following paths -/

/-- What a name is made of. -/
def isNameChar (c : Char) : Bool := c.isAlphanum || c == '_' || c == '-' || c == ' '

/-- What may stand around an index. -/
def isSpace (c : Char) : Bool := c == ' ' || c == '\t'

/-- A name at the front of a text. -/
def name? (t : Text) : Option (Text × Text) :=
  match t.takeWhile isNameChar with
  | [] => none
  | name => some (name, t.dropWhile isNameChar)

/-- The value of decimal digits. -/
def natOf (digits : Text) : Nat := digits.foldl (fun n c => 10 * n + (c.toNat - '0'.toNat)) 0

/-- A whole number of machine size at the front of a text. -/
def integer? (t : Text) : Option (Int × Text) :=
  let (negative, unsigned) :=
    match t with
    | '-' :: rest => (true, rest)
    | _ => (false, t)
  let digits := unsigned.takeWhile Char.isDigit
  let n : Int := if negative then -(natOf digits : Int) else natOf digits
  if digits.isEmpty || n < -Int.pow 2 63 || Int.pow 2 63 ≤ n then none
  else some (n, unsigned.dropWhile Char.isDigit)

/-- One step at the front of a text. -/
def step? : Text → Option (Step × Text)
  | '.' :: rest => (name? rest).map fun (n, after) => (.name n, after)
  | '[' :: rest =>
    match integer? (rest.dropWhile isSpace) with
    | some (i, after) =>
      match after.dropWhile isSpace with
      | ']' :: after => some (.index i, after)
      | _ => none
    | none => none
  | _ => none

/-- Steps up to the end of a text. -/
def steps? (t : Text) : Option (List Step) :=
  if t.isEmpty then some []
  else
    match step? t with
    | some (s, rest) =>
      if _h : rest.length < t.length then (steps? rest).map (s :: ·) else none
    | none => none
termination_by t.length

/-- The path that a text spells. -/
def parse? (t : Text) : Option Path :=
  match name? t with
  | some (head, rest) => (steps? rest).map (⟨head, ·⟩)
  | none => none

/-- Gives a value to what is reached from `root` by some steps. -/
def setFrom (v : Value) : List Step → Value → Value
  | [], _ => v
  | [.name n], root => root.put n v
  | [.index i], root => root.withIndex i fun _ => v
  | .name n :: rest, root => root.withName n fun old => setFrom v rest (old.getD .nothing)
  | .index i :: rest, root => root.withIndex i (setFrom v rest)

/-- Gives the setting that a path names a value. -/
def set (p : Path) (v : Value) (root : Value) : Value := setFrom v (.name p.head :: p.steps) root

/-- Gives values along several paths, one after another. -/
def setAll (layer : List (Path × Value)) (root : Value) : Value :=
  layer.foldl (fun root (p, v) => p.set v root) root

end Path

end Offside
