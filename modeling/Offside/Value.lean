import Offside.Number.Shortest

/-!
# Values

What a setting can be given as: a scalar, a list, or a table from names to
values. Names in a table differ by more than the case of ASCII letters.

* `put`: gives a name a value. A table is merged into the table that has the
  name already, any other value takes the place of the old one;
* `field?`: a part of a value that has named parts in a fixed order;
* `boolean?`, `text?`, `choice?`: reading a scalar from all that can stand for
  it.
-/
namespace Offside

/-- A value. -/
inductive Value where
  | nothing
  | boolean (b : Bool)
  | integer (i : Int)
  | double (d : Double)
  | text (t : Text)
  | list (vs : List Value)
  | table (entries : List (Text × Value))
  deriving Repr

namespace Value

/-- Names are told apart without regard to the case of ASCII letters. -/
def foldCase (name : Text) : Text := name.map Char.toLower

/-! ## Tables -/

/-- The entries of a table; any other value has none. -/
def entries : Value → List (Text × Value)
  | .table es => es
  | _ => []

/-- Whether a value is a table. -/
def isTable : Value → Bool
  | .table _ => true
  | _ => false

/-- The value that entries give a name. -/
def lookup? (name : Text) : List (Text × Value) → Option Value
  | [] => none
  | (n, v) :: es => if n = name then some v else lookup? name es

/-- The value of a name in a table of a table. -/
def at? (group name : Text) (root : Value) : Option Value :=
  (lookup? group root.entries).bind fun table => lookup? name table.entries

/-- The values that entries give to a name, in order; the name is given in small letters. -/
def given (name : Text) (es : List (Text × Value)) : List Value :=
  (es.filter fun e => foldCase e.1 = name).map (·.2)

/-- Entries in which `name` has the value `v`. -/
def assign (name : Text) (v : Value) : List (Text × Value) → List (Text × Value)
  | [] => [(name, v)]
  | (n, w) :: es => if n = name then (n, v) :: es else (n, w) :: assign name v es

theorem lookup?_assign (name other : Text) (v : Value) (es : List (Text × Value)) :
    lookup? other (assign name v es) = if other = name then some v else lookup? other es := by
  induction es with
  | nil => simp [assign, lookup?, eq_comm]
  | cons e es ih =>
    obtain ⟨n, w⟩ := e
    by_cases h : n = name
    · subst h
      by_cases h' : n = other
      · simp [assign, lookup?, h']
      · simp [assign, lookup?, h', Ne.symm h']
    · by_cases h' : n = other
      · subst h'; simp [assign, lookup?, h]
      · simp [assign, lookup?, h, h', ih]

/-- Does `f` to what has a name in a table; what is no table becomes one. -/
def withName (name : Text) (f : Option Value → Value) (root : Value) : Value :=
  let name := foldCase name
  .table (assign name (f (lookup? name root.entries)) root.entries)

mutual

/-- Gives `name` a value in the table `root`. -/
def put (name : Text) (root : Value) : Value → Value
  | .table es => withName name (fun old => putAll (old.getD (.table [])) es) root
  | v => withName name (fun _ => v) root

/-- Gives all names of some entries their values in the table `root`. -/
def putAll (root : Value) : List (Text × Value) → Value
  | [] => root
  | (name, v) :: es => putAll (put name root v) es

end

/-! ## Lists -/

/-- The elements of a list; any other value has none. -/
def elements : Value → List Value
  | .list vs => vs
  | _ => []

/-- The place that an index means in a list of `n`: from the end if it is
negative. -/
def place? (index : Int) (n : Nat) : Option Nat :=
  match index with
  | .ofNat k => some k
  | .negSucc k => if k < n then some (n - (k + 1)) else none

/-- Does `f` to one element of a list; what is no list becomes one, and a list
that is too short is filled up. -/
def withIndex (index : Int) (f : Value → Value) (root : Value) : Value :=
  let vs := root.elements
  match place? index vs.length with
  | some k =>
    let vs := vs ++ List.replicate (k + 1 - vs.length) .nothing
    .list (vs.modify k f)
  | none => .list vs

/-! ## Reading values -/

/-- The part called `name` of a table, or the part in place `index` of a list. -/
def field? (index : Nat) (name : Text) : Value → Option Value
  | .table es => lookup? name es
  | .list vs => vs[index]?
  | _ => none

def trueWords : List Text := [['1'], "true".toList, "on".toList, "yes".toList]

def falseWords : List Text := [['0'], "false".toList, "off".toList, "no".toList]

/-- Yes or no: a boolean, a number that is zero or not, or a word for either. -/
def boolean? : Value → Option Bool
  | .boolean b => some b
  | .integer i => some (i != 0)
  | .double d => some (!d.isZero)
  | .text t =>
    let word := foldCase t
    if trueWords.contains word then some true
    else if falseWords.contains word then some false
    else none
  | _ => none

/-- A text, or any other scalar written out. -/
def text? : Value → Option Text
  | .boolean b => some (if b then "true".toList else "false".toList)
  | .integer i => some (toString i).toList
  | .double d => some d.text
  | .text t => some t
  | _ => none

/-- One of several choices, by its name or as the only name of a table. -/
def choice? {α : Type} (named? : Text → Option α) : Value → Option α
  | .text t => named? (foldCase t)
  | .table [(name, _)] => named? (foldCase name)
  | _ => none

end Value

end Offside
