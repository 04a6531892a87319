import Offside.Value

/-!
# TOML: tables as they are written

A table can be opened by a header of its own, come into being on the way to
another, or be spelled by dotted keys. How it came about decides what may still
be added to it, so that no table is defined twice.

* `modify?`: changes the table that a path leads to;
* `add?`: gives a key its value, once;
* `open?`, `append?`: what a header does.
-/
namespace Offside

namespace Toml

/-- How a table came into being: by a header, on the way to another table, or
by a dotted key. -/
inductive Origin where
  | header
  | passing
  | dotted
  deriving DecidableEq, Repr

/-- What a key stands for. -/
inductive Item where
  | value (v : Value)
  | table (origin : Origin) (entries : List (Text × Item))
  | tables (elements : List (List (Text × Item)))
  deriving Repr

abbrev Entries := List (Text × Item)

namespace Entries

def lookup? (name : Text) : Entries → Option Item
  | [] => none
  | (n, v) :: es => if n = name then some v else lookup? name es

def assign (name : Text) (v : Item) : Entries → Entries
  | [] => [(name, v)]
  | (n, w) :: es => if n = name then (n, v) :: es else (n, w) :: assign name v es

/-- Changes the table at the end of a path, and makes the tables on the way. A
dotted key may not pass through a table that has a header. -/
def modify? (dotted : Bool) (f : Origin → Entries → Option Entries) :
    List Text → Origin → Entries → Option Entries
  | [], origin, es => f origin es
  | name :: path, _, es =>
    match lookup? name es with
    | none =>
      let origin := if dotted then .dotted else .passing
      (modify? dotted f path origin []).map fun inner => assign name (.table origin inner) es
    | some (.value _) => none
    | some (.table origin inner) =>
      if dotted && origin == .header then none
      else
        (modify? dotted f path origin inner).map fun inner => assign name (.table origin inner) es
    | some (.tables elements) =>
      match elements.getLast? with
      | none => none
      | some last =>
        (modify? dotted f path .header last).map fun last =>
          assign name (.tables (elements.dropLast ++ [last])) es

/-- Gives a key its value. Dotted keys may only add to tables that dotted keys
made. -/
def add? (path : List Text) (name : Text) (v : Value) (es : Entries) : Option Entries :=
  modify? true
    (fun origin es =>
      if (origin == .dotted) == path.isEmpty then none
      else if (lookup? name es).isSome then none
      else some (es ++ [(name, .value v)]))
    path .header es

/-- All entries but that of one name. -/
def without (name : Text) (es : Entries) : Entries := es.filter fun e => e.1 != name

/-- Opens a table by a header: a new one, or one passed through before, which
is then the last in its table as a new one would be. -/
def open? (path : List Text) (name : Text) (es : Entries) : Option Entries :=
  modify? false
    (fun _ es =>
      match lookup? name es with
      | none => some (es ++ [(name, .table .header [])])
      | some (.table .passing inner) => some (without name es ++ [(name, .table .header inner)])
      | some _ => none)
    path .header es

/-- Appends an empty table to an array of tables. -/
def append? (path : List Text) (name : Text) (es : Entries) : Option Entries :=
  modify? false
    (fun _ es =>
      match lookup? name es with
      | none => some (es ++ [(name, .tables [[]])])
      | some (.tables elements) => some (assign name (.tables (elements ++ [[]])) es)
      | some _ => none)
    path .header es

end Entries

/-! ## As values -/

mutual

/-- What a key stands for, as a value. -/
def Item.toValue : Item → Value
  | .value v => v
  | .table _ es => .table (entriesToValues es)
  | .tables elements => .list (tablesToValues elements)

def entriesToValues : List (Text × Item) → List (Text × Value)
  | [] => []
  | (name, item) :: es => (name, item.toValue) :: entriesToValues es

def tablesToValues : List (List (Text × Item)) → List Value
  | [] => []
  | es :: rest => .table (entriesToValues es) :: tablesToValues rest

end

end Toml

end Offside
