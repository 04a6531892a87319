import Offside.Settings.Path

/-!
# The settings library

Settings are read with a library that is not part of this program. `Library` is what is
asked of it, and `Library.Laws` what it documents:

* keys and names lead through tables, and are told apart without regard to case;
* the sources of a builder are put over one another in the order in which they were added,
  tables key by key;
* an override stands until the same path is overridden again, wins over all sources, and
  says nothing about other settings;
* data of a shape is read field by field.

Tables keep no order of their own. The entries of a document come in some order, which may
be any, and nothing is promised about overrides whose paths differ only in case.
-/
namespace Offside

/-- How data is made up: of scalars, and of fields with names. -/
inductive Shape : Type → Type 1 where
  | boolean : Shape Bool
  | text : Shape Text
  /-- One of several names, each of which stands for something. -/
  | choice {α : Type} (names : List (Text × α)) : Shape α
  | field {α : Type} (name : Text) (shape : Shape α) : Shape α
  /-- The fields of two shapes side by side. -/
  | both {α β : Type} (first : Shape α) (second : Shape β) : Shape (α × β)

/-- Where settings come from: a text in the program, or a file that may have to be there. -/
inductive Source where
  | text (t : Text)
  | file (path : Text) (required : Bool)
  deriving DecidableEq, Repr

/-- What is asked of a settings library. -/
structure Library where
  Error : Type
  /-- What is said of an error. -/
  message : Error → Text
  /-- Where the key of an override leads. -/
  key : Text → Except Error Path
  /-- Where an outermost name in a source leads. -/
  name : Text → Path
  /-- The entries of a source, in the order in which they are taken in. -/
  entries : Source → Except Error (List (Text × Value))
  Builder : Type
  new : Builder
  add : Source → Builder → Builder
  override : Text → Value → Builder → Except Error Builder
  build : Builder → Except Error Value
  /-- What the sources of a builder come to, without its overrides. -/
  sources : Builder → Except Error Value
  /-- The overrides that a builder holds. -/
  overridden : Builder → Path → Option Value
  /-- The entries of a table put over a value. -/
  merge : Value → List (Text × Value) → Value
  read : {α : Type} → Shape α → Value → Except Error α

namespace Value

variable (merge : Value → List (Text × Value) → Value)

/-- A value put over an old one: a table is merged into it, any other value takes its place. -/
def overlay (old : Value) : Value → Value
  | .table es => merge old es
  | v => v

/-- Values put over an old one, if there is one, one after another. -/
def settle (old : Option Value) (vs : List Value) : Option Value :=
  vs.foldl (fun old v => some (overlay merge (old.getD (.table [])) v)) old

theorem overlay_of_not_table {v : Value} (h : v.isTable = false) (old : Value) :
    overlay merge old v = v := by
  cases v with
  | table es => cases h
  | _ => rfl

theorem settle_append (old : Option Value) (vs ws : List Value) :
    settle merge old (vs ++ ws) = settle merge (settle merge old vs) ws := List.foldl_append

theorem settle_some (old : Value) (vs : List Value) :
    settle merge (some old) vs = some (vs.foldl (overlay merge) old) := by
  induction vs generalizing old with
  | nil => rfl
  | cons v vs ih => exact ih (overlay merge old v)

end Value

namespace Path

/-- What is said of a group is said of it as a table. -/
def Fits (group : Text) (a : Path × Value) : Prop :=
  Value.foldCase a.1.head = group → (a.1.headValue? a.2).any Value.isTable = true

instance (group : Text) (a : Path × Value) : Decidable (Fits group a) :=
  inferInstanceAs (Decidable (_ → _))

/-- The values that are given to a name of a group, in order. -/
def valuesFor (group name : Text) (a : Path × Value) : List Value :=
  if Value.foldCase a.1.head = group then
    ((a.1.headValue? a.2).map fun w => Value.given name w.entries).getD []
  else []

end Path

namespace Library

open Value

/-- Entries of a source, each with the path that its name leads along. -/
def layer (L : Library) (entries : List (Text × Value)) : List (Path × Value) :=
  entries.map fun (name, v) => (L.name name, v)

/-- What the library documents about keys and names. -/
structure NameLaws (L : Library) : Prop where
  /-- Two plain names with a point between them lead to the second one in the first. -/
  key_pair : ∀ {a b : Text}, Path.Plain a → Path.Plain b →
    ∃ p, L.key (a ++ '.' :: b) = .ok p ∧ p.Leads (foldCase a) (foldCase b)
  /-- A plain name leads to itself. -/
  name_plain : ∀ {a : Text}, Path.Plain a →
    (L.name a).steps = [] ∧ foldCase (L.name a).head = foldCase a

/-- What it documents about sources. -/
structure SourceLaws (L : Library) : Prop where
  sources_new : L.sources L.new = .ok (.table [])
  /-- A source is put over the earlier ones key by key, where it makes tables of groups. -/
  sources_add : ∀ {s : Source} {b : L.Builder} {root : Value} {es : List (Text × Value)},
    L.sources b = .ok root → L.entries s = .ok es →
    ∃ root', L.sources (L.add s b) = .ok root' ∧
      ∀ group, (∀ a ∈ L.layer es, Path.Fits group a) → ∀ name,
        at? group name root' =
          settle L.merge (at? group name root) ((L.layer es).flatMap (Path.valuesFor group name))
  /-- An empty table says nothing. -/
  merge_nil : ∀ v, L.merge v [] = v

/-- The overrides of a builder all lead to names in groups. -/
def Paired (L : Library) (b : L.Builder) : Prop :=
  ∀ p v, L.overridden b p = some v → ∃ group name, p.Leads group name

/-- What it documents about overrides. -/
structure OverrideLaws (L : Library) : Prop where
  overridden_new : ∀ p, L.overridden L.new p = none
  overridden_add : ∀ s b p, L.overridden (L.add s b) p = L.overridden b p
  /-- An override takes the place of an earlier one on the same path. -/
  override_ok : ∀ {k : Text} {p : Path}, L.key k = .ok p → ∀ v b,
    ∃ b', L.override k v b = .ok b' ∧ L.sources b' = L.sources b ∧
      ∀ q, L.overridden b' q = if q = p then some v else L.overridden b q
  build_isOk : ∀ {b : L.Builder}, (∃ t, L.build b = .ok t) ↔ ∃ root, L.sources b = .ok root
  build_isTable : ∀ {b : L.Builder} {t : Value}, L.build b = .ok t → t.isTable = true
  /-- An override is put over the sources, if no other path leads to the same name. -/
  build_override : ∀ {b : L.Builder} {root t : Value}, L.sources b = .ok root → L.build b = .ok t →
    L.Paired b → ∀ {p : Path} {group name : Text} {v : Value}, p.Leads group name →
    L.overridden b p = some v →
    (∀ q w, L.overridden b q = some w → q.Leads group name → q = p) →
    at? group name t = settle L.merge (at? group name root) [v]
  /-- Other names keep what the sources give them. -/
  build_rest : ∀ {b : L.Builder} {root t : Value}, L.sources b = .ok root → L.build b = .ok t →
    L.Paired b → ∀ {group name : Text},
    (∀ q w, L.overridden b q = some w → ¬q.Leads group name) →
    at? group name t = at? group name root
  /-- So do groups in which nothing is overridden. -/
  build_group : ∀ {b : L.Builder} {root t : Value}, L.sources b = .ok root → L.build b = .ok t →
    ∀ {group : Text}, (∀ q w, L.overridden b q = some w → foldCase q.head ≠ group) →
    lookup? group t.entries = lookup? group root.entries

/-- What it documents about reading data. -/
structure ReadLaws (L : Library) : Prop where
  read_boolean : ∀ b, L.read .boolean (.boolean b) = .ok b
  read_choice : ∀ {α : Type} {names : List (Text × α)} {n : Text} {a : α},
    (∀ m ∈ names, foldCase m.1 = m.1) → names.lookup n = some a →
    L.read (.choice names) (.text n) = .ok a
  /-- In a table, a field is the value of its name. -/
  read_field : ∀ {α : Type} {name : Text} {s : Shape α} {v : Value} {a : α}, v.isTable = true →
    (L.read (.field name s) v = .ok a ↔ ∃ w, lookup? name v.entries = some w ∧ L.read s w = .ok a)
  /-- In a table, fields do not get in each other's way. -/
  read_both : ∀ {α β : Type} {s : Shape α} {s' : Shape β} {v : Value} {a : α} {b : β},
    v.isTable = true →
    (L.read (.both s s') v = .ok (a, b) ↔ L.read s v = .ok a ∧ L.read s' v = .ok b)

/-- All that the library documents. -/
structure Laws (L : Library) : Prop extends L.NameLaws, L.SourceLaws, L.OverrideLaws, L.ReadLaws

end Library

end Offside
