import Offside.Settings.Basic
import Offside.Toml.Document

/-!
# The settings library that runs

A settings library to run the program with: sources are TOML documents, a builder keeps
its sources and overrides in lists, and files are told by what they hold.

* `Shape.read?`: reads data of a shape from a value;
* `Standard.library`: the library;
* `Settings.load`: the settings that a file and some overrides come to with it.
-/
namespace Offside

/-- Why there are no settings. -/
inductive SettingsError where
  /-- An override names no setting. -/
  | path (spelled : Text)
  /-- A file is missing. -/
  | missing
  /-- A source is no TOML document. -/
  | document
  /-- The value that counts for some setting does not fit it. -/
  | value
  deriving DecidableEq, Repr

def SettingsError.message : SettingsError → Text
  | .path spelled => "no such key: ".toList ++ spelled
  | .missing => "file not found".toList
  | .document => "no document".toList
  | .value => "invalid value".toList

namespace Shape

/-- How many fields stand side by side. -/
def size {α : Type} : Shape α → Nat
  | .field _ _ => 1
  | .both s s' => s.size + s'.size
  | _ => 0

/-- Data of a shape read from a value. Where a list stands for fields, `place` is the place
of the first one in it. -/
def read? {α : Type} (place : Nat) : Shape α → Value → Option α
  | .boolean, v => v.boolean?
  | .text, v => v.text?
  | .choice names, v => v.choice? fun t => names.lookup t
  | .field name s, v => (v.field? place name).bind (s.read? 0)
  | .both s s', v =>
    match s.read? place v, s'.read? (place + s.size) v with
    | some a, some b => some (a, b)
    | _, _ => none

end Shape

namespace Standard

/-! ## Files -/

/-- A path, read backwards, without what its end does not need: slashes, and
steps that stay where they are. -/
def trimSteps : Text → Text
  | '/' :: back => trimSteps back
  | '.' :: '/' :: back => trimSteps back
  | back => back

/-- The path with `.toml` behind the name of its last step, if that is a name. -/
def extended? (path : Text) : Option Text :=
  let back := trimSteps path.reverse
  let name := back.takeWhile (· != '/')
  if name = [] ∨ name = ['.'] ∨ name = ['.', '.'] then none
  else some (back.reverse ++ ".toml".toList)

/-- The names under which a file is looked for, in order: as it is given, and with an
ending. -/
def fileNames (path : Text) : List Text := path :: (extended? path).toList

/-! ## Builders -/

/-- Sources in order, and at most one override on each path. -/
structure Builder where
  sources : List Source
  overrides : List (Path × Value)
  nodup : (overrides.map (·.1)).Nodup

namespace Builder

def new : Builder := ⟨[], [], List.nodup_nil⟩

def add (s : Source) (b : Builder) : Builder := { b with sources := b.sources ++ [s] }

theorem nodup_filter_append {os : List (Path × Value)} (h : (os.map (·.1)).Nodup) (p : Path)
    (v : Value) :
    ((os.filter (·.1 ≠ p) ++ [(p, v)]).map (·.1)).Nodup := by
  rw [List.map_append, List.nodup_append]
  refine ⟨h.sublist (List.filter_sublist.map _), List.pairwise_singleton _ _, ?_⟩
  intro q hq r hr
  obtain ⟨o, ho, rfl⟩ := List.mem_map.1 hq
  obtain rfl := List.mem_singleton.1 hr
  exact of_decide_eq_true (List.mem_filter.1 ho).2

/-- With a value on a path, in the place of an earlier one. -/
def overrideAt (p : Path) (v : Value) (b : Builder) : Builder :=
  ⟨b.sources, b.overrides.filter (·.1 ≠ p) ++ [(p, v)], nodup_filter_append b.nodup p v⟩

end Builder

/-- The path that a name in a source stands for: the one it spells, or else the
name alone. -/
def pathOfName (name : Text) : Path := (Path.parse? name).getD ⟨name, []⟩

def key (spelled : Text) : Except SettingsError Path :=
  match Path.parse? spelled with
  | some p => .ok p
  | none => .error (.path spelled)

def document (t : Text) : Except SettingsError (List (Text × Value)) :=
  match Toml.parse? t with
  | some es => .ok es
  | none => .error .document

/-- The entries of a source, where `files` gives what a file holds. -/
def entries (files : Text → Option Text) : Source → Except SettingsError (List (Text × Value))
  | .text t => document t
  | .file path required =>
    match (fileNames path).findSome? files with
    | some t => document t
    | none => if required then .error .missing else .ok []

/-- Sources put over a value, one after another. -/
def layers (files : Text → Option Text) (root : Value) : List Source → Except SettingsError Value
  | [] => .ok root
  | s :: rest =>
    match entries files s with
    | .ok es => layers files (Path.setAll (es.map fun (name, v) => (pathOfName name, v)) root) rest
    | .error e => .error e

def read {α : Type} (s : Shape α) (v : Value) : Except SettingsError α :=
  match s.read? 0 v with
  | some a => .ok a
  | none => .error .value

/-- A settings library, where `files` gives what a file holds. -/
def library (files : Text → Option Text) : Library where
  Error := SettingsError
  message := SettingsError.message
  key := key
  name := pathOfName
  entries := entries files
  Builder := Builder
  new := .new
  add := .add
  override spelled v b := (key spelled).map fun p => b.overrideAt p v
  build b := (layers files (.table []) b.sources).map (Path.setAll b.overrides)
  sources b := layers files (.table []) b.sources
  overridden b p := b.overrides.lookup p
  merge := Value.putAll
  read := read

instance (files : Text → Option Text) : DecidableEq (library files).Error :=
  inferInstanceAs (DecidableEq SettingsError)

end Standard

/-- The settings that a file and some overrides come to. -/
def Settings.load (file : Option Text) (overrides : List (Text × Value)) :
    Except SettingsError Settings :=
  let start : Loader (Standard.library fun _ => file) := Loader.new
  match (start.add (.file "settings".toList false)).overrideAll overrides with
  | .ok l => l.build
  | .error e => .error e

end Offside
