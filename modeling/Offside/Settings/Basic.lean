import Offside.Normalize
import Offside.Settings.Library

/-!
# Settings

Settings come in three layers: what holds by default, a file, and overrides. Each layer is
put over the ones before it, so that the last value given to a setting is the one that
counts. Only that value has to make sense.

* `Settings.shape`: how the values of all settings are named and what they can be;
* `Loader`: takes in the layers, with a settings library, and reads the settings.
-/
namespace Offside

/-- What to do about a program that cannot be normalized.
mirrors replfeed-config/src/lib.rs:53-58 -/
inductive ErrorPolicy where
  | fail
  | passthrough
  deriving DecidableEq, Repr

namespace ErrorPolicy

def name : ErrorPolicy → Text
  | .fail => "fail".toList
  | .passthrough => "passthrough".toList

def all : List ErrorPolicy := [.fail, .passthrough]

/-- The policy of exactly this name. -/
def named? (t : Text) : Option ErrorPolicy := all.find? fun p => p.name == t

theorem named?_name (p : ErrorPolicy) : named? p.name = some p := by cases p <;> decide

end ErrorPolicy

/-- All settings.
mirrors replfeed-config/src/lib.rs:23-63 -/
structure Settings where
  lineEnding : LineEnding
  mergeRuns : Bool
  onError : ErrorPolicy
  /-- How much is logged. -/
  level : Text
  deriving DecidableEq, Repr

namespace Settings

/-- How a program is normalized by these settings.
mirrors replfeed-config/src/lib.rs:37-42 -/
def options (s : Settings) : Options := ⟨s.lineEnding, s.mergeRuns⟩

/-! ## Names -/

def normalizeName : Text := "normalize".toList
def lineEndingName : Text := "line_ending".toList
def mergeRunsName : Text := "merge_single_line_runs".toList
def outputName : Text := "output".toList
def onErrorName : Text := "on_error".toList
def loggingName : Text := "logging".toList
def levelName : Text := "level".toList

/-! ## Shapes -/

/-- A line ending by its name. -/
def lineEndingShape : Shape LineEnding := .choice (LineEnding.all.map fun e => (e.name, e))

/-- A policy by its name. -/
def onErrorShape : Shape ErrorPolicy := .choice (ErrorPolicy.all.map fun p => (p.name, p))

/-- The settings that say how a program is normalized. -/
def normalizeShape : Shape (LineEnding × Bool) :=
  .both (.field lineEndingName lineEndingShape) (.field mergeRunsName .boolean)

/-- All settings, in their groups. -/
def shape : Shape ((LineEnding × Bool) × ErrorPolicy × Text) :=
  .both (.field normalizeName normalizeShape)
    (.both (.field outputName (.field onErrorName onErrorShape))
      (.field loggingName (.field levelName .text)))

/-- Settings from what is read for their shape. -/
def ofFields : (LineEnding × Bool) × ErrorPolicy × Text → Settings
  | ((lineEnding, mergeRuns), onError, level) => ⟨lineEnding, mergeRuns, onError, level⟩

/-- What holds where nothing else is said.
mirrors replfeed-config/defaults/replfeed.default.toml, without its comments -/
def defaultText : Text :=
  "[normalize]
line_ending = \"native\"
merge_single_line_runs = true

[output]
on_error = \"fail\"

[logging]
level = \"warn\"
".toList

end Settings

/-- The library takes the shipped text as it reads: as tables of the groups, with their
entries in some order. -/
def Library.ReadsDefaults (L : Library) : Prop :=
  ∃ es ns, L.entries (.text Settings.defaultText) = .ok es ∧
    es.Perm [
      (Settings.normalizeName, .table ns),
      (Settings.outputName, .table [(Settings.onErrorName, .text ErrorPolicy.fail.name)]),
      (Settings.loggingName, .table [(Settings.levelName, .text "warn".toList)])] ∧
    ns.Perm [
      (Settings.lineEndingName, .text LineEnding.native.name),
      (Settings.mergeRunsName, .boolean true)]

/-- Takes in the layers of settings.
mirrors replfeed-config/src/lib.rs:67-69 -/
structure Loader (L : Library) where
  builder : L.Builder

namespace Loader

variable {L : Library}

/-- With one more source, such as a file.
mirrors replfeed-config/src/lib.rs:103-108 -/
def add (l : Loader L) (s : Source) : Loader L := ⟨L.add s l.builder⟩

/-- With nothing but what holds by default.
mirrors replfeed-config/src/lib.rs:73-76 -/
def new : Loader L := add ⟨L.new⟩ (.text Settings.defaultText)

/-- mirrors replfeed-config/src/lib.rs:89-96 -/
def override (l : Loader L) (key : Text) (v : Value) : Except L.Error (Loader L) :=
  match L.override key v l.builder with
  | .ok b => .ok ⟨b⟩
  | .error e => .error e

/-- Several overrides, one after another. -/
def overrideAll (l : Loader L) : List (Text × Value) → Except L.Error (Loader L)
  | [] => .ok l
  | (key, v) :: rest =>
    match l.override key v with
    | .ok l => l.overrideAll rest
    | .error e => .error e

/-- The settings that all layers come to.
mirrors replfeed-config/src/lib.rs:99-101 -/
def build (l : Loader L) : Except L.Error Settings :=
  match L.build l.builder with
  | .ok root => (L.read Settings.shape root).map Settings.ofFields
  | .error e => .error e

end Loader

end Offside
