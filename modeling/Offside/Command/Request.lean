import Offside.Command.Json
import Offside.Settings.Basic
import Offside.Text.Number

/-!
# Requests

What the command answers, as a function of its arguments and of its input: an exit code,
what is written, and the line that reports why there is no more. Zero is success, one a
program or an input that is refused, two a misuse or settings that cannot be read.

    normalize [CODE] [--line-ending ENDING] [--no-merge] [--on-error POLICY]
    tokens [CODE] [--format FORMAT]
    statements [CODE] [--format FORMAT] [--no-merge]

What the arguments mean, what the settings are and how JSON is written is left to libraries
that are not part of this program. `Toolkit` puts them together, and `Toolkit.Laws` says what
they document.

* `Command.apply`: what a command does with a program under some settings;
* `Request.answer`: the answer to a request;
* `Toolkit.run`: the answer to all arguments.
-/
namespace Offside

/-- How a list is written. -/
inductive Format where
  | simple
  | json
  deriving DecidableEq, Repr

namespace Format

def name : Format → Text
  | .simple => "simple".toList
  | .json => "json".toList

def named? (t : Text) : Option Format := [Format.simple, .json].find? fun f => f.name == t

end Format

/-- A command with its options. -/
inductive Command where
  | normalize (lineEnding? : Option LineEnding) (noMerge : Bool) (onError? : Option ErrorPolicy)
  | tokens (format : Format)
  | statements (format : Format) (noMerge : Bool)
  deriving DecidableEq, Repr

/-- All that a command needs to know. -/
structure Request where
  config? : Option Text
  code? : Option Text
  command : Command
  deriving DecidableEq, Repr

/-! ## Outcomes -/

/-- What comes out. `report?` is the line on the error output that says what is wrong. -/
structure Outcome where
  exit : Nat
  output : Text
  report? : Option Text
  deriving DecidableEq, Repr

namespace Outcome

def success (output : Text) : Outcome := ⟨0, output, none⟩

def refused (reason : Text) : Outcome := ⟨1, [], some ("Error: ".toList ++ reason)⟩

/-- The input is not in UTF-8. -/
def unreadable : Outcome :=
  ⟨1, [], some "Error reading input: stream did not contain valid UTF-8".toList⟩

/-- What should be written cannot be put into its form. -/
def unwritable (reason : Text) : Outcome :=
  ⟨1, [], some ("Error formatting output: ".toList ++ reason)⟩

/-- There are no settings. -/
def unconfigured (reason : Text) : Outcome :=
  ⟨2, [], some ("Configuration error: ".toList ++ reason)⟩

/-- The report, if it is one of an error in a program or in the input. -/
def error? (o : Outcome) : Option Text := o.report?.filter fun t => "Error".toList.isPrefixOf t

end Outcome

/-- What the arguments ask for, or the outcome of a misuse or of asking about the command
itself. -/
inductive Invocation where
  | ended (o : Outcome)
  | request (r : Request)
  deriving DecidableEq, Repr

/-! ## Libraries -/

/-- What the command is put together with. -/
structure Toolkit where
  /-- What all arguments ask for. -/
  parse : List Text → Invocation
  settings : Library
  /-- A value written as JSON, or why it cannot be written. -/
  pretty : Json → Except Text Text

/-- What the libraries document. -/
structure Toolkit.Laws (T : Toolkit) : Prop where
  settings : T.settings.Laws
  /-- The shipped text of settings is taken as it reads. -/
  defaults : T.settings.ReadsDefaults
  /-- A plain value can be written, with its numbers in decimal digits and in their order. -/
  pretty_plain : ∀ {v : Json}, v.Plain → ∃ t, T.pretty v = .ok t ∧ t.numbers = v.numbers

namespace Command

/-- What a command gives on the command line for settings, in order.
mirrors replfeed-cli/src/main.rs:127-135 -/
def overrides : Command → List (Text × Value)
  | .normalize lineEnding? noMerge onError? =>
    (lineEnding?.toList.map fun e => ("normalize.line_ending".toList, .text e.name)) ++
      (onError?.toList.map fun p => ("output.on_error".toList, .text p.name)) ++
      merging noMerge
  | .tokens _ => []
  | .statements _ noMerge => merging noMerge
where
  merging (noMerge : Bool) : List (Text × Value) :=
    if noMerge then [("normalize.merge_single_line_runs".toList, .boolean false)] else []

/-- A token in the simple form: blank lines and ends of blocks alone show.
mirrors replfeed-cli/src/main.rs:207-211 -/
def markLine? (t : Token) : Option Text :=
  match t.kind with
  | .blankLine => some s!"NL,{t.start.line}\n".toList
  | .dedent => some s!"DEDENT,{t.start.line}\n".toList
  | _ => none

/-- A range in the simple form.
mirrors replfeed-cli/src/main.rs:235 -/
def rangeLine (r : LineRange) : Text := s!"{r.first},{r.last}\n".toList

section

variable (T : Toolkit)

/-- A list as it is written: by lines of its elements, or as JSON on lines of its own.
mirrors replfeed-cli/src/main.rs:241-249 -/
def format (f : Format) (lines : Text) (json : List Json) : Except Text Text :=
  match f with
  | .simple => .ok lines
  | .json => (T.pretty (.list json)).map (· ++ ['\n'])

/-- mirrors replfeed-cli/src/main.rs:203-213 -/
def formatTokens (f : Format) (ts : List Token) : Except Text Text :=
  format T f (ts.filterMap markLine?).flatten (ts.map (·.json))

/-- mirrors replfeed-cli/src/main.rs:230-237 -/
def formatRanges (f : Format) (rs : List LineRange) : Except Text Text :=
  format T f (rs.flatMap rangeLine) (rs.map (·.json))

/-- The outcome of writing something. -/
def written : Except Text Text → Outcome
  | .ok t => .success t
  | .error e => .unwritable e

/-- What a command does with a program under some settings.
mirrors replfeed-cli/src/main.rs:180-239 -/
def apply (c : Command) (s : Settings) (source : Text) : Outcome :=
  match c with
  | .normalize .. =>
    match Offside.normalize s.options source with
    | .ok t => .success t
    | .error e =>
      match s.onError with
      | .passthrough => .success source
      | .fail => .refused e.message.toList
  | .tokens f =>
    match tokenize source with
    | .ok ts => written (formatTokens T f ts)
    | .error e => .refused e.message.toList
  | .statements f _ =>
    match analyse s.mergeRuns source with
    | .ok a => written (formatRanges T f a.ranges)
    | .error e => .refused e.message.toList

end

end Command

namespace Request

/-- The settings file that is looked for when none is named.
mirrors replfeed-cli/src/main.rs:20 -/
def localFile : Text := "replfeed.toml".toList

/-- The settings file, which has to be there if it is named. -/
def configFile (r : Request) : Source := .file (r.config?.getD localFile) r.config?.isSome

/-- What holds by default with the settings file over it. -/
def loader (r : Request) (L : Library) : Loader L := Loader.new.add r.configFile

/-- The settings for a request.
mirrors replfeed-cli/src/main.rs:121-138 -/
def settings (r : Request) (L : Library) : Except L.Error Settings :=
  match (r.loader L).overrideAll r.command.overrides with
  | .ok l => l.build
  | .error e => .error e

/-- The code among the arguments; a dash stands for the input.
mirrors replfeed-cli/src/main.rs:157-158 -/
def givenCode? (r : Request) : Option Text := r.code?.filter (· != ['-'])

/-- The program, where `input` is the input if it is text; it counts only when no code is
given.
mirrors replfeed-cli/src/main.rs:156-165 -/
def source? (r : Request) (input : Option Text) : Option Text := r.givenCode?.or input

/-- The answer to a request.
mirrors replfeed-cli/src/main.rs:97-117 -/
def answer (r : Request) (T : Toolkit) (input : Option Text) : Outcome :=
  match r.settings T.settings with
  | .error e => .unconfigured (T.settings.message e)
  | .ok s =>
    match r.source? input with
    | none => .unreadable
    | some source => r.command.apply T s source

end Request

/-- The answer to all arguments.
mirrors replfeed-cli/src/main.rs:90-118 -/
def Toolkit.run (T : Toolkit) (input : Option Text) (args : List Text) : Outcome :=
  match T.parse args with
  | .ended o => o
  | .request r => r.answer T input

end Offside
