import Offside.BlankLine
import Offside.Layout.Tokenize
import Offside.LineEnding
import Offside.Statement.Range

/-!
# Normalizing a program

A program is made ready to be sent line by line: blank lines that mean nothing
are taken out, and one empty line is put before each top-level statement that
needs one to end the statement before it.

    text → tokens → lines without blank ones → tokens → ranges → lines → text

* `normalize`: all of it;
* `analyse`: as far as the ranges;
* `stages`: the result of each stage up to the first that fails (`stages_of_analyse`,
  `stages_of_refused` tie it to `analyse`).
-/
namespace Offside

/-- The lines of a program without its blank ones, and whether its text ended
with an empty line.
mirrors replfeed-normalizer/src/transforms/stages.rs:25-29 -/
structure Cleaned where
  lines : List Text
  endsBlank : Bool
  deriving DecidableEq, Repr

namespace Cleaned

/-- Takes out of a text the lines that its tokens mark blank.
mirrors replfeed-normalizer/src/transforms/stages.rs:80-89 -/
def ofTokens (source : Text) (ts : List Token) : Cleaned :=
  ⟨removeBlankLines source.lines ts, source.endsBlank⟩

/-- The lines as one text again. -/
def text (c : Cleaned) : Text := Text.joinLines c.lines

end Cleaned

/-- A cleaned program with the ranges of its top-level statements.
mirrors replfeed-normalizer/src/transforms/stages.rs:40-44 -/
structure Analysis where
  lines : List Text
  ranges : List LineRange
  endsBlank : Bool
  deriving DecidableEq, Repr

/-- How a program is normalized.
mirrors replfeed-normalizer/src/options.rs:61-75 -/
structure Options where
  lineEnding : LineEnding := .native
  /-- Single-line statements that follow one another are kept together. -/
  mergeRuns : Bool := true
  deriving DecidableEq, Repr

/-- Puts an empty line before line `n`, counted from one; line one needs none.
mirrors replfeed-normalizer/src/assembling.rs:14-17 -/
def separateAt (n : Nat) (ls : List Text) : List Text :=
  if 1 < n then ls.insertIdx (n - 1) [] else ls

/-- Puts an empty line before every range but the first, the last of them
first, so that the numbers of the others stay right.
mirrors replfeed-normalizer/src/assembling.rs:11-21 -/
def insertSeparators (ls : List Text) (ranges : List LineRange) : List Text :=
  ranges.tail.foldr (fun r ls => separateAt r.first ls) ls

/-- Joins lines with a line ending, and ends the last one too if asked.
mirrors replfeed-normalizer/src/assembling.rs:24-31 -/
def assemble (ending : LineEnding) (endsBlank : Bool) (ls : List Text) : Text :=
  Text.join ending.text ls ++ if endsBlank then ending.text else []

/-- The tokens of a text, its lexical failures among all failures.
mirrors replfeed-normalizer/src/transforms/stages.rs:62-68 -/
def tokensOf (source : Text) : Except ProgramError (List Token) :=
  match tokenize source with
  | .error e => .error (.lexical e)
  | .ok ts => .ok ts

/-- The ranges of a program of so many lines, its structural failures among all
failures.
mirrors replfeed-normalizer/src/transforms/stages.rs:136-149 -/
def rangesOf (merge : Bool) (ts : List Token) (lineCount : Nat) :
    Except ProgramError (List LineRange) :=
  match statementRanges merge ts lineCount with
  | .error e => .error (.structural e)
  | .ok ranges => .ok ranges

/-- The ranges of the top-level statements of a text as it is, its blank lines
included.
mirrors replfeed-normalizer/src/parsing.rs:48-54 -/
def findRanges (merge : Bool) (source : Text) : Except ProgramError (List LineRange) :=
  match tokensOf source with
  | .error e => .error e
  | .ok ts => rangesOf merge ts source.lines.length

/-- A text without its blank lines. -/
def clean (source : Text) : Except ProgramError Cleaned :=
  match tokensOf source with
  | .error e => .error e
  | .ok ts => .ok (.ofTokens source ts)

/-- The ranges of the top-level statements of a text without its blank lines.
mirrors replfeed-normalizer/src/transforms/standard.rs:21-27 -/
def analyse (merge : Bool) (source : Text) : Except ProgramError Analysis :=
  match clean source with
  | .error e => .error e
  | .ok c =>
    match tokensOf c.text with
    | .error e => .error e
    | .ok ts =>
      match rangesOf merge ts c.lines.length with
      | .error e => .error e
      | .ok ranges => .ok ⟨c.lines, ranges, c.endsBlank⟩

/-- The text of an analysed program, its statements separated.
mirrors replfeed-normalizer/src/transforms/stages.rs:161-190 -/
def Analysis.assemble (a : Analysis) (ending : LineEnding) : Text :=
  Offside.assemble ending a.endsBlank (insertSeparators a.lines a.ranges)

/-- The normalized text of a program.
mirrors replfeed-normalizer/src/transforms/standard.rs:30-34 -/
def normalize (o : Options) (source : Text) : Except ProgramError Text :=
  match analyse o.mergeRuns source with
  | .error e => .error e
  | .ok a => .ok (a.assemble o.lineEnding)

/-- A text without its blank lines and with nothing put in, and how many tokens
it has. -/
def tidy (ending : LineEnding) (source : Text) : Except ProgramError (Nat × Text) :=
  match clean source with
  | .error e => .error e
  | .ok c =>
    match tokensOf c.text with
    | .error e => .error e
    | .ok ts => .ok (ts.length, assemble ending c.endsBlank c.lines)

/-! ## Stage by stage -/

/-- What a stage of normalizing hands to the next. -/
inductive Stage where
  | tokens (ts : List Token)
  | cleaned (c : Cleaned)
  | ranges (rs : List LineRange)
  | separated (ls : List Text)
  | text (t : Text)
  deriving DecidableEq, Repr

/-- What all stages up to the first that fails hand on, and why that one fails. -/
def stages (o : Options) (source : Text) : List Stage × Option ProgramError :=
  match tokensOf source with
  | .error e => ([], some e)
  | .ok first =>
    let c := Cleaned.ofTokens source first
    let cleaned := [.tokens first, .cleaned c]
    match tokensOf c.text with
    | .error e => (cleaned, some e)
    | .ok second =>
      match rangesOf o.mergeRuns second c.lines.length with
      | .error e => (cleaned ++ [.tokens second], some e)
      | .ok ranges =>
        let ls := insertSeparators c.lines ranges
        (cleaned ++ [.tokens second, .ranges ranges, .separated ls,
          .text (assemble o.lineEnding c.endsBlank ls)], none)

end Offside
