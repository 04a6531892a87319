import Offside.Ascending
import Offside.Statement.Outline

/-!
# The lines of top-level statements

A range runs from the line on which a statement starts to the line before the
next one does, so that comments behind a statement belong to it. The last range
ends with the program. Statements of one line that follow one another can be
taken together as one range.
-/
namespace Offside

/-- A closed range of lines, and whether it counts as a single line.
mirrors replfeed-normalizer/src/parsing/ranges.rs:14-18 -/
structure LineRange where
  first : Nat
  last : Nat
  isSingle : Bool
  deriving DecidableEq, Repr

namespace LineRange

/-- The range between two lines; it is a single line if they are the same.
mirrors replfeed-normalizer/src/parsing/ranges.rs:21-27 -/
def between (first last : Nat) : LineRange := ⟨first, last, first == last⟩

/-- The lines on which statements start, ascending, each once.
mirrors replfeed-normalizer/src/parsing/ranges.rs:31-36 -/
def startLines (nodes : List Node) : List Nat := ascending (nodes.map (·.start.line))

/-- One range for each start: to the line before the next start, or to
`lastLine`, and never to a line before its own start.
mirrors replfeed-normalizer/src/parsing/ranges.rs:39-51 -/
def ofStarts (lastLine : Nat) : List Nat → List LineRange
  | [] => []
  | [s] => [between s (max lastLine s)]
  | s :: next :: rest => between s (max (next - 1) s) :: ofStarts lastLine (next :: rest)

/-- Goes on merging behind the range `current`, which takes more single lines
in while `inRun` holds.
mirrors replfeed-normalizer/src/parsing/ranges.rs:60-68 -/
def mergeInto (current : LineRange) (inRun : Bool) : List LineRange → List LineRange
  | [] => [current]
  | r :: rest =>
    if inRun && r.isSingle then mergeInto (between current.first r.last) true rest
    else current :: mergeInto r r.isSingle rest

/-- Takes single lines that follow one another together.
mirrors replfeed-normalizer/src/parsing/ranges.rs:56-71 -/
def mergeRuns : List LineRange → List LineRange
  | [] => []
  | r :: rest => mergeInto r r.isSingle rest

end LineRange

/-- The ranges of the top-level statements of a program with this many lines.
mirrors replfeed-normalizer/src/parsing.rs:24-39 -/
def statementRanges (merge : Bool) (ts : List Token) (lineCount : Nat) :
    Except StructureError (List LineRange) :=
  match outline ts with
  | .error e => .error e
  | .ok nodes =>
    let ranges := LineRange.ofStarts lineCount (LineRange.startLines nodes)
    .ok (if merge then LineRange.mergeRuns ranges else ranges)

end Offside
