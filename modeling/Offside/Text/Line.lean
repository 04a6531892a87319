import Offside.Text.Blank

/-!
# Lines

A text is cut into lines after each newline. A line that a newline ends loses
that newline and one carriage return before it; a last line that none ends is
kept as it is, and is a line only if it holds something.

* `lines`: the lines, without what ends them;
* `join`: lines put back together with a separator;
* `endsBlank`: whether a text ends with an empty last line.
-/
namespace Offside

namespace Text

/-- Takes one carriage return off the end of a line that is held backwards. -/
def dropReturn : Text → Text
  | '\r' :: line => line
  | line => line

/-- The lines of a text, where `line` holds, nearest first, what has been read
of the current one. -/
def linesFrom (line : Text) : Text → List Text
  | [] => if line.isEmpty then [] else [line.reverse]
  | c :: rest =>
    if c = '\n' then (dropReturn line).reverse :: linesFrom [] rest
    else linesFrom (c :: line) rest

/-- The lines of a text.
mirrors replfeed-normalizer/src/lines.rs:6-8 -/
def lines (t : Text) : List Text := linesFrom [] t

/-- Lines put back together, `separator` between them. -/
def join (separator : Text) (ls : List Text) : Text := separator.intercalate ls

/-- Lines joined by newlines, with none after the last.
mirrors replfeed-normalizer/src/lines.rs:23-25 -/
def joinLines (ls : List Text) : Text := join ['\n'] ls

/-- The last line is empty to a reader: a newline ends the text, or white space
alone follows the last one.
mirrors replfeed-normalizer/src/lines.rs:14-20 -/
def endsBlank (t : Text) : Bool :=
  t.getLast? == some '\n' || (lines t).getLast?.any isBlank

end Text

end Offside
