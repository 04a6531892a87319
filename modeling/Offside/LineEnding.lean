import Offside.Text.Basic

/-!
# Line endings

What is written behind each line of output.
-/
namespace Offside

/-- A choice of line ending. The native one is a newline.
mirrors replfeed-normalizer/src/options.rs:10-16 -/
inductive LineEnding where
  | native
  | lf
  | crlf
  deriving DecidableEq, Repr, Inhabited

namespace LineEnding

/-- The characters that end a line.
mirrors replfeed-normalizer/src/options.rs:19-31 -/
def text : LineEnding → Text
  | .native | .lf => ['\n']
  | .crlf => ['\r', '\n']

/-- mirrors replfeed-normalizer/src/options.rs:35-42 -/
def name : LineEnding → Text
  | .native => "native".toList
  | .lf => "lf".toList
  | .crlf => "crlf".toList

def all : List LineEnding := [.native, .lf, .crlf]

/-- The line ending of exactly this name. -/
def named? (t : Text) : Option LineEnding := all.find? fun e => e.name == t

theorem named?_name (e : LineEnding) : named? e.name = some e := by cases e <;> decide

/-- The line ending of this name in any case of ASCII letters, or why there is
none.
mirrors replfeed-normalizer/src/options.rs:48-57 -/
def parse (t : Text) : Except String LineEnding :=
  let folded := t.map Char.toLower
  match named? folded with
  | some e => .ok e
  | none =>
    .error s!"unknown line ending '{String.ofList folded}' (expected native, lf or crlf)"

end LineEnding

end Offside
