import Offside.Text.Quoted
import Offside.Place

/-!
# Tokens

What is left of a program once its layout has been worked out: the lexemes of
its code and comments, and between them marks for the ends of lines and for the
opening and closing of indented blocks.
-/
namespace Offside

namespace Token

/-- What a token stands for. `newline` ends a logical line; `lineBreak` is any
other line end behind something that is not blank; `blankLine` is a whole line
of nothing.
mirrors replfeed-normalizer/src/token.rs:32-45 -/
inductive Kind where
  | newline
  | lineBreak
  | blankLine
  | indent
  | dedent
  | comment
  | code
  | endMarker
  deriving DecidableEq, Repr, Inhabited

/-- The name that output uses.
mirrors replfeed-normalizer/src/token.rs:48-59 -/
def Kind.name : Kind → String
  | .newline => "NEWLINE"
  | .lineBreak => "LINE_BREAK"
  | .blankLine => "BLANK_LINE"
  | .indent => "INDENT"
  | .dedent => "DEDENT"
  | .comment => "COMMENT"
  | .code => "OTHER"
  | .endMarker => "END_MARKER"

/-- The kinds that carry the structure of a program.
mirrors replfeed-normalizer/src/token.rs:62-67 -/
def Kind.isSignificant : Kind → Bool
  | .newline | .indent | .dedent | .code => true
  | .lineBreak | .blankLine | .comment | .endMarker => false

end Token

/-- A token: its kind, where it starts and ends, and its characters.
mirrors replfeed-normalizer/src/token.rs:77-82 -/
structure Token where
  kind : Token.Kind
  start : Position
  stop : Position
  text : Text
  deriving DecidableEq, Repr, Inhabited

namespace Token

/-- A token of no width. -/
def mark (kind : Kind) (p : Position) : Token := ⟨kind, p, p, []⟩

/-- Whether the token stands for exactly one blank line.
mirrors replfeed-normalizer/src/token.rs:95-97 -/
def isBlankLineMarker (t : Token) : Bool := t.kind == .blankLine && t.start.line == t.stop.line

/-- The token as a message names it.
mirrors replfeed-normalizer/src/token.rs:100-107 -/
def describe (t : Token) : String :=
  match t.kind with
  | .indent => "indent"
  | .dedent => "dedent"
  | .newline => "end of line"
  | _ => t.text.quoted

/-- The token on one line: kind, start, end and quoted text.
mirrors replfeed-normalizer/src/token.rs:111-113 -/
def display (t : Token) : String :=
  s!"{t.kind.name} {t.start.text} {t.stop.text} {t.text.quoted}"

/-- The tokens that carry the structure of a program.
mirrors replfeed-normalizer/src/parsing/grammar.rs:174-178 -/
def significant (ts : List Token) : List Token := ts.filter fun t => t.kind.isSignificant

end Token

end Offside
