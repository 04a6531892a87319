import Offside.Token

/-!
# What can be wrong with a program

A program is refused either while it is cut into tokens, for a lexical reason,
or while its statements are put together, for a structural one. Each cause says
where it arose; `message` puts it into words.
-/
namespace Offside

/-- Why a text has no token stream.
mirrors replfeed-normalizer/src/error.rs:7-36 -/
inductive LexError where
  | unterminatedString (start : Position)
  | unterminatedTripleString (start : Position)
  | inconsistentDedent (line : Nat)
  | mixedIndentation (line : Nat)
  /-- The text ended inside brackets that opened, or behind a backslash that
  stands, on this line. -/
  | unfinished (line : Nat)
  | unmatchedBracket (place : Position) (found : Char)
  | unexpectedCharacter (place : Position) (found : Char)
  deriving DecidableEq, Repr

/-- What stands where no statement can go on.
mirrors replfeed-normalizer/src/parsing/grammar.rs:195-207 -/
inductive Unexpected where
  | indent
  | dedent
  | lineEnd
  | code (text : Text)
  | inputEnd
  deriving DecidableEq, Repr

/-- Why a token stream is not a list of statements.
mirrors replfeed-normalizer/src/error.rs:41-45 -/
structure StructureError where
  place : Position
  found : Unexpected
  deriving DecidableEq, Repr

/-- Why a program is refused.
mirrors replfeed-normalizer/src/error.rs:49-55 -/
inductive ProgramError where
  | lexical (e : LexError)
  | structural (e : StructureError)
  deriving DecidableEq, Repr

namespace LexError

def message : LexError → String
  | .unterminatedString p =>
    s!"unterminated string literal at line {p.line}, column {p.column}"
  | .unterminatedTripleString p =>
    s!"unterminated triple-quoted string literal starting at line {p.line}, column {p.column}"
  | .inconsistentDedent line =>
    s!"unindent does not match any outer indentation level at line {line}"
  | .mixedIndentation line =>
    s!"inconsistent use of tabs and spaces in indentation at line {line}"
  | .unfinished line =>
    s!"unexpected end of input in a multi-line statement starting at line {line}"
  | .unmatchedBracket p found =>
    s!"unmatched {Text.quotedChar found} at line {p.line}, column {p.column}"
  | .unexpectedCharacter p found =>
    s!"unexpected character {Text.quotedChar found} at line {p.line}, column {p.column}"

end LexError

namespace Unexpected

/-- What a significant token is when it stands where it cannot.
mirrors replfeed-normalizer/src/parsing/grammar.rs:199-202 -/
def ofToken (t : Token) : Unexpected :=
  match t.kind with
  | .indent => .indent
  | .dedent => .dedent
  | .newline => .lineEnd
  | _ => .code t.text

def message : Unexpected → String
  | .indent => "unexpected indent"
  | .dedent => "unexpected dedent"
  | .lineEnd => "unexpected end of line"
  | .code text => s!"unexpected {text.quoted}"
  | .inputEnd => "unexpected end of input"

end Unexpected

def StructureError.message (e : StructureError) : String :=
  s!"{e.found.message} at line {e.place.line}, column {e.place.column}"

def ProgramError.message : ProgramError → String
  | .lexical e => s!"lexical error: {e.message}"
  | .structural e => s!"structural error: {e.message}"

end Offside
