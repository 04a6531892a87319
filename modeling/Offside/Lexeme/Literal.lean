import Offside.Lexeme.Basic

/-!
# String literals

A literal is up to two prefix letters, one or three quotation marks, and a body
that runs to the first closing marks no backslash escapes. A backslash escapes
the character behind it, or a carriage return and newline together; prefix
letters change nothing about that.

* `opening?`: the prefix and the opening marks;
* `closing?`: the body with its closing marks.
-/
namespace Offside

namespace Lexeme

/-- The marks that open and close a literal. -/
structure Delimiter where
  mark : Char
  style : QuoteStyle
  deriving DecidableEq, Repr

/-- The marks themselves. -/
def Delimiter.text (d : Delimiter) : Text :=
  match d.style with
  | .single => [d.mark]
  | .triple => [d.mark, d.mark, d.mark]

def isMark (c : Char) : Bool := c == '\'' || c == '"'

/-- The letters that may stand before a literal. -/
def isPrefixLetter (c : Char) : Bool :=
  c == 'r' || c == 'R' || c == 'b' || c == 'B' || c == 'u' || c == 'U' || c == 'f' || c == 'F'

/-- The opening marks at the front of a text and what follows them: three if
there are three, else one. -/
def delimiter? : Text → Option (Delimiter × Text)
  | a :: b :: c :: rest =>
    if isMark a then
      if b = a ∧ c = a then some (⟨a, .triple⟩, rest) else some (⟨a, .single⟩, b :: c :: rest)
    else none
  | a :: rest => if isMark a then some (⟨a, .single⟩, rest) else none
  | [] => none

/-- The start of a literal with at most `n` prefix letters: the letters, the
marks and what follows. -/
def openingWithin (n : Nat) (t : Text) : Option (Text × Delimiter × Text) :=
  match delimiter? t with
  | some (d, rest) => some ([], d, rest)
  | none =>
    match n, t with
    | n + 1, c :: rest =>
      if isPrefixLetter c then
        (openingWithin n rest).map fun (letters, found) => (c :: letters, found)
      else none
    | _, _ => none

/-- The start of a literal at the front of a text.
mirrors replfeed-normalizer/src/lexing/base_tokenization.rs:51-54 -/
def opening? (t : Text) : Option (Text × Delimiter × Text) := openingWithin 2 t

/-- The body of a literal up to and with its closing marks, and what follows;
nothing if the text ends before them, or the line does when one mark closes.
mirrors replfeed-normalizer/src/lexing/base_tokenization.rs:68-106 -/
def closing? (d : Delimiter) : Text → Option (Text × Text)
  | [] => none
  | '\\' :: '\r' :: '\n' :: rest =>
    (closing? d rest).map fun (body, after) => ('\\' :: '\r' :: '\n' :: body, after)
  | '\\' :: c :: rest => (closing? d rest).map fun (body, after) => ('\\' :: c :: body, after)
  | c :: rest =>
    if c = d.mark ∧ d.text.isPrefixOf (c :: rest) then
      some (d.text, (c :: rest).drop d.text.length)
    else if c = '\n' ∧ d.style = .single then none
    else (closing? d rest).map fun (body, after) => (c :: body, after)

end Lexeme

end Offside
