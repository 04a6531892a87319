import Offside.Text.Basic

/-!
# Lexemes

The smallest pieces that a text is cut into before its layout is looked at.
Only three things about them matter: where string literals begin and end,
where comments are, and which characters open or close a bracket.
-/
namespace Offside

/-- How many quotation marks close a string literal.
mirrors replfeed-normalizer/src/lexing/base_tokenization.rs:23-26 -/
inductive QuoteStyle where
  | single
  | triple
  deriving DecidableEq, Repr

namespace Lexeme

/-- What a lexeme is. A continuation is a backslash together with the newline
behind it.
mirrors replfeed-normalizer/src/lexing/base_tokenization.rs:30-62 -/
inductive Kind where
  | newline
  | space
  | comment
  | continuation
  | opener
  | closer
  | literal (style : QuoteStyle)
  | word
  | punct
  deriving DecidableEq, Repr

/-- The kinds that belong to the program itself rather than to its layout. -/
def Kind.isCode : Kind → Bool
  | .opener | .closer | .literal _ | .word | .punct => true
  | .newline | .space | .comment | .continuation => false

/-- Why a text cannot be cut further.
mirrors replfeed-normalizer/src/lexing/base_tokenization.rs:15-20 -/
inductive Fault where
  | unexpectedCharacter
  | unterminated (style : QuoteStyle)
  deriving DecidableEq, Repr

end Lexeme

/-- A lexeme with the characters it is made of. -/
structure Lexeme where
  kind : Lexeme.Kind
  text : Text
  deriving DecidableEq, Repr

namespace Lexeme

/-- What is skipped between lexemes: blank, tab, form feed, and a carriage
return that no newline follows. -/
def isSpace (c : Char) : Bool := c == ' ' || c == '\t' || c == '\x0c' || c == '\r'

/-- What a comment may hold: anything up to the end of the line. -/
def isCommentChar (c : Char) : Bool := c != '\r' && c != '\n'

def isOpener (c : Char) : Bool := c == '(' || c == '[' || c == '\x7b'

def isCloser (c : Char) : Bool := c == ')' || c == ']' || c == '\x7d'

/-- Letters, digits, the underscore, and everything outside ASCII. -/
def isWordChar (c : Char) : Bool := c.isAlphanum || c == '_' || 0x80 ≤ c.toNat

def punctuation : Text :=
  ['!', '$', '%', '&', '*', '+', ',', '-', '.', '/', ':', ';', '<', '=', '>', '?', '@', '^', '|',
    '~', '\x60']

def isPunct (c : Char) : Bool := punctuation.contains c

/-- The bracket that closes `c`.
mirrors replfeed-normalizer/src/lexing/indentation.rs:78-84 -/
def closerOf (c : Char) : Char :=
  if c = '(' then ')' else if c = '[' then ']' else '\x7d'

end Lexeme

end Offside
