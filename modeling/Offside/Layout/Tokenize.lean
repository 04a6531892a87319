import Offside.Layout.Basic

/-!
# The tokens of a text

Lexemes are cut off the text and handed to the layout machine one after
another; whichever fails first decides the error.

* `tokenize`: the token stream of a text;
* `Reading`: the same machine, fed one lexeme at a time with any pieces of a
  source in any order.
-/
namespace Offside

/-- A lexical failure before the text `rest`, at a place, as an error.
mirrors replfeed-normalizer/src/lexing/indentation.rs:191-204 -/
def Lexeme.Fault.error (cause : Lexeme.Fault) (p : Position) (rest : Text) : LexError :=
  match cause with
  | .unexpectedCharacter => .unexpectedCharacter p (Piece.leadOf rest)
  | .unterminated .single => .unterminatedString p
  | .unterminated .triple => .unterminatedTripleString p

/-- A lexical failure at a byte offset of a source. -/
def Lexeme.Fault.errorAt (cause : Lexeme.Fault) (source : Text) (offset : Nat) : LexError :=
  cause.error (.ofOffset source offset) (source.dropBytes offset)

/-- The token stream of a text, its indentation measured by `r`. -/
def tokenizeWith (r : Ruler) (source : Text) : Except LexError (List Token) :=
  let cut := Lexeme.scan source
  match Layout.run r .start (Piece.placed .start cut.lexemes) with
  | .error e => .error e
  | .ok (ts, last) =>
    match cut.stop? with
    | some stop =>
      let p := Place.start.advance (Lexeme.textOf cut.lexemes)
      .error (stop.cause.error p.position stop.rest)
    | none =>
      match last.finish (Place.start.advance source) with
      | .error e => .error e
      | .ok closing => .ok (ts ++ closing)

/-- The token stream of a text.
mirrors replfeed-normalizer/src/lexing.rs:39-54 -/
def tokenize (source : Text) : Except LexError (List Token) := tokenizeWith .standard source

/-- The layout machine with the tokens it has given so far.
mirrors replfeed-normalizer/src/lexing/indentation.rs:88-100 -/
structure Reading where
  tokens : List Token
  layout : Layout
  deriving DecidableEq, Repr

namespace Reading

/-- Before the first lexeme. -/
def start : Reading := ⟨[], .start⟩

/-- Reads one lexeme, and says what went wrong with it if anything did. What a
failing lexeme gave and changed before it failed stays.
mirrors replfeed-normalizer/src/lexing/indentation.rs:116-147 -/
def push (a : Reading) (p : Piece) : Reading × Option LexError :=
  let s := a.layout.step .standard p
  (⟨a.tokens ++ s.emitted, s.next⟩, s.fault?)

/-- The whole stream, if `source` ends here.
mirrors replfeed-normalizer/src/lexing/indentation.rs:149-188 -/
def finish (a : Reading) (source : Text) : Except LexError (List Token) :=
  match a.layout.finish (Place.start.advance source) with
  | .error e => .error e
  | .ok closing => .ok (a.tokens ++ closing)

end Reading

end Offside
