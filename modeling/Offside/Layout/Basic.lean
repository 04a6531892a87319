import Offside.Error
import Offside.Lexeme.Scan
import Offside.Layout.Depth

/-!
# Layout

A machine that reads lexemes in order and works out what the layout of a
program means. It knows the open indentation levels, the open brackets, what
the current line and the current logical line hold so far, and whether a
backslash waits for the rest of its line.

* White space is passed over; a line's indentation is what stands before its
  first code.
* Only the first code of a logical line is measured: a deeper line opens a
  level and gives one `indent`, a shallower one closes levels and gives one
  `dedent` for each. Blank lines, comments, and lines inside brackets or behind
  a backslash are never measured.
* The end of a line gives a `blankLine` if it held nothing, a `newline` if it
  ends a logical line, and else a `lineBreak`.
* At the end of the text the last line is closed, then every level.

`step` is the machine's move on one lexeme. A move that fails still says which
state it leaves behind, so that reading can go on after a failure.
-/
namespace Offside

/-- A lexeme where it stands. `lead` is the character of the source at its
start, or NUL at the end of the source. -/
structure Piece where
  kind : Lexeme.Kind
  start : Place
  text : Text
  lead : Char
  deriving DecidableEq, Repr

namespace Piece

/-- The place behind the piece. -/
def stop (p : Piece) : Place := p.start.advance p.text

/-- The piece as a token.
mirrors replfeed-normalizer/src/lexing/indentation.rs:214-220 -/
def token (p : Piece) (kind : Token.Kind) : Token :=
  ⟨kind, p.start.position, p.stop.position, p.text⟩

/-- The character of a text at its start, or NUL if there is none.
mirrors replfeed-normalizer/src/lexing/indentation.rs:206-208 -/
def leadOf (t : Text) : Char := t.headD '\x00'

/-- Lexemes that follow one another, the first at `p`. -/
def placed (p : Place) : List Lexeme → List Piece
  | [] => []
  | l :: ls => ⟨l.kind, p, l.text, leadOf l.text⟩ :: placed (p.advance l.text) ls

/-- The piece between two byte offsets of a source. -/
def ofSpan (source : Text) (kind : Lexeme.Kind) (start stop : Nat) : Piece :=
  ⟨kind, .ofOffset source start, source.slice start stop, leadOf (source.dropBytes start)⟩

end Piece

/-- An open bracket and where it stands. -/
structure Bracket where
  opener : Char
  place : Position
  deriving DecidableEq, Repr

/-- The state of the machine.
mirrors replfeed-normalizer/src/lexing/indentation.rs:88-100 -/
structure Layout where
  /-- The open levels, innermost first; below them is always depth zero. -/
  levels : List Depth
  /-- The open brackets, innermost first. -/
  brackets : List Bracket
  /-- The current line holds something that is not blank. -/
  lineHeld : Bool
  /-- The current logical line holds code. -/
  codeSeen : Bool
  /-- The line of a backslash behind which nothing has come yet. -/
  joined? : Option Nat
  deriving DecidableEq, Repr

namespace Layout

/-- Before the first lexeme.
mirrors replfeed-normalizer/src/lexing/indentation.rs:103-114 -/
def start : Layout := ⟨[], [], false, false, none⟩

/-- The innermost level of a stack of levels.
mirrors replfeed-normalizer/src/lexing/indentation.rs:210-212 -/
def innermost (levels : List Depth) : Depth := levels.headD .zero

/-- What a move comes to: the tokens it gives, the state it leaves, and what
went wrong, if anything did. -/
structure Step where
  emitted : List Token
  next : Layout
  fault? : Option LexError
  deriving DecidableEq, Repr

namespace Step

/-- A move that goes well and gives these tokens. -/
def emit (s : Layout) (ts : List Token) : Step := ⟨ts, s, none⟩

/-- A move that gives nothing and fails. -/
def fail (s : Layout) (e : LexError) : Step := ⟨[], s, some e⟩

/-- One move after another; the second is not made if the first fails. -/
def andThen (a : Step) (f : Layout → Step) : Step :=
  match a.fault? with
  | some _ => a
  | none =>
    let b := f a.next
    ⟨a.emitted ++ b.emitted, b.next, b.fault?⟩

end Step

/-- The levels that stay open at a depth that leaves the deeper ones.
mirrors replfeed-normalizer/src/lexing/indentation.rs:259-263 -/
def leave (levels : List Depth) (d : Depth) : List Depth :=
  levels.dropWhile fun level => d.column < level.column

/-- One `dedent` for each level that is left. -/
def dedents (levels : List Depth) (d : Depth) (p : Position) : List Token :=
  (levels.takeWhile fun level => d.column < level.column).map fun _ => .mark .dedent p

/-- Brings the levels in line with the depth of a logical line whose first code
stands at `p`.
mirrors replfeed-normalizer/src/lexing/indentation.rs:232-274 -/
def indentTo (r : Ruler) (s : Layout) (p : Place) : Step :=
  let d := r.measure p.behind
  let top := innermost s.levels
  if d.column = top.column then
    if d.check = top.check then .emit s [] else .fail s (.mixedIndentation p.line)
  else if top.column < d.column then
    if top.check < d.check then
      .emit { s with levels := d :: s.levels } [⟨.indent, p.lineStart, p.position, p.margin⟩]
    else .fail s (.mixedIndentation p.line)
  else
    let rest := leave s.levels d
    let closing := dedents s.levels d p.position
    let left := { s with levels := rest }
    if d.column ≠ (innermost rest).column then ⟨closing, left, some (.inconsistentDedent p.line)⟩
    else if d.check ≠ (innermost rest).check then
      ⟨closing, left, some (.mixedIndentation p.line)⟩
    else .emit left closing

/-- The line holds code now. -/
def markCode (s : Layout) : Layout :=
  { s with lineHeld := true, codeSeen := true, joined? := none }

/-- Code begins at `p`: the first code of a logical line is measured.
mirrors replfeed-normalizer/src/lexing/indentation.rs:222-230 -/
def beginCode (r : Ruler) (s : Layout) (p : Place) : Step :=
  if s.codeSeen then .emit s.markCode []
  else (indentTo r s p).andThen fun s => .emit s.markCode []

/-- Closes the innermost bracket, which must be of the same shape.
mirrors replfeed-normalizer/src/lexing/indentation.rs:276-289 -/
def closeBracket (s : Layout) (p : Piece) : Step :=
  let left := { s with brackets := s.brackets.tail }
  match s.brackets.head? with
  | some b =>
    if Lexeme.closerOf b.opener = p.lead then .emit left [p.token .code]
    else .fail left (.unmatchedBracket p.start.position p.lead)
  | none => .fail left (.unmatchedBracket p.start.position p.lead)

/-- The end of a line as a token; its column counts the bytes that end it. -/
def lineEnd (p : Piece) (kind : Token.Kind) : Token :=
  let start := p.start.position
  ⟨kind, start, ⟨start.line, start.column + p.text.byteSize⟩, p.text⟩

/-- The line before `p` as a blank line. -/
def blankLine (p : Place) : Token := ⟨.blankLine, p.lineStart, p.position, p.margin⟩

/-- A newline ends the current line.
mirrors replfeed-normalizer/src/lexing/indentation.rs:291-320 -/
def endLine (s : Layout) (p : Piece) : Step :=
  if s.lineHeld then
    if s.brackets.isEmpty && s.codeSeen then
      .emit { s with lineHeld := false, codeSeen := false } [lineEnd p .newline]
    else .emit { s with lineHeld := false } [lineEnd p .lineBreak]
  else
    match s.joined? with
    | some line => .fail s (.unfinished line)
    | none => .emit s [blankLine p.start]

/-- The machine's move on one lexeme.
mirrors replfeed-normalizer/src/lexing/indentation.rs:116-147 -/
def step (r : Ruler) (s : Layout) (p : Piece) : Step :=
  match p.kind with
  | .space => .emit s []
  | .newline => endLine s p
  | .continuation => .emit { s with lineHeld := false, joined? := some p.start.line } []
  | .comment => .emit { s with lineHeld := true, joined? := none } [p.token .comment]
  | .opener =>
    (beginCode r s p.start).andThen fun s =>
      .emit { s with brackets := ⟨p.lead, p.start.position⟩ :: s.brackets } [p.token .code]
  | .closer => (beginCode r s p.start).andThen fun s => closeBracket s p
  | .literal _ | .word | .punct =>
    (beginCode r s p.start).andThen fun s => .emit s [p.token .code]

/-- What closes the last line of a text that ends at `p`.
mirrors replfeed-normalizer/src/lexing/indentation.rs:161-177 -/
def closeLine (s : Layout) (p : Place) : List Token :=
  if s.lineHeld then [.mark (if s.codeSeen then .newline else .lineBreak) p.position]
  else if p.behind.isEmpty then []
  else [blankLine p]

/-- The end of a text, at `p`: closes the last line and every level. Brackets
and a backslash must not wait for more.
mirrors replfeed-normalizer/src/lexing/indentation.rs:149-188 -/
def finish (s : Layout) (p : Place) : Except LexError (List Token) :=
  match s.brackets.getLast?, s.joined? with
  | some outermost, _ => .error (.unfinished outermost.place.line)
  | none, some line => .error (.unfinished line)
  | none, none =>
    .ok (closeLine s p ++ s.levels.map (fun _ => .mark .dedent p.pastEnd) ++
      [.mark .endMarker p.pastEnd])

/-- All moves on a list of lexemes, up to the first that fails. -/
def run (r : Ruler) (s : Layout) : List Piece → Except LexError (List Token × Layout)
  | [] => .ok ([], s)
  | p :: ps =>
    let a := step r s p
    match a.fault? with
    | some e => .error e
    | none =>
      match run r a.next ps with
      | .error e => .error e
      | .ok (ts, last) => .ok (a.emitted ++ ts, last)

end Layout

end Offside
