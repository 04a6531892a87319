import Offside.Error
import Offside.Statement.Node

/-!
# The outline of a program

Statements are found in a token stream by a small grammar, of which only lines
and blocks matter. Tokens that carry no structure are passed over.

    program   := statement*
    statement := decorator* block clause*
    block     := line suite?            (the line is no decorator and no clause)
    clause    := line suite?            (the line starts with a clause word)
    suite     := INDENT statement+ DEDENT
    line      := OTHER+ NEWLINE

Two more rules hold for what was read: a line that has a suite ends with a
colon, and clauses follow only a statement whose first word takes them.

The reader takes one token at a time. It holds the statements finished so far
at every level, the statement at each level that may still grow, and the line
being read. `outline` is the statements of a stream. A program that breaks one
of the two rules is refused for the first breach found at the outermost level;
if there is none, for the first token that cannot come where it stands.
-/
namespace Offside

/-- The part a line plays in a statement, told by its first word. -/
inductive Role where
  | decorator
  | header
  | clause
  deriving DecidableEq, Repr

namespace Role

/-- The words that go on with the statement above them.
mirrors replfeed-normalizer/src/parsing/grammar.rs:27 -/
def clauseWords : List Text :=
  ["elif".toList, "else".toList, "except".toList, "finally".toList]

/-- The words that start a statement which clauses may follow.
mirrors replfeed-normalizer/src/parsing/grammar.rs:30 -/
def ownerWords : List Text :=
  ["if".toList, "for".toList, "while".toList, "try".toList, "async".toList]

/-- The part of a line that starts with `word`.
mirrors replfeed-normalizer/src/parsing/grammar.rs:90-100 -/
def ofWord (word : Text) : Role :=
  if word = ['@'] then .decorator else if clauseWords.contains word then .clause else .header

end Role

/-- A line being read: its part, its first token, and the text of its last.
mirrors replfeed-normalizer/src/parsing/grammar.rs:44-50 -/
structure OpenLine where
  role : Role
  head : Token
  last : Text
  deriving DecidableEq, Repr

/-- Whether a suite may follow the line.
mirrors replfeed-normalizer/src/parsing/grammar.rs:115 -/
def OpenLine.opensBlock (l : OpenLine) : Bool := l.last == [':']

/-- A statement that may still grow by a suite or a clause. -/
structure Draft where
  start : Position
  /-- Clauses may follow its header. -/
  takesClauses : Bool
  endLine : Nat
  body : List Node
  faults : List StructureError
  /-- The first token of its first clause. -/
  clause? : Option Token
  /-- Whether the line just read opens a block; nothing behind a suite. -/
  afterLine? : Option Bool
  deriving Repr

namespace Draft

/-- A statement whose header has just been read.
mirrors replfeed-normalizer/src/parsing/grammar.rs:53-66 -/
def ofHeader (start : Position) (l : OpenLine) (endLine : Nat) : Draft :=
  ⟨start, Role.ownerWords.contains l.head.text, endLine, [], [], none, some l.opensBlock⟩

/-- A clause has just been read.
mirrors replfeed-normalizer/src/parsing/grammar.rs:69 -/
def addClause (d : Draft) (l : OpenLine) (endLine : Nat) : Draft :=
  { d with
    endLine := max d.endLine endLine
    clause? := d.clause?.or (some l.head)
    afterLine? := some l.opensBlock }

/-- A suite, which `indent` opened, has just been read.
mirrors replfeed-normalizer/src/parsing/grammar.rs:70-75, 135-142 -/
def addSuite (d : Draft) (indent : Token) (nodes : List Node) (faults : List StructureError) :
    Draft :=
  { d with
    endLine := max d.endLine ((nodes.getLast?.map (·.endLine)).getD 0)
    body := d.body ++ nodes
    faults := d.faults ++ faults ++
      (if d.afterLine? = some true then [] else [⟨indent.start, .indent⟩])
    afterLine? := none }

/-- The statement, if nothing more belongs to it.
mirrors replfeed-normalizer/src/parsing/grammar.rs:78-82 -/
def node (d : Draft) : Node := ⟨d.start, d.endLine, d.body⟩

/-- The breaches in the statement: those of its suites come first.
mirrors replfeed-normalizer/src/parsing/grammar.rs:149-158 -/
def breaches (d : Draft) : List StructureError :=
  match d.clause? with
  | some head => if d.takesClauses then d.faults else d.faults ++ [⟨head.start, .code head.text⟩]
  | none => d.faults

end Draft

/-- What follows the finished statements of a level. -/
inductive Pending where
  | nothing
  /-- Decorators, the first of which starts here, wait for their statement. -/
  | decorated (start : Position)
  | statement (d : Draft)
  deriving Repr

/-- One level of nesting: its finished statements and their breaches, and what
is still pending. -/
structure Level where
  nodes : List Node
  faults : List StructureError
  pending : Pending
  deriving Repr

namespace Level

def empty : Level := ⟨[], [], .nothing⟩

/-- Finishes a statement that may still grow. -/
def settle (l : Level) : Level :=
  match l.pending with
  | .statement d => ⟨l.nodes ++ [d.node], l.faults ++ d.breaches, .nothing⟩
  | _ => l

/-- Where the statement begins whose header begins at `head`.
mirrors replfeed-normalizer/src/parsing/grammar.rs:62-64 -/
def startFor (l : Level) (head : Position) : Position :=
  match l.pending with
  | .decorated start => start
  | _ => head

/-- A line has been read to its end.
mirrors replfeed-normalizer/src/parsing/grammar.rs:107-123 -/
def addLine (l : Level) (line : OpenLine) (endLine : Nat) : Level :=
  match line.role, l.pending with
  | .decorator, _ => { l with pending := .decorated (l.startFor line.head.start) }
  | .header, _ =>
    { l with pending := .statement (.ofHeader (l.startFor line.head.start) line endLine) }
  | .clause, .statement d => { l with pending := .statement (d.addClause line endLine) }
  | .clause, _ => l

/-- All breaches found on the level. -/
def breaches (l : Level) : List StructureError := l.settle.faults

end Level

/-- The state of the reader. -/
structure Outliner where
  line? : Option OpenLine
  level : Level
  /-- The levels around the current one, innermost first, each with the token
  that opened the suite in it. -/
  around : List (Level × Token)
  deriving Repr

namespace Outliner

/-- Before the first token. -/
def start : Outliner := ⟨none, .empty, []⟩

/-- A line begins with `t`. A clause needs a statement to go on with; any other
line ends the statement before it.
mirrors replfeed-normalizer/src/parsing/grammar.rs:145-148 -/
def beginLine (o : Outliner) (t : Token) : Option Outliner :=
  let line : OpenLine := ⟨.ofWord t.text, t, t.text⟩
  match line.role, o.level.pending with
  | .clause, .statement _ => some { o with line? := some line }
  | .clause, _ => none
  | _, _ => some { o with line? := some line, level := o.level.settle }

/-- A suite begins, which only a line that was just read can have.
mirrors replfeed-normalizer/src/parsing/grammar.rs:127-128, 134 -/
def openSuite (o : Outliner) (t : Token) : Option Outliner :=
  match o.level.pending with
  | .statement d =>
    if d.afterLine?.isSome then some ⟨none, .empty, (o.level, t) :: o.around⟩ else none
  | _ => none

/-- A suite ends, which must hold a statement and no decorators without one.
mirrors replfeed-normalizer/src/parsing/grammar.rs:129-130 -/
def closeSuite (o : Outliner) : Option Outliner :=
  match o.level.pending, o.around with
  | .statement _, (outer, indent) :: around =>
    match outer.pending with
    | .statement d =>
      let inner := o.level.settle
      let grown := d.addSuite indent inner.nodes inner.faults
      some ⟨none, { outer with pending := .statement grown }, around⟩
    | _ => none
  | _, _ => none

/-- Reads one significant token, if it can come here. -/
def step (o : Outliner) (t : Token) : Option Outliner :=
  match o.line? with
  | some line =>
    match t.kind with
    | .code => some { o with line? := some { line with last := t.text } }
    | .newline => some { o with line? := none, level := o.level.addLine line t.start.line }
    | _ => none
  | none =>
    match t.kind with
    | .code => o.beginLine t
    | .indent => o.openSuite t
    | .dedent => o.closeSuite
    | _ => none

/-- Reads tokens up to the first that cannot come where it stands, and says
which are left from there on. -/
def run (o : Outliner) : List Token → Outliner × List Token
  | [] => (o, [])
  | t :: ts =>
    match o.step t with
    | some next => run next ts
    | none => (o, t :: ts)

/-- The statements of a program that ends here, if one can.
mirrors replfeed-normalizer/src/parsing/grammar.rs:164-166 -/
def nodes? (o : Outliner) : Option (List Node) :=
  match o.line?, o.around, o.level.pending with
  | none, [], .decorated _ => none
  | none, [], _ => some o.level.settle.nodes
  | _, _, _ => none

/-- The breaches that count: those of the outermost level. What is still open
within it does not count yet. -/
def breaches (o : Outliner) : List StructureError :=
  match o.around.getLast? with
  | some (outermost, _) => outermost.breaches
  | none => o.level.breaches

end Outliner

/-- Where a token stream ends for messages: at its last token.
mirrors replfeed-normalizer/src/parsing/grammar.rs:179-181 -/
def endOfTokens (ts : List Token) : Position :=
  match ts.getLast? with
  | some t => t.start
  | none => ⟨1, 0⟩

/-- The statements of a token stream.
mirrors replfeed-normalizer/src/parsing/grammar.rs:173-193 -/
def outline (ts : List Token) : Except StructureError (List Node) :=
  let (last, rest) := Outliner.start.run (Token.significant ts)
  match last.breaches, rest, last.nodes? with
  | e :: _, _, _ => .error e
  | [], t :: _, _ => .error ⟨t.start, .ofToken t⟩
  | [], [], none => .error ⟨endOfTokens ts, .inputEnd⟩
  | [], [], some nodes => .ok nodes

end Offside
