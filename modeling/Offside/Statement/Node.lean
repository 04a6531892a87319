import Offside.Token

/-!
# Statements

A statement as far as its lines are concerned: where it starts, the last line
it reaches, and the statements nested in it.
-/
namespace Offside

/-- A statement. `start` is where its first line starts, a decorator if it has
one; `endLine` is the last line of its blocks and clauses; `body` is what its
blocks hold, those of its clauses included.
mirrors replfeed-normalizer/src/parsing/grammar.rs:34-41 -/
structure Node where
  start : Position
  endLine : Nat
  body : List Node
  deriving Repr

namespace Node

/-- Whether the statement stays on one line.
mirrors replfeed-normalizer/src/parsing/grammar.rs:85-87 -/
def isSingleLine (n : Node) : Bool := n.start.line == n.endLine

end Node

end Offside
