import Offside.Text.Basic

/-!
# How deep a line is indented

The depth of a line depends on how wide a tab is. Every line is measured by two
rules, and a program is accepted only while both agree which of two lines is
the deeper one.
-/
namespace Offside

/-- The width of the same indentation under two rules.
mirrors replfeed-normalizer/src/lexing/indentation.rs:43-46 -/
structure Depth where
  column : Nat
  check : Nat
  deriving DecidableEq, Repr

namespace Depth

/-- The depth of a line that is not indented.
mirrors replfeed-normalizer/src/lexing/indentation.rs:49-52 -/
def zero : Depth := ⟨0, 0⟩

/-- Deeper under both rules. -/
def Under (outer inner : Depth) : Prop := outer.column < inner.column ∧ outer.check < inner.check

end Depth

/-- Two rules for tabs: each says which column follows a tab at a column. -/
structure Ruler where
  column : Nat → Nat
  check : Nat → Nat

namespace Ruler

/-- A tab runs to the next multiple of eight.
mirrors replfeed-normalizer/src/lexing/indentation.rs:60 -/
def toTabStop (column : Nat) : Nat := (column / 8 + 1) * 8

/-- The width of what stands before a line's code, nearest character first: a
form feed starts again from nothing, and all else but a tab is one wide.
mirrors replfeed-normalizer/src/lexing/indentation.rs:54-75 -/
def width (tab : Nat → Nat) : Text → Nat
  | [] => 0
  | c :: before =>
    if c = '\t' then tab (width tab before)
    else if c = '\x0c' then 0
    else width tab before + 1

/-- The depth of a line by both rules. -/
def measure (r : Ruler) (behind : Text) : Depth := ⟨width r.column behind, width r.check behind⟩

/-- Tab stops every eight columns, checked against tabs that are one wide. -/
def standard : Ruler := ⟨toTabStop, (· + 1)⟩

/-- The same two rules with their parts exchanged. -/
def swap (r : Ruler) : Ruler := ⟨r.check, r.column⟩

end Ruler

end Offside
