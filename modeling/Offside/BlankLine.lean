import Offside.Ascending
import Offside.Token

/-!
# Blank lines

Which lines are blank is decided by the token stream alone, so that a blank
line inside a string literal is none.
-/
namespace Offside

/-- The lines that are marked blank, ascending, each once.
mirrors replfeed-normalizer/src/blank_lines.rs:11-20 -/
def blankLineNumbers (ts : List Token) : List Nat :=
  ascending ((ts.filter (·.isBlankLineMarker)).map (·.start.line))

/-- Removes line `n`, counted from one, if there is one.
mirrors replfeed-normalizer/src/blank_lines.rs:30-32 -/
def removeLine (n : Nat) (ls : List Text) : List Text :=
  if 1 ≤ n then ls.eraseIdx (n - 1) else ls

/-- Removes the lines that are marked blank, the last of them first, so that
the numbers of the others stay right.
mirrors replfeed-normalizer/src/blank_lines.rs:25-41 -/
def removeBlankLines (ls : List Text) (ts : List Token) : List Text :=
  (blankLineNumbers ts).foldr removeLine ls

/-- Lines are taken out, and nothing else is done. -/
theorem removeBlankLines_sublist (ls : List Text) (ts : List Token) :
    List.Sublist (removeBlankLines ls ts) ls := by
  unfold removeBlankLines
  induction blankLineNumbers ts with
  | nil => exact List.Sublist.refl ls
  | cons n ns ih =>
    rw [List.foldr_cons, removeLine]
    split
    · exact (List.eraseIdx_sublist _ _).trans ih
    · exact ih

end Offside
