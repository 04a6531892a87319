import Offside.Text.Line

/-!
# Positions and places

A position is what a reader is shown: a line counted from one and a column
counted in bytes from zero. A place is what reading a text keeps track of: the
number of the line, and what stands on that line before the place.

* `Position.ofOffset`: the position of a byte offset;
* `Place.advance`: the place behind a text that was read;
* `Place.position`: the position of a place.
-/
namespace Offside

/-- A line, counted from one, and a byte column in it, counted from zero.
mirrors replfeed-normalizer/src/token.rs:8-11 -/
structure Position where
  line : Nat
  column : Nat
  deriving DecidableEq, Repr, Inhabited

namespace Position

/-- Both numbers in parentheses.
mirrors replfeed-normalizer/src/token.rs:20-22 -/
def text (p : Position) : String := s!"({p.line}, {p.column})"

/-- Earlier or equal in reading order. -/
def Before (p q : Position) : Prop := p.line < q.line ∨ p.line = q.line ∧ p.column ≤ q.column

instance (p q : Position) : Decidable (p.Before q) :=
  inferInstanceAs (Decidable (_ ∨ _))

/-- The position `n` bytes behind `p`, where `t` is the text behind `p`. An
offset past the end counts on in the last line. -/
def forward (p : Position) : Text → Nat → Position
  | [], n => ⟨p.line, p.column + n⟩
  | c :: rest, n =>
    if n < c.utf8Size then ⟨p.line, p.column + n⟩
    else if c = '\n' then forward ⟨p.line + 1, 0⟩ rest (n - c.utf8Size)
    else forward ⟨p.line, p.column + c.utf8Size⟩ rest (n - c.utf8Size)

/-- The position of a byte offset in a text.
mirrors replfeed-normalizer/src/lexing/location.rs:12-31 -/
def ofOffset (t : Text) (offset : Nat) : Position := forward ⟨1, 0⟩ t offset

end Position

/-- A place in a text: the number of its line, and the characters of that line
before it, nearest first. -/
structure Place where
  line : Nat
  behind : Text
  deriving DecidableEq, Repr, Inhabited

namespace Place

/-- The place before the first character of a text. -/
def start : Place := ⟨1, []⟩

/-- The place behind one more character. -/
def step (p : Place) (c : Char) : Place :=
  if c = '\n' then ⟨p.line + 1, []⟩ else ⟨p.line, c :: p.behind⟩

/-- The place behind a text that starts at `p`. -/
def advance (p : Place) (t : Text) : Place := t.foldl step p

@[simp] theorem advance_nil (p : Place) : p.advance [] = p := rfl

@[simp] theorem advance_cons (p : Place) (c : Char) (t : Text) :
    p.advance (c :: t) = (p.step c).advance t := rfl

theorem advance_append (p : Place) (s t : Text) : p.advance (s ++ t) = (p.advance s).advance t :=
  List.foldl_append

/-- Reading goes down one line with each newline. -/
theorem line_advance (p : Place) (t : Text) : (p.advance t).line = p.line + t.count '\n' := by
  induction t generalizing p with
  | nil => rfl
  | cons c t ih =>
    rw [advance_cons, ih, step]
    by_cases hc : c = '\n'
    · rw [if_pos hc, hc, List.count_cons_self]
      show p.line + 1 + _ = _
      omega
    · rw [if_neg hc, List.count_cons_of_ne hc]

/-- The line and the bytes before the place on it. -/
def position (p : Place) : Position := ⟨p.line, p.behind.byteSize⟩

/-- Where the line of the place begins. -/
def lineStart (p : Place) : Position := ⟨p.line, 0⟩

/-- What stands before the place on its line. -/
def margin (p : Place) : Text := p.behind.reverse

/-- The place at a byte offset of a text. -/
def ofOffset (t : Text) (offset : Nat) : Place := start.advance (t.takeBytes offset)

/-- Where the first line past the end would begin, for the place at the end of
a text: a line that holds nothing is not counted. -/
def pastEnd (p : Place) : Position := if p.behind.isEmpty then ⟨p.line, 0⟩ else ⟨p.line + 1, 0⟩

end Place

end Offside
