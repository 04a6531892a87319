import Offside.Text.Basic

/-!
# White space

The twenty-five characters that Unicode lists as `White_Space`. A line of
nothing but these looks empty to a reader.
-/
namespace Offside

namespace Text

/-- White space by the Unicode property. -/
def isBlankChar (c : Char) : Bool :=
  let n := c.toNat
  (0x9 ≤ n && n ≤ 0xd) || n == 0x20 || n == 0x85 || n == 0xa0 || n == 0x1680 ||
    (0x2000 ≤ n && n ≤ 0x200a) || n == 0x2028 || n == 0x2029 || n == 0x202f || n == 0x205f ||
    n == 0x3000

/-- A text of nothing but white space; the empty text is one. -/
def isBlank (t : Text) : Bool := t.all isBlankChar

@[simp] theorem isBlank_nil : isBlank [] = true := rfl

@[simp] theorem isBlank_cons (c : Char) (t : Text) :
    isBlank (c :: t) = (isBlankChar c && isBlank t) := rfl

/-- What core counts as white space is white space here. -/
theorem isBlankChar_of_isWhitespace {c : Char} (h : c.isWhitespace = true) :
    isBlankChar c = true := by
  simp only [Char.isWhitespace, Bool.or_eq_true, decide_eq_true_eq] at h
  rcases h with ((rfl | rfl) | rfl) | rfl <;> rfl

end Text

end Offside
