import Offside.Text.Printable

/-!
# Quoted texts

A character or a text as it is shown in a message: between two marks, on one
line, with every character that would be invisible or misread written as an
escape.
-/
namespace Offside

namespace Text

/-- A character between two marks `mark`: the mark and the backslash follow a
backslash, four controls have a letter or digit of their own, and all else
that has no shape is written by its number in hexadecimal. -/
def escape (mark c : Char) : Text :=
  if c = '\x00' then ['\\', '0']
  else if c = '\t' then ['\\', 't']
  else if c = '\r' then ['\\', 'r']
  else if c = '\n' then ['\\', 'n']
  else if c = mark ∨ c = '\\' then ['\\', c]
  else if isPrintable c then [c]
  else ['\\', 'u', '\x7b'] ++ Nat.toDigits 16 c.toNat ++ ['\x7d']

/-- A text between two marks. -/
def quoteWith (mark : Char) (t : Text) : Text := mark :: t.flatMap (escape mark) ++ [mark]

/-- A text in double quotes, as messages show it. -/
def quoted (t : Text) : String := String.ofList (quoteWith '"' t)

/-- A character in single quotes, as messages show it. -/
def quotedChar (c : Char) : String := String.ofList (quoteWith '\'' [c])

/-- A single quote needs no escape between double quotes, nor the other way round. -/
theorem escape_other_mark : escape '"' '\'' = ['\''] ∧ escape '\'' '"' = ['"'] := by decide

end Text

end Offside
