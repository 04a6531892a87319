/-!
# Texts

A text is a list of characters. Offsets and widths are counted in bytes of its
UTF-8 form, so that a character takes between one and four of them.

* `byteSize`: how many bytes a text takes;
* `takeBytes`, `dropBytes`, `slice`: cutting at byte offsets. A cut inside a
  character falls behind that character.
-/
namespace Offside

/-- A text, character by character. -/
abbrev Text := List Char

namespace Text

/-- The bytes a text takes in UTF-8. -/
def byteSize : Text → Nat
  | [] => 0
  | c :: rest => c.utf8Size + byteSize rest

@[simp] theorem byteSize_nil : byteSize [] = 0 := rfl

@[simp] theorem byteSize_cons (c : Char) (t : Text) :
    byteSize (c :: t) = c.utf8Size + byteSize t := rfl

@[simp] theorem byteSize_append (s t : Text) : byteSize (s ++ t) = byteSize s + byteSize t := by
  induction s with
  | nil => simp
  | cons c s ih => simp [ih, Nat.add_assoc]

@[simp] theorem byteSize_reverse (t : Text) : byteSize t.reverse = byteSize t := by
  induction t with
  | nil => rfl
  | cons c t ih => simp [ih, Nat.add_comm]

theorem byteSize_eq_zero {t : Text} : byteSize t = 0 ↔ t = [] := by
  cases t with
  | nil => simp
  | cons c t => have := c.utf8Size_pos; simp; omega

/-- The first `n` bytes. -/
def takeBytes : Nat → Text → Text
  | 0, _ => []
  | _ + 1, [] => []
  | n + 1, c :: rest => c :: takeBytes (n + 1 - c.utf8Size) rest

/-- What follows the first `n` bytes. -/
def dropBytes : Nat → Text → Text
  | 0, t => t
  | _ + 1, [] => []
  | n + 1, c :: rest => dropBytes (n + 1 - c.utf8Size) rest

theorem takeBytes_append_dropBytes (n : Nat) (t : Text) : takeBytes n t ++ dropBytes n t = t := by
  induction t generalizing n with
  | nil => cases n <;> rfl
  | cons c t ih => cases n with
    | zero => rfl
    | succ n => simp [takeBytes, dropBytes, ih]

theorem takeBytes_byteSize_append (s t : Text) : takeBytes (byteSize s) (s ++ t) = s := by
  induction s with
  | nil => simp [takeBytes]
  | cons c s ih =>
    obtain ⟨k, hk⟩ : ∃ k, c.utf8Size = k + 1 := ⟨c.utf8Size - 1, by have := c.utf8Size_pos; omega⟩
    have : k + 1 + byteSize s - (k + 1) = byteSize s := by omega
    simp only [byteSize_cons, hk, List.cons_append, Nat.add_right_comm k 1 (byteSize s), takeBytes]
    rw [show k + byteSize s + 1 - (k + 1) = byteSize s by omega, ih]

theorem dropBytes_byteSize_append (s t : Text) : dropBytes (byteSize s) (s ++ t) = t := by
  have h := takeBytes_append_dropBytes (byteSize s) (s ++ t)
  rw [takeBytes_byteSize_append] at h
  exact List.append_cancel_left h

/-- The bytes from offset `start` up to offset `stop`; nothing when they are
the wrong way round. -/
def slice (start stop : Nat) (t : Text) : Text := takeBytes (stop - start) (dropBytes start t)

end Text

end Offside
