import Offside.Text.Basic

/-!
# Checked operations

Cutting a text at a byte offset makes sense only between two of its characters, taking
a number off another only if it is not the larger one, and a list has only so many
places. Here each of these operations says when it does not make sense: it gives nothing
then, where a program would stop.

Results:
* `cut_eq_some`: where a text can be cut, and into what;
* `slice_append`: the text between two others can be cut out;
* `length_bytes`: the bytes of a text are as many as it takes;
* `isPrefixOf_bytes`: characters of ASCII are found among the bytes of a text exactly
  where they are found in the text.
-/
namespace Offside

namespace Checked

open Text

/-! ## Cutting -/

/-- A text before and behind a byte offset that falls between two characters. -/
def cut : Nat → Text → Option (Text × Text)
  | 0, t => some ([], t)
  | _ + 1, [] => none
  | n + 1, c :: t =>
    if c.utf8Size ≤ n + 1 then (cut (n + 1 - c.utf8Size) t).map fun (a, b) => (c :: a, b) else none

/-- The text behind a byte offset. -/
def behind (n : Nat) (t : Text) : Option Text := (cut n t).map (·.2)

/-- The text between two byte offsets. -/
def slice (start stop : Nat) (t : Text) : Option Text :=
  if start ≤ stop then do
    let rest ← behind start t
    let (inside, _) ← cut (stop - start) rest
    return inside
  else none

theorem cut_byteSize_append (a b : Text) : cut (byteSize a) (a ++ b) = some (a, b) := by
  induction a with
  | nil => simp [cut]
  | cons c a ih =>
    obtain ⟨k, hk⟩ := Nat.exists_eq_succ_of_ne_zero (Nat.ne_of_gt c.utf8Size_pos)
    have hsize : byteSize (c :: a) = k + byteSize a + 1 := by rw [byteSize_cons, hk]; omega
    have hrest : k + byteSize a + 1 - c.utf8Size = byteSize a := by omega
    rw [hsize, List.cons_append, cut, if_pos (by omega), hrest, ih]
    rfl

/-- A text can be cut exactly between two of its parts. -/
theorem cut_eq_some {n : Nat} {t a b : Text} : cut n t = some (a, b) ↔ t = a ++ b ∧ byteSize a = n := by
  refine ⟨fun h => ?_, fun h => h.1 ▸ h.2 ▸ cut_byteSize_append a b⟩
  induction t generalizing n a with
  | nil =>
    cases n with
    | zero => cases h; exact ⟨rfl, rfl⟩
    | succ n => cases h
  | cons c t ih =>
    cases n with
    | zero => cases h; exact ⟨rfl, rfl⟩
    | succ n =>
      rw [cut] at h
      split at h
      · next hle =>
        obtain ⟨⟨a', b'⟩, hcut, hab⟩ := Option.map_eq_some_iff.1 h
        cases hab
        obtain ⟨rfl, hsize⟩ := ih hcut
        exact ⟨rfl, by rw [byteSize_cons, hsize]; omega⟩
      · cases h

example : cut 1 ['ä'] = none := by decide

theorem behind_byteSize_append (a b : Text) : behind (byteSize a) (a ++ b) = some b := by
  rw [behind, cut_byteSize_append]
  rfl

/-- The text between two others can be cut out. -/
theorem slice_append (a b c : Text) :
    slice (byteSize a) (byteSize a + byteSize b) (a ++ b ++ c) = some b := by
  rw [slice, if_pos (Nat.le_add_right _ _), List.append_assoc, behind_byteSize_append,
    Nat.add_sub_cancel_left]
  simp [cut_byteSize_append]

/-! ## Numbers and lists -/

/-- A difference that is not below zero. -/
def sub (m n : Nat) : Option Nat := if n ≤ m then some (m - n) else none

theorem sub_of_le {m n : Nat} (h : n ≤ m) : sub m n = some (m - n) := if_pos h

section

variable {α : Type}

/-- A list without the element in some place. -/
def removeAt (i : Nat) (xs : List α) : Option (List α) :=
  if i < xs.length then some (xs.eraseIdx i) else none

/-- A list with one more element in some place, at the latest behind all others. -/
def insertAt (i : Nat) (x : α) (xs : List α) : Option (List α) :=
  if i ≤ xs.length then some (xs.insertIdx i x) else none

end

end Checked

/-! ## Bytes -/

namespace Text

/-- The bytes of a text in UTF-8. -/
def bytes (t : Text) : List UInt8 := t.flatMap String.utf8EncodeChar

@[simp] theorem bytes_nil : bytes [] = [] := rfl

@[simp] theorem bytes_cons (c : Char) (t : Text) : bytes (c :: t) = String.utf8EncodeChar c ++ bytes t :=
  List.flatMap_cons

theorem bytes_append (s t : Text) : bytes (s ++ t) = bytes s ++ bytes t := List.flatMap_append

/-- The bytes of a text are as many as it takes. -/
@[simp] theorem length_bytes (t : Text) : (bytes t).length = byteSize t := by
  induction t with
  | nil => rfl
  | cons c t ih => rw [bytes_cons, List.length_append, String.length_utf8EncodeChar, ih, byteSize_cons]

theorem toNat_toUInt8 {c : Char} (h : c.toNat < 128) : c.toUInt8.toNat = c.toNat :=
  (UInt32.toNat_toUInt8 c.val).trans (Nat.mod_eq_of_lt (Nat.lt_trans h (by decide)))

theorem encode_of_ascii {c : Char} (h : c.toNat < 128) : String.utf8EncodeChar c = [c.toUInt8] := by
  have hle : c.val.toNat ≤ 127 := Nat.le_of_lt_succ h
  rw [String.utf8EncodeChar]
  simp only [hle, ↓reduceIte]
  rfl

theorem bytes_cons_of_ascii {c : Char} (h : c.toNat < 128) (t : Text) :
    bytes (c :: t) = c.toUInt8 :: bytes t := by
  rw [bytes_cons, encode_of_ascii h, List.singleton_append]

theorem bytes_of_ascii {a : Text} (h : ∀ c ∈ a, c.toNat < 128) : bytes a = a.map Char.toUInt8 := by
  induction a with
  | nil => rfl
  | cons c a ih =>
    obtain ⟨hc, ha⟩ := List.forall_mem_cons.1 h
    rw [bytes_cons_of_ascii hc, ih ha, List.map_cons]

theorem le_of_mem_encode {c : Char} (h : 128 ≤ c.toNat) {b : UInt8}
    (hb : b ∈ String.utf8EncodeChar c) : 128 ≤ b.toNat := by
  have hle : ¬c.val.toNat ≤ 127 := Nat.not_le_of_lt h
  have hbyte : ∀ n, 128 ≤ n → n < 256 → 128 ≤ (UInt8.ofNat n).toNat := fun n h1 h2 => by
    rw [UInt8.toNat_ofNat_of_lt' h2]
    exact h1
  rw [String.utf8EncodeChar] at hb
  simp only [hle, ↓reduceIte] at hb
  split at hb
  · simp only [List.mem_cons, List.not_mem_nil, or_false] at hb
    rcases hb with rfl | rfl <;> exact hbyte _ (by omega) (by omega)
  · split at hb <;> simp only [List.mem_cons, List.not_mem_nil, or_false] at hb
    · rcases hb with rfl | rfl | rfl <;> exact hbyte _ (by omega) (by omega)
    · rcases hb with rfl | rfl | rfl | rfl <;> exact hbyte _ (by omega) (by omega)

theorem toUInt8_inj {a c : Char} (ha : a.toNat < 128) (hc : c.toNat < 128) :
    a.toUInt8 = c.toUInt8 ↔ a = c := by
  refine ⟨fun h => ?_, fun h => h ▸ rfl⟩
  have hnat : a.toNat = c.toNat := by rw [← toNat_toUInt8 ha, h, toNat_toUInt8 hc]
  rw [← Char.ofNat_toNat a, hnat, Char.ofNat_toNat]

theorem exists_encode (c : Char) :
    (c.toNat < 128 ∧ String.utf8EncodeChar c = [c.toUInt8]) ∨
      ∃ b bs, 128 ≤ c.toNat ∧ String.utf8EncodeChar c = b :: bs ∧ ∀ x ∈ b :: bs, 128 ≤ x.toNat := by
  by_cases h : c.toNat < 128
  · exact Or.inl ⟨h, encode_of_ascii h⟩
  · have hc : 128 ≤ c.toNat := Nat.le_of_not_lt h
    cases hb : String.utf8EncodeChar c with
    | nil =>
      have hlen := String.length_utf8EncodeChar c
      have hpos := c.utf8Size_pos
      rw [hb, List.length_nil] at hlen
      omega
    | cons b bs => exact Or.inr ⟨b, bs, hc, rfl, fun x hx => le_of_mem_encode hc (hb ▸ hx)⟩

/-- Characters of ASCII are found among the bytes of a text exactly where they are found
in the text. -/
theorem isPrefixOf_bytes {a : Text} (ha : ∀ c ∈ a, c.toNat < 128) (t : Text) :
    (a.map Char.toUInt8).isPrefixOf (bytes t) = a.isPrefixOf t := by
  induction a generalizing t with
  | nil => simp
  | cons x a ih =>
    obtain ⟨hx, ha⟩ := List.forall_mem_cons.1 ha
    cases t with
    | nil => simp
    | cons c t =>
      rw [List.isPrefixOf_cons_cons, bytes_cons]
      rcases exists_encode c with ⟨hc, he⟩ | ⟨b, bs, hc, he, hbs⟩
      · rw [he, List.map_cons, List.cons_append, List.nil_append, List.isPrefixOf_cons_cons, ih ha]
        exact congrArg (· && _) (Bool.eq_iff_iff.2 (by simp [toUInt8_inj hx hc]))
      · have hb : x.toUInt8 ≠ b := fun e => by
          have hlt := hbs b List.mem_cons_self
          rw [← e, toNat_toUInt8 hx] at hlt
          omega
        have hxc : x ≠ c := fun e => by rw [e] at hx; omega
        rw [he, List.map_cons, List.cons_append, List.isPrefixOf_cons_cons, beq_false_of_ne hb,
          beq_false_of_ne hxc, Bool.false_and, Bool.false_and]

end Text

end Offside
