import Offside.Text.Basic

/-!
# Numbers in a text

A number in a text is a run of decimal digits, as long as it can be.

* `numbers`: the numbers in a text, in order;
* `numbers_append_cons`: what stands on both sides of another character is told apart;
* `numbers_toDigits`: a number is read back from its digits.
-/
namespace Offside.Text

/-- The numbers in a text, the first of which has gone on for digits of the value
`open?`. -/
def numbersFrom (open? : Option Nat) : Text → List Nat
  | [] => open?.toList
  | c :: t =>
    if c.isDigit then numbersFrom (some (Nat.ofDigitChars 10 [c] (open?.getD 0))) t
    else open?.toList ++ numbersFrom none t

/-- The numbers in a text, in order. -/
def numbers (t : Text) : List Nat := numbersFrom none t

theorem numbersFrom_append_cons {c : Char} (hc : c.isDigit = false) (open? : Option Nat)
    (s t : Text) :
    numbersFrom open? (s ++ c :: t) = numbersFrom open? s ++ numbers t := by
  induction s generalizing open? with
  | nil => simp [numbersFrom, numbers, hc]
  | cons d s ih =>
    rw [List.cons_append, numbersFrom, numbersFrom]
    split
    · exact ih _
    · rw [ih, List.append_assoc]

theorem numbers_append_cons {c : Char} (hc : c.isDigit = false) (s t : Text) :
    numbers (s ++ c :: t) = numbers s ++ numbers t :=
  numbersFrom_append_cons hc none s t

theorem numbers_append {s : Text} (h : ∀ c ∈ s, c.isDigit = false) (t : Text) :
    numbers (s ++ t) = numbers t := by
  induction s with
  | nil => rfl
  | cons c s ih =>
    obtain ⟨hc, hs⟩ := List.forall_mem_cons.1 h
    exact (numbers_append_cons hc [] (s ++ t)).trans (ih hs)

theorem numbersFrom_digits {s : Text} (h : ∀ c ∈ s, c.isDigit = true) (n : Nat) :
    numbersFrom (some n) s = [Nat.ofDigitChars 10 s n] := by
  induction s generalizing n with
  | nil => rfl
  | cons c s ih =>
    obtain ⟨hc, hs⟩ := List.forall_mem_cons.1 h
    rw [numbersFrom, if_pos hc, ih hs]
    rfl

/-- A number is read back from its digits. -/
theorem numbers_toDigits (n : Nat) : numbers (Nat.toDigits 10 n) = [n] := by
  have hdigits : ∀ c ∈ Nat.toDigits 10 n, c.isDigit = true := fun c hc =>
    Nat.isDigit_of_mem_toDigits (by decide) (by decide) hc
  cases hn : Nat.toDigits 10 n with
  | nil => exact absurd hn Nat.toDigits_ne_nil
  | cons c s =>
    rw [hn] at hdigits
    obtain ⟨hc, hs⟩ := List.forall_mem_cons.1 hdigits
    rw [numbers, numbersFrom, if_pos hc, numbersFrom_digits hs]
    have hvalue : Nat.ofDigitChars 10 (c :: s) 0 = n := by rw [← hn, Nat.ofDigitChars_ten_toDigits]
    exact congrArg (fun m => [m]) hvalue

theorem numbers_toString (n : Nat) : numbers (toString n).toList = [n] := by
  rw [Nat.toString_eq_ofList_toDigits, String.toList_ofList, numbers_toDigits]

end Offside.Text
