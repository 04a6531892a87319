import Offside.Lexeme.Scan

/-!
# Cutting a given text

`scan` recurs on what is left of the text, which no evaluation inside a proof
can follow. `scanIn` is the same in a given number of steps, one for each
character at most, and can be run.

Results:
* `scan_eq_scanIn`: as many steps as the text is long are enough.
-/
namespace Offside

/-- Results and failures can be told apart as soon as both kinds can. -/
instance decidableEqExcept {ε α : Type} [DecidableEq ε] [DecidableEq α] : DecidableEq (Except ε α)
  | .ok a, .ok b => decidable_of_iff (a = b) (by simp)
  | .error a, .error b => decidable_of_iff (a = b) (by simp)
  | .ok _, .error _ => .isFalse nofun
  | .error _, .ok _ => .isFalse nofun

namespace Lexeme

/-- All lexemes of a text that has at most so many. -/
def scanIn : Nat → Text → Scan
  | 0, _ => ⟨[], none⟩
  | _ + 1, [] => ⟨[], none⟩
  | n + 1, c :: rest =>
    match front c rest with
    | .lexeme l after => ⟨l :: (scanIn n after).lexemes, (scanIn n after).stop?⟩
    | .fault cause => ⟨[], some ⟨cause, c :: rest⟩⟩

theorem scan_eq_scanIn_of_le {n : Nat} {t : Text} (h : t.length ≤ n) : scan t = scanIn n t := by
  induction n generalizing t with
  | zero =>
    obtain rfl := List.length_eq_zero_iff.1 (Nat.le_zero.1 h)
    simp [scanIn]
  | succ n ih =>
    cases t with
    | nil => simp [scanIn]
    | cons c rest =>
      rw [scan, scanIn]
      split
      · next l after hf =>
        have hlt := front_length_lt hf
        have hle : after.length ≤ n := by omega
        simp only [hf, ih hle]
      · next cause hf => simp only [hf]

/-- A text has at most as many lexemes as characters. -/
theorem scan_eq_scanIn (t : Text) : scan t = scanIn t.length t :=
  scan_eq_scanIn_of_le (Nat.le_refl _)

end Lexeme

end Offside
