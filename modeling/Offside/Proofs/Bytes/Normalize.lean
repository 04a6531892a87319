import Offside.Normalize
import Offside.Proofs.Bytes.Layout

/-!
# Normalizing with checked operations

All of normalizing, in operations that say when they make no sense: lines are taken out
and put in by their numbers, and the last line of a range is the one before the next.
None of these operations fails on any text, whatever it holds, and none changes what
comes out.

Results:
* `removeBlankLines_eq`, `insertSeparators_eq`: lines are taken out and put in where they
  are;
* `ofStarts_eq`: ranges between starts that ascend;
* `normalize_eq_some`: normalizing any text in any way.
-/
namespace Offside

namespace Checked

open Text

/-! ## Lines by their numbers -/

/-- Removes a line by its number, if there is one of this number. -/
def removeLine (n : Nat) (ls : List Text) : Option (List Text) :=
  if 1 ≤ n ∧ n ≤ ls.length then do
    let i ← sub n 1
    removeAt i ls
  else return ls

/-- Removes the lines that are marked blank, the last of them first, and counts them. -/
def removeBlankLines (ls : List Text) (ts : List Token) : Option (List Text) := do
  let left ← (blankLineNumbers ts).foldrM removeLine ls
  let _ ← sub ls.length left.length
  return left

/-- Puts an empty line before a line by its number, unless it is the first or none. -/
def separateAt (n : Nat) (ls : List Text) : Option (List Text) :=
  if 1 < n then do
    let i ← sub n 1
    if i ≤ ls.length then insertAt i [] ls else return ls
  else return ls

/-- Puts an empty line before every range but the first, the last of them first. -/
def insertSeparators (ls : List Text) (ranges : List LineRange) : Option (List Text) :=
  ranges.tail.foldrM (fun r ls => separateAt r.first ls) ls

/-- One range for each start, each but the last to the line before the next start. -/
def ofStarts (lastLine : Nat) : List Nat → Option (List LineRange)
  | [] => return []
  | [s] => return [.between s (max lastLine s)]
  | s :: next :: rest => do
    let last ← sub next 1
    let ranges ← ofStarts lastLine (next :: rest)
    return .between s (max last s) :: ranges

/-! ## Normalizing -/

/-- The ranges of the top-level statements of a program with this many lines. -/
def statementRanges (merge : Bool) (ts : List Token) (lineCount : Nat) :
    Option (Except StructureError (List LineRange)) :=
  match outline ts with
  | .error e => return .error e
  | .ok nodes => do
    let ranges ← ofStarts lineCount (LineRange.startLines nodes)
    return .ok (if merge then LineRange.mergeRuns ranges else ranges)

/-- The normalized text of a program; nothing if some operation on the way makes no
sense. -/
def normalize (o : Options) (source : Text) : Option (Except ProgramError Text) := do
  match ← tokenize source with
  | .error e => return .error (.lexical e)
  | .ok ts => do
    let ls ← removeBlankLines source.lines ts
    match ← tokenize (joinLines ls) with
    | .error e => return .error (.lexical e)
    | .ok us => do
      match ← statementRanges o.mergeRuns us ls.length with
      | .error e => return .error (.structural e)
      | .ok ranges => do
        let separated ← insertSeparators ls ranges
        return .ok (assemble o.lineEnding source.endsBlank separated)

/-! ## None of it fails -/

theorem foldrM_eq_some {α β : Type} {f : α → β → Option β} {g : α → β → β}
    (h : ∀ a b, f a b = some (g a b)) (b : β) (as : List α) :
    as.foldrM f b = some (as.foldr g b) := by
  have hf : f = fun a b => pure (g a b) := funext fun a => funext fun b => h a b
  rw [hf]
  exact List.foldrM_pure

theorem removeLine_eq (n : Nat) (ls : List Text) :
    removeLine n ls = some (Offside.removeLine n ls) := by
  rw [removeLine, Offside.removeLine]
  by_cases hn : 1 ≤ n
  · by_cases hl : n ≤ ls.length
    · rw [if_pos ⟨hn, hl⟩, if_pos hn, sub_of_le hn]
      exact if_pos (by omega)
    · rw [if_neg fun h => hl h.2, if_pos hn, List.eraseIdx_of_length_le (by omega)]
      rfl
  · rw [if_neg fun h => hn h.1, if_neg hn]
    rfl

/-- Lines are taken out where they are, and not more than there are. -/
theorem removeBlankLines_eq (ls : List Text) (ts : List Token) :
    removeBlankLines ls ts = some (Offside.removeBlankLines ls ts) := by
  have hle := (removeBlankLines_sublist ls ts).length_le
  rw [Offside.removeBlankLines] at hle ⊢
  rw [removeBlankLines, foldrM_eq_some removeLine_eq, Option.bind_eq_bind, Option.bind_some,
    sub_of_le hle]
  rfl

theorem separateAt_eq (n : Nat) (ls : List Text) :
    separateAt n ls = some (Offside.separateAt n ls) := by
  rw [separateAt, Offside.separateAt]
  by_cases hn : 1 < n
  · rw [if_pos hn, if_pos hn, sub_of_le (Nat.le_of_lt hn), Option.bind_eq_bind, Option.bind_some]
    by_cases hl : n - 1 ≤ ls.length
    · rw [if_pos hl, insertAt, if_pos hl]
    · rw [if_neg hl, List.insertIdx_of_length_lt (Nat.lt_of_not_le hl)]
      rfl
  · rw [if_neg hn, if_neg hn]
    rfl

/-- Lines are put in where there are lines, or behind the last. -/
theorem insertSeparators_eq (ls : List Text) (ranges : List LineRange) :
    insertSeparators ls ranges = some (Offside.insertSeparators ls ranges) :=
  have h : ∀ (r : LineRange) ls, separateAt r.first ls = some (Offside.separateAt r.first ls) :=
    fun r => separateAt_eq r.first
  foldrM_eq_some h ls ranges.tail

/-- Before a start behind another one there is a line. -/
theorem ofStarts_eq {starts : List Nat} (h : starts.Pairwise (· < ·)) (lastLine : Nat) :
    ofStarts lastLine starts = some (LineRange.ofStarts lastLine starts) := by
  fun_induction LineRange.ofStarts lastLine starts with
  | case1 => rfl
  | case2 s => rfl
  | case3 s next rest ih =>
    obtain ⟨hs, hrest⟩ := List.pairwise_cons.1 h
    have hpos : 1 ≤ next := Nat.succ_le_of_lt (Nat.zero_lt_of_lt (hs next List.mem_cons_self))
    rw [ofStarts, sub_of_le hpos, ih hrest]
    rfl

example : ofStarts 2 [1, 0] = none := by decide

theorem statementRanges_eq (merge : Bool) (ts : List Token) (lineCount : Nat) :
    statementRanges merge ts lineCount = some (Offside.statementRanges merge ts lineCount) := by
  rw [statementRanges, Offside.statementRanges]
  cases outline ts with
  | error e => rfl
  | ok nodes =>
    have hstarts : (LineRange.startLines nodes).Pairwise (· < ·) := pairwise_ascending _
    dsimp only
    rw [ofStarts_eq hstarts]
    rfl

/-- Normalizing any text in any way, no operation fails, and what comes out is the
normalized text or what is wrong with the program. -/
theorem normalize_eq_some (o : Options) (s : Text) :
    normalize o s = some (Offside.normalize o s) := by
  simp only [normalize, Offside.normalize, analyse, clean, tokensOf, rangesOf, Cleaned.ofTokens,
    Cleaned.text, tokenize_eq, removeBlankLines_eq, statementRanges_eq, insertSeparators_eq,
    Option.bind_eq_bind, Option.bind_some]
  cases Offside.tokenize s with
  | error e => rfl
  | ok ts =>
    dsimp only
    cases Offside.tokenize (joinLines (Offside.removeBlankLines s.lines ts)) with
    | error e => rfl
    | ok us =>
      dsimp only
      cases Offside.statementRanges o.mergeRuns us (Offside.removeBlankLines s.lines ts).length <;> rfl

end Checked

end Offside
