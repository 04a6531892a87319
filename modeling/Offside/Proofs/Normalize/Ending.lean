import Offside.Proofs.Layout.Vacant
import Offside.Proofs.Normalize.Output

/-!
# How the text that comes out ends

All blank lines are taken out, so the last line that is left holds something,
and no separator is put behind it. Whatever the program ended with, the text
ends with that line, and with one line ending if the program ended with a blank
line.

Results:
* `Pass.inserted_last`: the last line that comes out is not vacant;
* `normalize_body`: the text that comes out is a body that ends with such a line,
  and at most one line ending.
-/
namespace Offside

open Lexeme Text Layout

theorem ended_ending (l : Text) (e : LineEnding) : Ended (l ++ e.text) := by
  rw [e.text_eq, ← List.append_assoc]
  exact ended_snoc _

theorem ended_flatMap (e : LineEnding) (ls : List Text) : Ended (ls.flatMap (· ++ e.text)) := by
  induction ls with
  | nil => exact ended_nil
  | cons l ls ih =>
    rw [List.flatMap_cons]
    exact (ended_ending l e).append ih

/-- The last line that comes out is not vacant. -/
theorem Pass.inserted_last {o : Options} {s t : Text} {es : List Entry} {last : Layout}
    {a : Analysis} (h : Pass o s t es last a) :
    insertSeparators a.lines a.ranges = [] ∨
      ∃ ks l, insertSeparators a.lines a.ranges = ks ++ [l] ∧ ¬ Vacant l := by
  rw [h.insert_eq]
  rcases hlast : (solidRows es).getLast? with _ | row
  · rw [separate_ne_nil.2 (List.getLast?_eq_none_iff.1 hlast)]
    exact Or.inl rfl
  · have hne := h.text_ne_nil row (List.mem_of_getLast? hlast)
    obtain ⟨ks, l, hl⟩ : ∃ ks l, row.lines = ks ++ [l] :=
      ⟨_, _, (List.dropLast_append_getLast (Row.lines_ne_nil hne)).symm⟩
    obtain ⟨js, hjs⟩ := lines_of_getLast (getLast_separate.trans hlast) hl
    exact Or.inr ⟨js, l, hjs, Row.not_vacant_last (h.getLast_solid row hlast).1 hne hl⟩

/-- The text that comes out is a body, and behind it one line ending if the
program ended with a blank line. The body is empty, or its last line, which no
newline ends, is not vacant. -/
theorem normalize_body {o : Options} {s t : Text} (h : normalize o s = .ok t) :
    ∃ body, t = body ++ (if s.endsBlank then o.lineEnding.text else []) ∧
      (body = [] ∨ ∃ above l, body = above ++ l ∧ Ended above ∧ '\n' ∉ l ∧ ¬ Vacant l) := by
  obtain ⟨es, last, a, hp⟩ := exists_pass h
  have ht : t = join o.lineEnding.text (insertSeparators a.lines a.ranges) ++
      (if s.endsBlank then o.lineEnding.text else []) := by
    rw [← hp.result, ← hp.endsBlank]
    rfl
  refine ⟨_, ht, ?_⟩
  rcases hp.inserted_last with hnil | ⟨ks, l, hl, hv⟩
  · rw [hnil]
    exact Or.inl rfl
  · refine Or.inr ⟨_, l, ?_, ended_flatMap o.lineEnding ks, ?_, hv⟩
    · rw [hl, join_concat]
    · apply hp.newline_not_mem_inserted
      rw [hl]
      simp

/-- A program that ends with a literal, blank lines and white space. -/
theorem normalize_body_literal :
    normalize ⟨.crlf, true⟩ "a\n\'\'\'\n \'\'\'\n\n \n\t".toList =
        .ok "a\r\n\r\n\'\'\'\r\n \'\'\'\r\n".toList ∧
      ∃ body, "a\r\n\r\n\'\'\'\r\n \'\'\'\r\n".toList =
          body ++ (if Text.endsBlank "a\n\'\'\'\n \'\'\'\n\n \n\t".toList then ['\r', '\n'] else []) ∧
        (body = [] ∨ ∃ above l, body = above ++ l ∧ Ended above ∧ '\n' ∉ l ∧ ¬ Vacant l) := by
  have h : normalize ⟨.crlf, true⟩ "a\n\'\'\'\n \'\'\'\n\n \n\t".toList =
      .ok "a\r\n\r\n\'\'\'\r\n \'\'\'\r\n".toList := by
    simp only [normalize, analyse, clean, tokensOf, tokenize, tokenizeWith, scan_eq_scanIn]
    decide +kernel
  exact ⟨h, normalize_body h⟩

end Offside
