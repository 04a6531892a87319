import Offside.Proofs.Lexeme.Evaluate
import Offside.Proofs.Normalize.Pass

/-!
# Where separators are put

What comes out of a program are the lines of its analysis, with one empty line
before each line that a separator belongs before. Which lines these are is told by
the lines on which its statements start, and by how many lines there are.

Results:
* `normalize_error_iff`: a program is refused exactly if its analysis is;
* `Pass.separated_bound`: a separator stands before a line that is there;
* `normalize_placement`: what comes out of a program that has an analysis.
-/
namespace Offside

open Lexeme Text Layout

/-- A program is refused exactly if its analysis is, and for the same reason. -/
theorem normalize_error_iff {o : Options} {s : Text} {e : ProgramError} :
    normalize o s = .error e ↔ analyse o.mergeRuns s = .error e := by
  unfold normalize
  cases analyse o.mergeRuns s <;> simp

/-- What comes out of a program is decided by its analysis, line by line: `ns` are
the lines before which an empty one is put. -/
theorem normalize_placement (o : Options) (s : Text) :
    (∀ e, normalize o s = .error e ↔ analyse o.mergeRuns s = .error e) ∧
    ∀ a, analyse o.mergeRuns s = .ok a → ∃ us nodes ns,
      tokenize (joinLines a.lines) = .ok us ∧ outline us = .ok nodes ∧
      ns = separatorLines o.mergeRuns a.lines.length (nodes.map (·.start.line)) ∧
      (∀ n ∈ ns, 1 < n ∧ n ≤ a.lines.length) ∧
      normalize o s = .ok (join o.lineEnding.text (separateLines ns 1 a.lines) ++
        if a.endsBlank then o.lineEnding.text else []) := by
  refine ⟨fun e => normalize_error_iff, fun a ha => ?_⟩
  have hok : normalize o s = .ok (a.assemble o.lineEnding) := normalize_eq_ok.2 ⟨a, ha, rfl⟩
  obtain ⟨es, last, a', hp⟩ := exists_pass hok
  obtain rfl := Except.ok.inj (ha.symm.trans hp.analysed)
  obtain ⟨us, nodes, hus, ho, -, hns⟩ := hp.statements
  refine ⟨us, nodes, a.separated, hus, ho, hns, hp.separated_bound, ?_⟩
  rw [hok, Analysis.assemble, assemble, hp.insert_lines]

/-- Two statements of a single line each stay together; a comment belongs to the
statement before it, which then takes more than one line. -/
theorem normalize_placement_runs : ∃ a us nodes ns,
    analyse true "a\nb\nc\n# d\nif e:\n  f\ng".toList = .ok a ∧
      tokenize (joinLines a.lines) = .ok us ∧ outline us = .ok nodes ∧
      ns = separatorLines true a.lines.length (nodes.map (·.start.line)) ∧
      normalize ⟨.lf, true⟩ "a\nb\nc\n# d\nif e:\n  f\ng".toList =
        .ok (join ['\n'] (separateLines ns 1 a.lines)) ∧
      join ['\n'] (separateLines ns 1 a.lines) = "a\nb\n\nc\n# d\n\nif e:\n  f\n\ng".toList := by
  have ha : analyse true "a\nb\nc\n# d\nif e:\n  f\ng".toList = .ok
      ⟨["a", "b", "c", "# d", "if e:", "  f", "g"].map (·.toList),
        [⟨1, 2, false⟩, ⟨3, 4, false⟩, ⟨5, 6, false⟩, ⟨7, 7, true⟩], false⟩ := by
    simp only [analyse, clean, tokensOf, tokenize, tokenizeWith, scan_eq_scanIn]
    decide +kernel
  have ht : normalize ⟨.lf, true⟩ "a\nb\nc\n# d\nif e:\n  f\ng".toList =
      .ok "a\nb\n\nc\n# d\n\nif e:\n  f\n\ng".toList := by
    rw [normalize, ha]
    decide +kernel
  obtain ⟨us, nodes, ns, hus, ho, hns, -, hok⟩ :=
    (normalize_placement ⟨.lf, true⟩ "a\nb\nc\n# d\nif e:\n  f\ng".toList).2 _ ha
  rw [if_neg Bool.false_ne_true, List.append_nil] at hok
  exact ⟨_, us, nodes, ns, ha, hus, ho, hns, hok, Except.ok.inj (hok.symm.trans ht)⟩

end Offside
