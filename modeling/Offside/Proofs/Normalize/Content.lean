import Offside.Proofs.Lexeme.Evaluate
import Offside.Proofs.Normalize.Output

/-!
# The lines that are kept

Normalizing takes out blank lines and puts empty ones in, so the lines that hold
more than white space stay, in their order. Written with a newline alone, a line
is read back without the carriage return at its end, so the lines stay as they
were unless one that is written again ends with a carriage return of its own.

Results:
* `Pass.filled_eq`: the lines of the text that comes out that hold something;
* `filled_eq_iff`: when they are those of the program.
-/
namespace Offside

open Text

namespace Text

/-- The lines that hold more than white space. -/
def filled (ls : List Text) : List Text := ls.filter fun l => !isBlank l

/-- The lines of a text that a newline ends. -/
def endedLines (t : Text) : List Text :=
  if t.getLast? = some '\n' then lines t else (lines t).dropLast

theorem filled_append (ls ms : List Text) : filled (ls ++ ms) = filled ls ++ filled ms :=
  List.filter_append ..

theorem mem_filled {ls : List Text} {l : Text} :
    l ∈ filled ls ↔ l ∈ ls ∧ isBlank l = false := by
  simp [filled]

theorem isBlank_append (a b : Text) : isBlank (a ++ b) = (isBlank a && isBlank b) := List.all_append

theorem isBlank_trimReturn (l : Text) : isBlank (trimReturn l) = isBlank l := by
  by_cases h : l.getLast? = some '\r'
  · rw [← List.dropLast_append_getLast? _ h, trimReturn_snoc, isBlank_append]
    exact (Bool.and_true _).symm
  · rw [trimReturn_of_ne h]

theorem isBlank_readBack (e : LineEnding) (l : Text) : isBlank (readBack e l) = isBlank l := by
  have hlead : isBlank e.lead = true := by cases e <;> rfl
  rw [readBack, isBlank_trimReturn, isBlank_append, hlead, Bool.and_true]

theorem filled_readBack (e : LineEnding) (ls : List Text) :
    filled (ls.map (readBack e)) = (filled ls).map (readBack e) := by
  rw [filled, filled, List.filter_map]
  congr 1
  exact List.filter_congr fun l _ => congrArg (!·) (isBlank_readBack e l)

theorem filled_endedLines {t : Text} (h : t.endsBlank = true) :
    filled (endedLines t) = filled (lines t) := by
  unfold endedLines
  split
  · rfl
  · next hn =>
    rw [endsBlank, Bool.or_eq_true, beq_iff_eq, or_iff_right hn] at h
    obtain ⟨l, hl, hb⟩ := Option.any_eq_true _ _ |>.1 h
    conv => rhs; rw [← List.dropLast_append_getLast? l hl]
    rw [filled_append]
    simp [filled, hb]

end Text

theorem insertIdx_filled (n : Nat) (ls : List Text) : filled (ls.insertIdx n []) = filled ls := by
  induction ls generalizing n with
  | nil => cases n <;> rfl
  | cons l ls ih =>
    cases n with
    | zero => simp [filled]
    | succ n =>
      rw [List.insertIdx_succ_cons, ← List.singleton_append, filled_append, ih,
        ← filled_append, List.singleton_append]

theorem filled_insertSeparators (ls : List Text) (ranges : List LineRange) :
    filled (insertSeparators ls ranges) = filled ls :=
  insertSeparators_congr insertIdx_filled ls ranges

theorem filled_rows {rows : List Row} (h : ∀ row ∈ rows, row.text ≠ []) :
    filled (rows.flatMap Row.lines) = filled ((rows.filter Row.isSolid).flatMap Row.lines) := by
  induction rows with
  | nil => rfl
  | cons row rows ih =>
    have ih' := ih fun r hr => h r (by simp [hr])
    rw [List.flatMap_cons, filled_append, ih']
    by_cases hb : row.isBlank = true
    · obtain ⟨l, hl, hlb⟩ := lines_of_blank hb (h row (by simp))
      rw [List.filter_cons_of_neg (by simp [Row.isSolid, hb]), hl]
      simp [filled, hlb.isBlank]
    · rw [List.filter_cons_of_pos (by simp [Row.isSolid, hb]), List.flatMap_cons, filled_append]

namespace Pass

variable {o : Options} {s t : Text} {es : List Entry} {last : Layout} {a : Analysis}

theorem filled_lines (h : Pass o s t es last a) : filled a.lines = filled (Text.lines s) := by
  rw [h.lines, ← h.source, lines_sheet h.sheet, filled_rows (sheet_text_ne_nil h.sheet),
    List.filter_map]
  rfl

theorem filled_closed (h : Pass o s t es last a) (hc : a.endsBlank = true) :
    filled (Text.lines t) = (filled (Text.lines s)).map (readBack o.lineEnding) := by
  have hno := h.newline_not_mem_inserted
  have hfilled := filled_insertSeparators a.lines a.ranges
  rw [h.filled_lines] at hfilled
  rw [← hfilled, ← h.result, Analysis.assemble, assemble, hc, if_pos rfl]
  generalize insertSeparators a.lines a.ranges = ls at hno
  by_cases hne : ls = []
  · subst hne
    cases o.lineEnding <;> rfl
  · have hlines := lines_flatMap o.lineEnding hno []
    rw [List.append_nil] at hlines
    rw [join_append _ hne, hlines, filled_append, filled_readBack]
    exact List.append_nil _

theorem filled_open (h : Pass o s t es last a) (hc : a.endsBlank = false) (hs : s ≠ []) :
    ∃ l, filled (Text.lines s) = filled (endedLines s) ++ [l] ∧
      filled (Text.lines t) = (filled (endedLines s)).map (readBack o.lineEnding) ++ [l] := by
  obtain ⟨l, ks, is, js, hb, hks, -, hjs⟩ := h.exists_last_line hc hs
  have hend : endedLines s = ks := by
    have hblank := h.endsBlank
    rw [hc, Text.endsBlank, eq_comm, Bool.or_eq_false_iff, beq_eq_false_iff_ne] at hblank
    rw [endedLines, if_neg hblank.1, hks, List.dropLast_concat]
  have hl : filled [l] = [l] := by simp [filled, hb]
  have hno := h.newline_not_mem_inserted
  have hfilled := filled_insertSeparators a.lines a.ranges
  rw [h.filled_lines, hks, hjs, filled_append, filled_append] at hfilled
  have hne : l ≠ [] := by intro heq; subst heq; cases hb
  have ht : t = join o.lineEnding.text (js ++ [l]) := by
    rw [← h.result, Analysis.assemble, assemble, hc, hjs]
    exact List.append_nil _
  rw [hjs] at hno
  refine ⟨l, by rw [hend, hks, filled_append, hl], ?_⟩
  rw [ht, lines_join _ (fun k hk => hno k (by simp [hk])) (hno l (by simp)) hne, filled_append,
    filled_readBack, List.append_cancel_right hfilled, hl, hend]

/-- The lines of the text that comes out that hold something: those of the
program, of which the ended ones are read back. -/
theorem filled_eq (h : Pass o s t es last a) :
    ∃ rest, filled (Text.lines s) = filled (endedLines s) ++ rest ∧
      filled (Text.lines t) = (filled (endedLines s)).map (readBack o.lineEnding) ++ rest := by
  cases hc : a.endsBlank with
  | true =>
    have hend := filled_endedLines (h.endsBlank ▸ hc)
    exact ⟨[], by rw [hend, List.append_nil], by rw [h.filled_closed hc, hend, List.append_nil]⟩
  | false =>
    by_cases hs : s = []
    · obtain rfl := h.nil_of_nil hc hs
      subst hs
      exact ⟨[], rfl, rfl⟩
    · obtain ⟨l, h1, h2⟩ := h.filled_open hc hs
      exact ⟨[l], h1, h2⟩

end Pass

/-- The lines that hold something stay as they were exactly if lines are ended
by a carriage return and a newline, or no such line of the program that a newline
ends has a carriage return at its own end. -/
theorem filled_eq_iff {o : Options} {s t : Text} (h : normalize o s = .ok t) :
    filled (Text.lines t) = filled (Text.lines s) ↔ o.lineEnding = .crlf ∨
      ∀ l ∈ endedLines s, isBlank l = true ∨ l.getLast? ≠ some '\r' := by
  obtain ⟨es, last, a, hp⟩ := exists_pass h
  obtain ⟨rest, hs, ht⟩ := hp.filled_eq
  rw [hs, ht, List.append_cancel_right_eq, map_readBack_eq_iff]
  refine or_congr_right ⟨fun hall l hl => ?_, fun hall l hl => ?_⟩
  · cases hb : isBlank l with
    | true => exact Or.inl rfl
    | false => exact Or.inr (hall l (mem_filled.2 ⟨hl, hb⟩))
  · obtain ⟨hl, hb⟩ := mem_filled.1 hl
    rcases hall l hl with hlb | hr
    · rw [hb] at hlb
      cases hlb
    · exact hr

theorem filled_ne_of_return :
    normalize ⟨.lf, true⟩ "x\r\r\ny".toList = .ok "x\r\ny".toList ∧
      filled (Text.lines "x\r\ny".toList) ≠ filled (Text.lines "x\r\r\ny".toList) := by
  have h : normalize ⟨.lf, true⟩ "x\r\r\ny".toList = .ok "x\r\ny".toList := by
    simp only [normalize, analyse, clean, tokensOf, tokenize, tokenizeWith, Lexeme.scan_eq_scanIn]
    decide +kernel
  refine ⟨h, fun hf => ?_⟩
  have hlost := (filled_eq_iff h).1 hf
  revert hlost
  decide

end Offside
