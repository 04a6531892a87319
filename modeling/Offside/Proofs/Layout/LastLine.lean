import Offside.Proofs.Layout.Vacant

/-!
# The last line

That a text ends with a blank line is seen twice: in its characters, where any white
space will do, and in its tokens, where a blank line is one that the machine passes
over. A last line of other white space is blank to a reader and code to the machine,
and nothing but such a line tells the two apart.

Results:
* `blankLine_last_iff`: the last line is marked blank exactly if it is vacant;
* `endsBlank_marked_iff`: where both agree that a text ends with a blank line.
-/
namespace Offside

open Lexeme Text Layout

/-- The last line is marked blank by a token. -/
def MarkedLast (s : Text) (ts : List Token) : Prop :=
  ∃ t ∈ ts, t.kind = .blankLine ∧ t.start.line = (Text.lines s).length

/-- No newline ends the last line, and it is white space, but not all of it is passed
over. -/
def ForeignLast (s : Text) : Prop :=
  s.getLast? ≠ some '\n' ∧ ∃ l ∈ (Text.lines s).getLast?, isBlank l = true ∧ ¬ Vacant l

theorem mem_markedLines {ts : List Token} {k : Nat} :
    k ∈ markedLines ts ↔ ∃ t ∈ ts, t.kind = .blankLine ∧ t.start.line = k := by
  simp [markedLines, and_assoc]

/-- The last line is marked blank exactly if it is vacant: nothing runs over it. -/
theorem blankLine_last_iff {s : Text} {ts : List Token} (h : tokenize s = .ok ts) :
    MarkedLast s ts ↔ ∃ l ∈ (Text.lines s).getLast?, Vacant l := by
  obtain ⟨es, last, hlog, rfl⟩ := exists_log h
  have hne := sheet_text_ne_nil hlog.sheet
  have hlines : Text.lines s = es.flatMap (·.row.lines) := by
    rw [← hlog.source, lines_sheet hlog.sheet, List.flatMap_map]
  have hmarked := markedLines_lay hlog.reads rfl 1 (Place.start.advance s).pastEnd
  rw [MarkedLast, ← mem_markedLines, hmarked, hlines]
  rcases List.eq_nil_or_concat (es.flatMap (·.row.lines)) with hnil | ⟨ls, l, hl⟩
  · refine iff_of_false (fun hmem => ?_) (by simp [hnil])
    have := le_of_mem_blankLines hmem
    rw [hnil, List.length_nil] at this
    omega
  · rw [List.concat_eq_append] at hl
    have hget : (es.flatMap (·.row.lines))[ls.length]? = some l := by simp [hl]
    have hbelow : ∀ t ∈ lay 1 es, ¬ t.Spans (1 + ls.length) := by
      intro t ht hs
      have hheight : height es = ls.length + 1 := by rw [height, hl]; simp
      have := ((lay_between hlog.reads hne 1).1 t ht).2.2
      have := hs.2
      omega
    rw [show (es.flatMap (·.row.lines)).length = 1 + ls.length by rw [hl]; simp; omega,
      mem_blankLines_iff hlog.reads hne hget, and_iff_left hbelow, hl]
    simp

/-- Where the characters and the tokens agree that a text ends with a blank line. A text
whose last line is marked blank, or that a newline ends, ends with a blank line, and
the other way round unless its last line is white space that is not passed over. -/
theorem endsBlank_marked_iff {s : Text} {ts : List Token} (h : tokenize s = .ok ts) :
    (s.endsBlank = true ↔ s.getLast? = some '\n' ∨ MarkedLast s ts) ↔ ¬ ForeignLast s := by
  have hblank : s.endsBlank = true ↔
      s.getLast? = some '\n' ∨ ∃ l ∈ (Text.lines s).getLast?, isBlank l = true := by
    rw [endsBlank, Bool.or_eq_true, beq_iff_eq, Option.any_eq_true]
    rfl
  rw [hblank, blankLine_last_iff h, ForeignLast]
  cases hlast : (Text.lines s).getLast? with
  | none => simp
  | some l =>
    have hvacant : Vacant l → isBlank l = true := Vacant.isBlank
    simp only [Option.mem_def, Option.some.injEq, exists_eq_left']
    tauto

/-- A no-break space alone on the last line: the text ends with a blank line, and its
tokens end with a line of code. -/
theorem endsBlank_marked_foreign :
    ∃ ts, tokenize "x\n\u00a0".toList = .ok ts ∧ (∀ t ∈ ts, t.kind ≠ .blankLine) ∧
      Text.endsBlank "x\n\u00a0".toList = true ∧ ForeignLast "x\n\u00a0".toList ∧
      ¬ (Text.endsBlank "x\n\u00a0".toList = true ↔
        "x\n\u00a0".toList.getLast? = some '\n' ∨ MarkedLast "x\n\u00a0".toList ts) := by
  have hok : tokenize "x\n\u00a0".toList = .ok [⟨.code, ⟨1, 0⟩, ⟨1, 1⟩, ['x']⟩,
      ⟨.newline, ⟨1, 1⟩, ⟨1, 2⟩, ['\n']⟩, ⟨.code, ⟨2, 0⟩, ⟨2, 2⟩, ['\u00a0']⟩,
      .mark .newline ⟨2, 2⟩, .mark .endMarker ⟨3, 0⟩] := by
    simp only [tokenize, tokenizeWith, scan_eq_scanIn]
    decide +kernel
  have hpassed : ¬ Vacant ['\u00a0'] := fun hv => Bool.false_ne_true (hv _ List.mem_cons_self)
  have hforeign : ForeignLast "x\n\u00a0".toList :=
    ⟨by decide, ['\u00a0'], by decide, by decide, hpassed⟩
  exact ⟨_, hok, by decide, by decide, hforeign, fun h => (endsBlank_marked_iff hok).1 h hforeign⟩

end Offside
