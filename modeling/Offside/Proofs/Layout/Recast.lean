import Offside.Normalize
import Offside.Proofs.Layout.Row

/-!
# Rows written anew

Cutting a text into lines and joining them with a line ending writes every row
anew. What ends its lines changes, and the carriage returns before that, and
nothing else. `Row.recast` is the row that comes out.

Results:
* `text_recast_closed`, `text_recast_open`: the row that comes out is written
  from the lines of the row;
* `advance_row`: the next row begins as many lines below as the row has;
* `sheetText_rewrite`: rows written anew are their lines assembled.
-/
namespace Offside

open Lexeme Text

namespace Exit

/-- What a line ending writes before the newline of a row. -/
def lead (e : LineEnding) : Exit → Text
  | .last => []
  | .newline | .joined => e.lead

end Exit

namespace Row

/-- What is left of the white space at the end of a row when its last line has
lost its ending. -/
def kept (row : Row) : Text :=
  match row.exit with
  | .newline => trimReturn row.trail
  | .joined => []
  | .last => row.trail

theorem kept_isPrefix (row : Row) : row.kept <+: row.trail := by
  unfold kept
  split
  · exact trimReturn_isPrefix _
  · exact List.nil_prefix
  · exact List.prefix_refl _

theorem isSpace_of_mem_lead {e : LineEnding} {x : Exit} : ∀ c ∈ x.lead e, isSpace c = true := by
  intro c hc
  cases e <;> cases x <;> simp [Exit.lead, LineEnding.lead] at hc <;> exact hc ▸ rfl

theorem isSpace_of_mem_kept (row : Row) : ∀ c ∈ row.kept, isSpace c = true :=
  fun c hc => row.spaces c (row.kept_isPrefix.subset hc)

theorem recast_trail (row : Row) (e : LineEnding) (closed : Bool) :
    ∀ c ∈ row.kept ++ (row.exit.recast closed).lead e, isSpace c = true := by
  intro c hc
  rcases List.mem_append.1 hc with hc | hc
  · exact row.isSpace_of_mem_kept c hc
  · exact isSpace_of_mem_lead c hc

theorem recast_fits (row : Row) (e : LineEnding) (closed : Bool) :
    (row.exit.recast closed).Fits (row.core.map (Lexeme.reline e))
      (row.kept ++ (row.exit.recast closed).lead e) := by
  have hlast : (∀ l ∈ row.core.getLast?, l.kind ≠ .space) →
      ∀ l ∈ (row.core.map (Lexeme.reline e)).getLast?, l.kind ≠ .space := by
    intro h l hl
    rw [List.getLast?_map] at hl
    obtain ⟨k, hk, rfl⟩ := Option.map_eq_some_iff.1 hl
    exact h k hk
  have hfits := row.fits
  cases hx : row.exit with
  | joined =>
    simp only [Exit.recast, kept, hx, Exit.lead, List.nil_append]
    cases e
    · exact Or.inl rfl
    · exact Or.inl rfl
    · exact Or.inr rfl
  | newline | last =>
    rw [hx] at hfits
    cases closed <;> exact hlast hfits

theorem recast_cut (row : Row) (e : LineEnding) (closed : Bool) :
    Cut ((row.exit.recast closed).glyph ++
        (row.kept ++ (row.exit.recast closed).lead e ++ (row.exit.recast closed).stop))
      (row.core.map (Lexeme.reline e)) := by
  refine Cut.reline e ?_ row.inner
  have hcut := row.cut
  have hfits := row.fits
  have hpre := row.kept_isPrefix
  cases hx : row.exit with
  | joined =>
    rw [hx] at hcut
    exact Cut.congr (by rfl) hcut
  | newline | last =>
    rw [hx] at hcut hfits
    cases hk : row.kept with
    | cons c w =>
      obtain ⟨u, hu⟩ := hpre
      rw [hk] at hu
      refine Cut.congr ?_ hcut
      rw [← hu]
      cases closed <;> rfl
    | nil =>
      apply Cut.replace hcut row.inner hfits
      intro c hc
      cases closed <;> cases e <;>
        simp [Exit.recast, Exit.glyph, Exit.lead, Exit.stop, LineEnding.lead] at hc <;>
        simp [← hc]

/-- The row with its line endings rewritten; the text goes on behind a closed
one. -/
def recast (e : LineEnding) (closed : Bool) (row : Row) : Row where
  core := row.core.map (Lexeme.reline e)
  trail := row.kept ++ (row.exit.recast closed).lead e
  exit := row.exit.recast closed
  inner := by
    intro l hl
    obtain ⟨k, hk, rfl⟩ := List.mem_map.1 hl
    exact row.inner k hk
  spaces := row.recast_trail e closed
  fits := row.recast_fits e closed
  cut := row.recast_cut e closed

@[simp] theorem recast_isBlank (e : LineEnding) (closed : Bool) (row : Row) :
    (row.recast e closed).isBlank = row.isBlank := by
  have hx : (row.exit.recast closed != .joined) = (row.exit != .joined) := by
    cases row.exit <;> cases closed <;> rfl
  simp [isBlank, recast, hx]

/-! ## Lines of a row -/

theorem newline_not_mem_spaces {w : Text} (h : ∀ c ∈ w, isSpace c = true) : '\n' ∉ w :=
  newline_not_mem_of_all rfl h

theorem getLast_core_ne_return (row : Row) (hx : row.exit ≠ .joined) :
    (textOf row.core).getLast? ≠ some '\r' := by
  have hfits : ∀ l ∈ row.core.getLast?, l.kind ≠ .space := by
    have := row.fits
    cases h : row.exit with
    | joined => exact absurd h hx
    | newline | last => rwa [h] at this
  rcases List.eq_nil_or_concat row.core with hc | ⟨core, l, hc⟩
  · simp [hc]
  rw [List.concat_eq_append] at hc
  have hcut := row.cut
  rw [hc] at hcut hfits ⊢
  obtain ⟨-, hv, -⟩ := cut_append.1 hcut
  rw [Lexeme.textOf_append, textOf_cons, textOf_nil, List.append_nil,
    List.getLast?_append_of_ne_nil _ hv.ne_nil]
  exact hv.getLast_ne_return (row.inner l (by simp [hc])) (hfits l (by simp))

theorem ended_text {row : Row} (h : row.exit ≠ .last) : Ended row.text := by
  cases hx : row.exit with
  | last => exact absurd hx h
  | newline | joined => simp [Ended, text, hx, Exit.stop, ← List.append_assoc]

theorem lines_text_append {row : Row} (h : row.exit ≠ .last) (t : Text) :
    Text.lines (row.text ++ t) = row.lines ++ Text.lines t :=
  lines_append (ended_text h) t

/-- The next row begins as many lines below as the row has. -/
theorem advance_row {row : Row} (h : row.exit ≠ .last) (n : Nat) :
    Place.advance ⟨n, []⟩ row.text = ⟨n + row.lines.length, []⟩ :=
  advance_of_ended (ended_text h) n

theorem text_recast_of_ended {row : Row} (e : LineEnding) (h : row.exit ≠ .last) :
    (row.recast e true).text = Text.reline e.text row.text := by
  have hcore := reline_textOf e row.cut row.inner
  have hw := newline_not_mem_spaces row.spaces
  cases hx : row.exit with
  | last => exact absurd hx h
  | newline =>
    have hr := row.getLast_core_ne_return (by simp [hx])
    rw [text, text, hx, reline_append (fun hl => absurd hl hr), hcore]
    simp [recast, Exit.recast, Exit.glyph, Exit.stop, Exit.lead, kept, hx, reline_line hw,
      LineEnding.text_eq]
  | joined =>
    have hfits := row.fits
    rw [hx] at hfits
    rw [text, text, hx, reline_append (by simp [Exit.glyph]), hcore]
    rcases hfits with hf | hf <;>
      simp [recast, Exit.recast, Exit.glyph, Exit.stop, Exit.lead, kept, hx, hf, Text.reline,
        LineEnding.text_eq]

theorem getLast_text_ne_newline {row : Row} (h : row.exit = .last) :
    row.text.getLast? ≠ some '\n' := by
  have ht : row.text = textOf row.core ++ row.trail := by
    simp [text, h, Exit.glyph, Exit.stop]
  intro hl
  by_cases hw : row.trail = []
  · rw [ht, hw, List.append_nil] at hl
    rcases List.eq_nil_or_concat row.core with hc | ⟨core, l, hc⟩
    · simp [hc] at hl
    rw [List.concat_eq_append] at hc
    have hcut := row.cut
    rw [hc] at hcut hl
    obtain ⟨-, hv, -⟩ := cut_append.1 hcut
    rw [Lexeme.textOf_append, textOf_cons, textOf_nil, List.append_nil,
      List.getLast?_append_of_ne_nil _ hv.ne_nil] at hl
    exact hv.getLast_ne_newline (row.inner l (by simp [hc])) hl
  · rw [ht, List.getLast?_append_of_ne_nil _ hw] at hl
    exact newline_not_mem_spaces row.spaces (List.mem_of_getLast? hl)

/-- A row written anew, its last line ended, is its lines each ended. -/
theorem text_recast_closed {row : Row} (e : LineEnding) (hne : row.text ≠ []) :
    (row.recast e true).text = row.lines.flatMap (· ++ e.text) := by
  by_cases hx : row.exit = .last
  · have hl := getLast_text_ne_newline hx
    have ht : row.text = textOf row.core ++ row.trail := by
      simp [text, hx, Exit.glyph, Exit.stop]
    have hr := row.getLast_core_ne_return (by simp [hx])
    rw [lines, flatMap_lines_of_open _ hne hl, ht, reline_append (fun h => absurd h hr),
      reline_textOf e row.cut row.inner,
      reline_of_no_newline (newline_not_mem_spaces row.spaces)]
    simp [text, recast, Exit.recast, Exit.glyph, Exit.stop, Exit.lead, kept, hx, LineEnding.text_eq]
  · rw [text_recast_of_ended e hx, lines, flatMap_lines e.text (ended_text hx)]

theorem lines_ne_nil {row : Row} (hne : row.text ≠ []) : row.lines ≠ [] := Text.lines_ne_nil hne

/-- A row written anew, its last line open, is its lines joined. -/
theorem text_recast_open {row : Row} (e : LineEnding) (hne : row.text ≠ [])
    (hx : row.exit ≠ .joined) : (row.recast e false).text = join e.text row.lines := by
  have hclosed : (row.recast e false).text ++ e.text = (row.recast e true).text := by
    cases h : row.exit with
    | joined => exact absurd h hx
    | newline | last =>
      simp [text, recast, Exit.recast, h, Exit.glyph, Exit.stop, Exit.lead, kept, LineEnding.text_eq]
  rw [text_recast_closed e hne, ← join_append _ (lines_ne_nil hne)] at hclosed
  exact List.append_cancel_right hclosed

theorem lines_recast {row : Row} (e : LineEnding) (hne : row.text ≠ []) :
    (row.recast e true).lines = row.lines.map (readBack e) := by
  have hno : ∀ l ∈ row.lines, '\n' ∉ l := fun l hl => not_newline_mem_of_mem_lines hl
  have h := lines_flatMap e hno []
  rw [List.append_nil] at h
  rw [lines, text_recast_closed e hne, h]
  simp [Text.lines, linesFrom]

theorem text_recast_ne_nil {row : Row} (e : LineEnding) (closed : Bool) (hne : row.text ≠ [])
    (h : closed = false → row.isBlank = false) : (row.recast e closed).text ≠ [] := by
  cases closed with
  | true =>
    rw [text_recast_closed e hne]
    obtain ⟨l, ls, hl⟩ := List.exists_cons_of_ne_nil (lines_ne_nil hne)
    rw [hl]
    cases e <;> simp [LineEnding.text]
  | false =>
    cases hx : row.exit with
    | joined => simp [text, recast, Exit.recast, hx, Exit.stop]
    | newline | last =>
      obtain ⟨l, ls, hl⟩ : ∃ l ls, row.core = l :: ls := by
        apply List.exists_cons_of_ne_nil
        intro hc
        have := h rfl
        simp [isBlank, hc, hx] at this
      have hcut := row.cut
      rw [hl] at hcut
      obtain ⟨c, t, u, -, hu, -⟩ := hcut.1.head_reline e (row.inner l (by simp [hl]))
      simp [text, recast, hl, hu]

theorem lines_recast_open {row : Row} (e : LineEnding) (hne : row.text ≠ [])
    (hb : row.isBlank = false) (hx : row.exit ≠ .joined) :
    ∃ ls l, row.lines = ls ++ [l] ∧ (row.recast e false).lines = ls.map (readBack e) ++ [l] := by
  have hopen : ∀ e : LineEnding, (row.recast e false).exit = .last := by
    intro e
    cases h : row.exit with
    | joined => exact absurd h hx
    | newline | last => simp [recast, Exit.recast, h]
  obtain ⟨ls, l, hl⟩ : ∃ ls l, row.lines = ls ++ [l] :=
    ⟨_, _, (List.dropLast_append_getLast (lines_ne_nil hne)).symm⟩
  have hno : ∀ k ∈ row.lines, '\n' ∉ k := fun k hk => not_newline_mem_of_mem_lines hk
  -- an empty last line would end the row written anew by a newline
  have hlne : l ≠ [] := by
    intro heq; subst heq
    have ht := text_recast_open .lf hne hx
    rw [hl, join_concat, List.append_nil] at ht
    have hlast := getLast_text_ne_newline (hopen .lf)
    have htext := text_recast_ne_nil .lf false hne fun _ => hb
    rw [ht] at hlast htext
    obtain ⟨ks, k, rfl⟩ : ∃ ks k, ls = ks ++ [k] := by
      refine ⟨_, _, (List.dropLast_append_getLast (l := ls) ?_).symm⟩
      intro heq; subst heq
      exact htext rfl
    simp [LineEnding.text] at hlast
  refine ⟨ls, l, hl, ?_⟩
  rw [lines, text_recast_open e hne hx, hl,
    lines_join e (fun k hk => hno k (by simp [hl, hk])) (hno l (by simp [hl])) hlne]

theorem length_lines_recast_open {row : Row} (e : LineEnding) (hne : row.text ≠ [])
    (hb : row.isBlank = false) (hx : row.exit ≠ .joined) :
    (row.recast e false).lines.length = row.lines.length := by
  obtain ⟨ls, l, hl, hr⟩ := lines_recast_open e hne hb hx
  rw [hl, hr]
  simp

end Row

/-! ## Sheets -/

/-- Rows written anew; the text goes on behind the last if it is closed. -/
def rewrite (e : LineEnding) (closed : Bool) : List Row → List Row
  | [] => []
  | row :: rows => row.recast e (closed || !rows.isEmpty) :: rewrite e closed rows

theorem sheet_text_ne_nil {rows : List Row} (h : Sheet rows) : ∀ row ∈ rows, row.text ≠ [] := by
  induction rows with
  | nil => simp
  | cons row rows ih =>
    intro r hr
    rcases List.mem_cons.1 hr with rfl | hr
    · exact h.2.1
    · exact ih h.2.2 r hr

theorem ended_sheetText {rows : List Row} (h : ∀ row ∈ rows.getLast?, row.exit ≠ .last) :
    Ended (sheetText rows) := by
  rcases List.eq_nil_or_concat rows with rfl | ⟨rows, row, rfl⟩
  · exact ended_nil
  · have hrow := h row (by simp)
    have htext : sheetText (rows.concat row) = sheetText rows ++ row.text := by simp [sheetText]
    rw [htext]
    cases hx : row.exit with
    | last => exact absurd hx hrow
    | newline | joined => simp [Ended, Row.text, hx, Exit.stop, ← List.append_assoc]

theorem flatMap_lines_ne_nil {rows : List Row} (h : ∀ row ∈ rows, row.text ≠ []) (hne : rows ≠ []) :
    rows.flatMap Row.lines ≠ [] := by
  cases rows with
  | nil => exact absurd rfl hne
  | cons row rows =>
    have := Row.lines_ne_nil (h row (by simp))
    simp [this]

theorem mem_rewrite {e : LineEnding} {closed : Bool} {rows : List Row} {row : Row}
    (h : row ∈ rewrite e closed rows) : ∃ q ∈ rows, ∃ d, row = q.recast e d := by
  induction rows with
  | nil => cases h
  | cons q rows ih =>
    rcases List.mem_cons.1 h with rfl | h
    · exact ⟨q, by simp, _, rfl⟩
    · obtain ⟨q', hq, d, hd⟩ := ih h
      exact ⟨q', by simp [hq], d, hd⟩

/-- Rows written anew are their lines assembled. -/
theorem sheetText_rewrite {e : LineEnding} {closed : Bool} {rows : List Row}
    (h : ∀ row ∈ rows, row.text ≠ []) (hne : rows ≠ [])
    (hj : closed = false → ∀ row ∈ rows.getLast?, row.exit ≠ .joined) :
    sheetText (rewrite e closed rows) = assemble e closed (rows.flatMap Row.lines) := by
  induction rows with
  | nil => exact absurd rfl hne
  | cons row rows ih =>
    have hrow := h row (by simp)
    have hrows : ∀ r ∈ rows, r.text ≠ [] := fun r hr => h r (by simp [hr])
    by_cases hr : rows = []
    · subst hr
      cases closed with
      | true =>
        simp [sheetText, rewrite, assemble, Row.text_recast_closed e hrow,
          join_append _ (Row.lines_ne_nil hrow)]
      | false =>
        simp [sheetText, rewrite, assemble, Row.text_recast_open e hrow (hj rfl row (by simp))]
    · have ih' := ih hrows hr (by rwa [List.getLast?_cons_of_ne_nil hr] at hj)
      have hemp : rows.isEmpty = false := by simpa using hr
      rw [rewrite, sheetText, List.flatMap_cons, hemp, Bool.not_false, Bool.or_true,
        Row.text_recast_closed e hrow, ← sheetText, ih', List.flatMap_cons, assemble, assemble,
        join_append_of_ne_nil _ _ (flatMap_lines_ne_nil hrows hr), List.append_assoc]

/-- Rows that are written anew make a sheet, unless the last was to be left open
and holds nothing. -/
theorem sheet_rewrite {e : LineEnding} {closed : Bool} {rows : List Row}
    (h : ∀ row ∈ rows, row.text ≠ [])
    (hlast : closed = false → ∀ row ∈ rows.getLast?, row.isBlank = false) :
    Sheet (rewrite e closed rows) := by
  induction rows with
  | nil => trivial
  | cons row rows ih =>
    have hrow := h row (by simp)
    refine ⟨fun hne => ?_, Row.text_recast_ne_nil e _ hrow fun hc => ?_, ?_⟩
    · cases rows with
      | nil => exact absurd rfl hne
      | cons r rows => cases hx : row.exit <;> simp [Row.recast, Exit.recast, hx]
    · cases rows with
      | nil => exact hlast (by simpa using hc) row (by simp)
      | cons r rows => simp at hc
    · refine ih (fun r hr => h r (by simp [hr])) fun hc r hr => hlast hc r ?_
      rw [List.getLast?_cons, hr]
      rfl

theorem lengths_rewrite {e : LineEnding} {closed : Bool} {rows : List Row}
    (h : ∀ row ∈ rows, row.text ≠ [])
    (hlast : closed = false → ∀ row ∈ rows.getLast?, row.isBlank = false ∧ row.exit ≠ .joined) :
    (rewrite e closed rows).map (·.lines.length) = rows.map (·.lines.length) := by
  induction rows with
  | nil => rfl
  | cons row rows ih =>
    have hrow := h row (by simp)
    rw [rewrite, List.map_cons, List.map_cons, ih (fun r hr => h r (by simp [hr]))]
    · congr 1
      cases hc : closed || !rows.isEmpty with
      | true => rw [Row.lines_recast e hrow, List.length_map]
      | false =>
        simp only [Bool.or_eq_false_iff, Bool.not_eq_false', List.isEmpty_iff] at hc
        obtain ⟨hb, hx⟩ := hlast hc.1 row (by simp [hc.2])
        exact Row.length_lines_recast_open e hrow hb hx
    · intro hc r hr
      refine hlast hc r ?_
      rw [List.getLast?_cons, hr]
      rfl

end Offside
