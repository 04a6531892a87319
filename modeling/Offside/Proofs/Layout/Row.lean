import Offside.Proofs.Lexeme.Reline

/-!
# Rows

The lexemes of a text fall into rows. A row runs up to a newline, to a backslash
that joins the next row to it, or to the end of the text. Within it a line can
only end inside a literal. What may follow a row does not depend on the row, so
rows can be taken out, put in, and given other line endings.

Results:
* `exists_sheet`: a text that is cut to its end is a sheet of rows;
* `scan_sheet`: rows put together are cut as they were.
-/
namespace Offside

open Lexeme

/-- How a row ends: with a newline, with a backslash that joins the next row to
it, or with the text. -/
inductive Exit where
  | newline
  | joined
  | last
  deriving DecidableEq, Repr

namespace Exit

/-- What stands before the white space at the end of a row. -/
def glyph : Exit → Text
  | .joined => ['\\']
  | .newline | .last => []

/-- What ends a row. -/
def stop : Exit → Text
  | .last => []
  | .newline | .joined => ['\n']

/-- White space as lexemes. -/
def gap (w : Text) : List Lexeme := if w = [] then [] else [⟨.space, w⟩]

/-- The lexemes at the end of a row, where `w` stands before its newline. -/
def lexemes (w : Text) : Exit → List Lexeme
  | .newline => if w = ['\r'] then [⟨.newline, ['\r', '\n']⟩] else gap w ++ [⟨.newline, ['\n']⟩]
  | .joined => [⟨.continuation, '\\' :: (w ++ ['\n'])⟩]
  | .last => gap w

/-- What can stand at the end of a row: white space that is not part of the
core, or a carriage return at most. -/
def Fits (core : List Lexeme) (w : Text) : Exit → Prop
  | .newline | .last => ∀ l ∈ core.getLast?, l.kind ≠ .space
  | .joined => w = [] ∨ w = ['\r']

/-- The end of a row that is written anew; the text goes on behind a closed one. -/
def recast (closed : Bool) : Exit → Exit
  | .joined => .joined
  | .newline | .last => if closed then .newline else .last

end Exit

/-- A row: its lexemes up to its end, the white space at its end, and how it
ends. -/
structure Row where
  core : List Lexeme
  trail : Text
  exit : Exit
  inner : ∀ l ∈ core, l.kind.isInner = true
  spaces : ∀ c ∈ trail, isSpace c = true
  fits : exit.Fits core trail
  cut : Cut (exit.glyph ++ (trail ++ exit.stop)) core

namespace Row

/-- The characters of a row. -/
def text (row : Row) : Text := textOf row.core ++ (row.exit.glyph ++ (row.trail ++ row.exit.stop))

/-- The lexemes of a row. -/
def lexemes (row : Row) : List Lexeme := row.core ++ row.exit.lexemes row.trail

/-- The lines of a row, without what ends them. -/
def lines (row : Row) : List Text := Text.lines row.text

/-- Whether the row holds nothing. -/
def isBlank (row : Row) : Bool := row.core.isEmpty && row.exit != .joined

end Row

/-- Rows that make a text: only the last of them is not ended, and none is empty. -/
def Sheet : List Row → Prop
  | [] => True
  | row :: rows => (rows ≠ [] → row.exit ≠ .last) ∧ row.text ≠ [] ∧ Sheet rows

/-- The characters of rows. -/
def sheetText (rows : List Row) : Text := rows.flatMap Row.text

/-- The lexemes of rows. -/
def sheetLexemes (rows : List Row) : List Lexeme := rows.flatMap Row.lexemes

/-! ## Rows put together -/

theorem Sheet.append {rows rows' : List Row} (h : Sheet rows) (hx : ∀ row ∈ rows, row.exit ≠ .last)
    (h' : Sheet rows') : Sheet (rows ++ rows') := by
  induction rows with
  | nil => exact h'
  | cons row rows ih =>
    obtain ⟨-, hne, hs⟩ := h
    exact ⟨fun _ => hx row (by simp), hne, ih hs fun q hq => hx q (by simp [hq])⟩

theorem Sheet.of_append {rows rows' : List Row} (h : Sheet (rows ++ rows')) : Sheet rows := by
  induction rows with
  | nil => trivial
  | cons row rows ih =>
    obtain ⟨hx, hne, hs⟩ := h
    exact ⟨fun hr => hx (List.append_ne_nil_of_left_ne_nil hr rows'), hne, ih hs⟩

theorem Sheet.insert {rows rows' : List Row} {row : Row} (h : Sheet (rows ++ rows'))
    (hx : ∀ q ∈ rows.getLast?, q.exit ≠ .last) (hne : row.text ≠ []) (hrow : row.exit ≠ .last) :
    Sheet (rows ++ row :: rows') := by
  induction rows with
  | nil => exact ⟨fun _ => hrow, hne, h⟩
  | cons q rows ih =>
    obtain ⟨hq, hqne, hs⟩ := h
    refine ⟨fun _ => ?_, hqne, ih hs fun k hk => ?_⟩
    · cases rows with
      | nil => exact hx q rfl
      | cons k rows => exact hq (by simp)
    · cases rows with
      | nil => cases hk
      | cons r rows => exact hx k (by simpa using hk)

/-! ## Cutting -/

@[simp] theorem Exit.textOf_gap (w : Text) : textOf (Exit.gap w) = w := by
  unfold Exit.gap
  split <;> simp_all [textOf]

theorem Exit.textOf_lexemes (x : Exit) (w : Text) :
    textOf (x.lexemes w) = x.glyph ++ (w ++ x.stop) := by
  cases x with
  | newline =>
    by_cases hw : w = ['\r']
    · subst hw; rfl
    · simp [Exit.lexemes, hw, Exit.glyph, Exit.stop]
  | joined => simp [Exit.lexemes, Exit.glyph, Exit.stop]
  | last => simp [Exit.lexemes, Exit.glyph, Exit.stop]

theorem Row.textOf_lexemes (row : Row) : textOf row.lexemes = row.text := by
  rw [Row.lexemes, Lexeme.textOf_append, Exit.textOf_lexemes, Row.text]

theorem textOf_sheetLexemes (rows : List Row) : textOf (sheetLexemes rows) = sheetText rows := by
  induction rows with
  | nil => rfl
  | cons row rows ih =>
    rw [sheetLexemes, List.flatMap_cons, Lexeme.textOf_append, row.textOf_lexemes]
    exact congrArg (row.text ++ ·) ih

theorem Exit.cut_gap {w after : Text} (hs : ∀ c ∈ w, isSpace c = true)
    (hn : ∀ c ∈ after.head?, isSpace c = false) (hr : w = ['\r'] → after.head? ≠ some '\n') :
    Cut after (Exit.gap w) := by
  unfold Exit.gap
  split
  · trivial
  · next hw => exact ⟨⟨hw, hs⟩, ⟨hn, hr⟩, trivial⟩

/-- The end of a row can be followed by anything, unless the text ends there. -/
theorem Exit.cut_lexemes {x : Exit} {core : List Lexeme} {w after : Text}
    (hs : ∀ c ∈ w, isSpace c = true) (hf : x.Fits core w) (ha : x = .last → after = []) :
    Cut after (x.lexemes w) := by
  cases x with
  | newline =>
    by_cases hw : w = ['\r']
    · rw [Exit.lexemes, if_pos hw]
      exact ⟨Or.inr rfl, trivial, trivial⟩
    · rw [Exit.lexemes, if_neg hw]
      refine cut_append.2 ⟨cut_gap hs ?_ (fun h => absurd h hw), Or.inl rfl, trivial, trivial⟩
      intro c hc
      cases hc
      rfl
  | joined =>
    refine ⟨?_, trivial, trivial⟩
    rcases hf with rfl | rfl
    · exact Or.inl rfl
    · exact Or.inr rfl
  | last =>
    rw [ha rfl]
    exact cut_gap hs (by simp) (by simp)

theorem Row.cut_lexemes (row : Row) {after : Text} (ha : row.exit = .last → after = []) :
    Cut after row.lexemes := by
  refine cut_append.2 ⟨?_, Exit.cut_lexemes row.spaces row.fits ha⟩
  rw [Exit.textOf_lexemes]
  apply row.cut.congr
  cases h : row.exit with
  | last => simp [ha h]
  | newline | joined => simp [Exit.glyph, Exit.stop, List.head?_append]

theorem cut_sheet {rows : List Row} (h : Sheet rows) : Cut [] (sheetLexemes rows) := by
  induction rows with
  | nil => trivial
  | cons row rows ih =>
    obtain ⟨hx, -, hs⟩ := h
    refine cut_append.2 ⟨row.cut_lexemes ?_, ih hs⟩
    intro hl
    cases rows with
    | nil => rfl
    | cons r rows => exact absurd hl (hx (by simp))

/-- Rows put together are cut as they were. -/
theorem scan_sheet {rows : List Row} (h : Sheet rows) :
    scan (sheetText rows) = ⟨sheetLexemes rows, none⟩ :=
  scan_eq_iff.2 ⟨(textOf_sheetLexemes rows).symm, cut_sheet h⟩

/-! ## Finding the rows of a text -/

/-- Before white space there is none: the two would have been one lexeme. -/
theorem not_space_of_cut {after : Text} {core : List Lexeme} {c : Char} (h : Cut after core)
    (hc : after.head? = some c) (hs : isSpace c = true) : ∀ l ∈ core.getLast?, l.kind ≠ .space := by
  intro l hl hk
  rw [← List.dropLast_append_getLast? l hl] at h
  obtain ⟨-, -, hclear, -⟩ := cut_append.1 h
  obtain ⟨kind, text⟩ := l
  subst hk
  have := hclear.1 c (by simpa using hc)
  rw [hs] at this
  cases this

theorem exists_gap {after : Text} {ls : List Lexeme} (h : Cut after ls) :
    ∃ core w, ls = core ++ Exit.gap w ∧ (∀ c ∈ w, isSpace c = true) ∧
      (∀ l ∈ core.getLast?, l.kind ≠ .space) ∧ (w = ['\r'] → after.head? ≠ some '\n') := by
  rcases List.eq_nil_or_concat ls with rfl | ⟨core, l, rfl⟩
  · exact ⟨[], [], rfl, by simp, by simp, by simp⟩
  rw [List.concat_eq_append] at h ⊢
  by_cases hk : l.kind = .space
  · obtain ⟨hcore, ⟨hv, hc, -⟩⟩ := cut_append.1 h
    obtain ⟨kind, w⟩ := l
    subst hk
    refine ⟨core, w, ?_, hv.2, ?_, fun hw => ?_⟩
    · simp [Exit.gap, hv.1]
    · obtain ⟨c, t, ht⟩ := List.exists_cons_of_ne_nil hv.1
      have ht' : w = c :: t := ht
      exact not_space_of_cut hcore (by simp [ht']) (hv.2 c (by simp [ht']))
    · exact hc.2 hw
  · refine ⟨core ++ [l], [], by simp [Exit.gap], by simp, ?_, by simp⟩
    intro k hkm
    have : l = k := by simpa using hkm
    exact this ▸ hk

theorem exists_row {ls : List Lexeme} (h : Cut [] ls) (hne : ls ≠ []) :
    ∃ (row : Row) (rest : List Lexeme), ls = row.lexemes ++ rest ∧
      (rest ≠ [] → row.exit ≠ .last) ∧ row.text ≠ [] := by
  obtain ⟨a, b, rfl, ha, hb⟩ : ∃ a b, ls = a ++ b ∧ (∀ l ∈ a, l.kind.isInner = true) ∧
      ∀ l ∈ b.head?, l.kind.isInner = false := by
    refine ⟨ls.takeWhile (·.kind.isInner), ls.dropWhile (·.kind.isInner),
      List.takeWhile_append_dropWhile.symm, ?_, ?_⟩
    · exact fun l hl => List.all_eq_true.1 List.all_takeWhile l hl
    · intro l hl
      have hd := List.head?_dropWhile_not (fun l : Lexeme => l.kind.isInner) ls
      rw [Option.mem_def.1 hl] at hd
      simpa using hd
  obtain ⟨hcut, hcutb⟩ := cut_append.1 h
  cases b with
  | nil =>
    obtain ⟨core, w, rfl, hw, hlast, -⟩ := exists_gap hcut
    obtain ⟨hcore, -⟩ := cut_append.1 hcut
    refine ⟨⟨core, w, .last, fun l hl => ha l (by simp [hl]), hw, hlast, ?_⟩, [], ?_, ?_, ?_⟩
    · rw [Exit.textOf_gap] at hcore
      simpa [Exit.glyph, Exit.stop] using hcore
    · simp [Row.lexemes, Exit.lexemes]
    · exact fun h => absurd rfl h
    · rw [← Row.textOf_lexemes]
      simp only [Row.lexemes, Exit.lexemes]
      intro ht
      cases hg : core ++ Exit.gap w with
      | nil => simp [hg] at hne
      | cons l ls =>
        rw [hg] at ht hcut
        exact hcut.1.ne_nil (List.append_eq_nil_iff.1 ht).1
  | cons l rest =>
    have hl := hb l rfl
    obtain ⟨hv, -, -⟩ := hcutb
    obtain ⟨kind, text⟩ := l
    cases kind with
    | newline =>
      rcases hv with rfl | rfl
      · obtain ⟨core, w, rfl, hw, hlast, hr⟩ := exists_gap hcut
        obtain ⟨hcore, -⟩ := cut_append.1 hcut
        have hwr : w ≠ ['\r'] := fun h => hr h rfl
        refine ⟨⟨core, w, .newline, fun l hl => ha l (by simp [hl]), hw, hlast, ?_⟩, rest, ?_, ?_, ?_⟩
        · rw [Exit.textOf_gap] at hcore
          apply hcore.congr
          cases w <;> simp [Exit.glyph, Exit.stop]
        · simp [Row.lexemes, Exit.lexemes, hwr]
        · simp
        · simp [Row.text, Exit.stop]
      · refine ⟨⟨a, ['\r'], .newline, ha, by simp [isSpace], ?_, ?_⟩, rest, ?_, ?_, ?_⟩
        · exact not_space_of_cut hcut rfl rfl
        · exact Cut.congr (by rfl) hcut
        · simp [Row.lexemes, Exit.lexemes]
        · simp
        · simp [Row.text]
    | continuation =>
      rcases hv with rfl | rfl
      · exact ⟨⟨a, [], .joined, ha, by simp, Or.inl rfl, Cut.congr (by rfl) hcut⟩, rest,
          by simp [Row.lexemes, Exit.lexemes], by simp, by simp [Row.text, Exit.stop]⟩
      · exact ⟨⟨a, ['\r'], .joined, ha, by simp [isSpace], Or.inr rfl,
          Cut.congr (by rfl) hcut⟩, rest,
          by simp [Row.lexemes, Exit.lexemes], by simp, by simp [Row.text, Exit.stop]⟩
    | space | comment | opener | closer | literal | word | punct => cases hl

theorem Row.lexemes_ne_nil {row : Row} (h : row.text ≠ []) : row.lexemes ≠ [] := by
  intro hl
  rw [← Row.textOf_lexemes, hl] at h
  exact h rfl

theorem exists_sheet_of_cut {ls : List Lexeme} (h : Cut [] ls) :
    ∃ rows, Sheet rows ∧ sheetLexemes rows = ls := by
  induction hn : ls.length using Nat.strongRecOn generalizing ls with
  | ind n ih =>
    by_cases hne : ls = []
    · subst hne; exact ⟨[], trivial, rfl⟩
    obtain ⟨row, rest, rfl, hx, ht⟩ := exists_row h hne
    have hlen := List.length_pos_iff.2 (Row.lexemes_ne_nil ht)
    obtain ⟨rows, hs, rfl⟩ := ih rest.length (by rw [← hn, List.length_append]; omega)
      (cut_append.1 h).2 rfl
    refine ⟨row :: rows, ⟨fun hr => hx ?_, ht, hs⟩, rfl⟩
    cases rows with
    | nil => exact absurd rfl hr
    | cons r rows =>
      intro hnil
      exact Row.lexemes_ne_nil hs.2.1 (List.append_eq_nil_iff.1 hnil).1

/-- A text that is cut to its end is a sheet of rows. -/
theorem exists_sheet {t : Text} (h : (scan t).stop? = none) :
    ∃ rows, Sheet rows ∧ sheetText rows = t := by
  have hs : scan t = ⟨(scan t).lexemes, none⟩ := by rw [← h]
  obtain ⟨ht, hc⟩ := scan_eq_iff.1 hs
  obtain ⟨rows, hsheet, hrows⟩ := exists_sheet_of_cut hc
  exact ⟨rows, hsheet, by rw [← textOf_sheetLexemes, hrows, ← ht]⟩

end Offside
