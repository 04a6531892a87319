import Offside.Proofs.Layout.Log

/-!
# Taking blank rows out

A blank row is one line, gives one blank line token and changes no state. So the
lines that the tokens of a sheet mark blank are its blank rows, and without
them the machine reads the other rows as it did.

Results:
* `lay_split`: a blank line of a log is all that a blank row gives;
* `removeBlankLines_sheet`: what is left of the lines of a sheet are those of
  the rows that hold something;
* `Reads.solid`: the log of these rows is the log without the blank ones.
-/
namespace Offside

open Lexeme Text Layout

/-- The row holds something. -/
def Row.isSolid (row : Row) : Bool := !row.isBlank

/-- The row of the entry holds something. -/
def Entry.isSolid (e : Entry) : Bool := e.row.isSolid

theorem isBlankChar_of_isSpace {c : Char} (h : isSpace c = true) : isBlankChar c = true := by
  rcases isSpace_cases h with rfl | rfl | rfl | rfl <;> rfl

/-- The line holds nothing that is not passed over between lexemes. -/
def Vacant (l : Text) : Prop := ∀ c ∈ l, isSpace c = true

instance (l : Text) : Decidable (Vacant l) :=
  inferInstanceAs (Decidable (∀ c ∈ l, isSpace c = true))

theorem Vacant.isBlank {l : Text} (h : Vacant l) : isBlank l = true :=
  List.all_eq_true.2 fun c hc => isBlankChar_of_isSpace (h c hc)

theorem lines_of_blank {row : Row} (hb : row.isBlank = true) (hne : row.text ≠ []) :
    ∃ l, row.lines = [l] ∧ Vacant l := by
  rw [Row.isBlank, Bool.and_eq_true, List.isEmpty_iff, bne_iff_ne] at hb
  obtain ⟨hcore, hx⟩ := hb
  have hno := Row.newline_not_mem_spaces row.spaces
  cases h : row.exit with
  | joined => exact absurd h hx
  | newline =>
    refine ⟨trimReturn row.trail, ?_, fun c hc =>
      row.spaces c ((trimReturn_isPrefix _).subset hc)⟩
    have ht : row.text = row.trail ++ '\n' :: [] := by
      simp [Row.text, hcore, h, Exit.glyph, Exit.stop]
    rw [Row.lines, ht, lines_line hno]
    rfl
  | last =>
    have ht : row.text = row.trail := by
      simp [Row.text, hcore, h, Exit.glyph, Exit.stop]
    rw [ht] at hne
    exact ⟨row.trail, by rw [Row.lines, ht, lines_of_no_newline hno hne], row.spaces⟩

theorem lines_sheet {rows : List Row} (h : Sheet rows) :
    Text.lines (sheetText rows) = rows.flatMap Row.lines := by
  induction rows with
  | nil => rfl
  | cons row rows ih =>
    obtain ⟨hx, -, hs⟩ := h
    by_cases hne : rows = []
    · subst hne
      simp [sheetText, Row.lines]
    · rw [sheetText, List.flatMap_cons, Row.lines_text_append (hx hne), List.flatMap_cons, ← ih hs]
      rfl

/-! ## The lines that are marked -/

/-- The lines of blank rows, where the first row begins on line `n`. -/
def blankLines : Nat → List Row → List Nat
  | _, [] => []
  | n, row :: rows => (if row.isBlank then [n] else []) ++ blankLines (n + row.lines.length) rows

theorem le_of_mem_blankLines {rows : List Row} {n k : Nat} (h : k ∈ blankLines n rows) : n ≤ k := by
  induction rows generalizing n with
  | nil => cases h
  | cons row rows ih =>
    rcases List.mem_append.1 h with h | h
    · split at h
      · exact Nat.le_of_eq (List.mem_singleton.1 h).symm
      · cases h
    · have := ih h
      omega

theorem pairwise_blankLines {rows : List Row} (h : ∀ row ∈ rows, row.text ≠ []) (n : Nat) :
    (blankLines n rows).Pairwise (· < ·) := by
  induction rows generalizing n with
  | nil => exact .nil
  | cons row rows ih =>
    have hlen := List.length_pos_iff.2 (Row.lines_ne_nil (h row (by simp)))
    have hrest := ih (fun r hr => h r (by simp [hr])) (n + row.lines.length)
    unfold blankLines
    split
    · refine List.pairwise_cons.2 ⟨fun k hk => ?_, hrest⟩
      have := le_of_mem_blankLines hk
      omega
    · exact hrest

section log

variable {r : Ruler} {s last : Layout} {es : List Entry}

theorem strip_spec (h : Reads r s es last) (hh : s.lineHeld = false) : ∀ e ∈ es,
    if e.row.isBlank then
      e.before.joined? = none ∧ e.strip = [blankLine (e.row.exit.piece e.row.trail ⟨0, []⟩).start]
    else ∀ t ∈ e.strip, t.kind ≠ .blankLine := by
  induction h with
  | nil => simp
  | cons hr _ ih =>
    intro e he
    rcases List.mem_cons.1 he with rfl | he
    · split
      · next hb =>
        obtain ⟨hj, -, ht⟩ := (read_blank hb hh).1 hr
        exact ⟨hj, ht⟩
      · next hb => exact (read_solid (by simpa using hb) hr).1
    · exact ih (read_rested hr) e he

theorem isBlankLineMarker_lay (h : Reads r s es last) (hh : s.lineHeld = false) (n : Nat) :
    ∀ t ∈ lay n es, t.isBlankLineMarker = (t.kind == .blankLine) := by
  intro t ht
  obtain ⟨e, he, u, hu, k, -, rfl⟩ := mem_lay ht
  have hspec := strip_spec h hh e he
  split at hspec
  · rw [hspec.2] at hu
    rw [List.mem_singleton.1 hu]
    simp [Token.isBlankLineMarker, Token.down, blankLine, Position.down, Place.lineStart,
      Place.position]
  · simp [Token.isBlankLineMarker, hspec u hu]

theorem blankMarkers_strip {e : Entry} (h : Reads r s [e] last) (hh : s.lineHeld = false) (n : Nat) :
    ((e.strip.map (Token.down n)).filter (·.isBlankLineMarker)).map (·.start.line) =
      if e.row.isBlank then [n] else [] := by
  have hspec := strip_spec h hh e (by simp)
  split
  · next hb =>
    rw [if_pos hb] at hspec
    have hline := line_piece (x := e.row.exit) e.row.spaces ⟨0, []⟩
    rw [hspec.2]
    simp [Token.isBlankLineMarker, Token.down, blankLine, Place.lineStart, Place.position,
      Position.down, hline]
  · next hb =>
    rw [if_neg hb] at hspec
    rw [List.map_eq_nil_iff, List.filter_eq_nil_iff]
    intro t ht
    obtain ⟨u, hu, rfl⟩ := List.mem_map.1 ht
    simp [Token.isBlankLineMarker, hspec u hu]

theorem blankMarkers_lay (h : Reads r s es last) (hh : s.lineHeld = false) (n : Nat) :
    ((lay n es).filter (·.isBlankLineMarker)).map (·.start.line) =
      blankLines n (es.map (·.row)) := by
  induction h generalizing n with
  | nil => rfl
  | cons hr _ ih =>
    rw [lay, List.filter_append, List.map_append, blankMarkers_strip (.cons hr (.nil _)) hh,
      ih (read_rested hr)]
    rfl

theorem blankLine_not_mem_closing (p : Position) : ∀ t ∈ closing s p, t.kind ≠ .blankLine := by
  intro t ht
  rcases mem_closing ht with rfl | rfl <;> simp [Token.mark]

theorem blankLineNumbers_log (h : Reads r s es last) (hh : s.lineHeld = false)
    (hne : ∀ row ∈ es.map (·.row), row.text ≠ []) (n : Nat) (p : Position) :
    blankLineNumbers (lay n es ++ closing last p) = blankLines n (es.map (·.row)) := by
  have hc : (closing last p).filter (·.isBlankLineMarker) = [] := by
    rw [List.filter_eq_nil_iff]
    intro t ht
    simp [Token.isBlankLineMarker, blankLine_not_mem_closing p t ht]
  rw [blankLineNumbers, List.filter_append, hc, List.append_nil, blankMarkers_lay h hh,
    ascending_of_pairwise (pairwise_blankLines hne n)]

end log

/-- Blank lines come from blank rows alone. -/
theorem lay_split {n : Nat} {fs : List Entry} {closing before after : List Token} {b : Token}
    (hs : ∀ f ∈ fs, (f.isSolid = false ∧ ∃ t, f.strip = [t]) ∨ ∀ t ∈ f.strip, t.kind ≠ .blankLine)
    (hc : ∀ t ∈ closing, t.kind ≠ .blankLine) (hb : b.kind = .blankLine)
    (h : lay n fs ++ closing = before ++ b :: after) :
    ∃ ds f gs t, fs = ds ++ f :: gs ∧ f.isSolid = false ∧ f.strip = [t] ∧ before = lay n ds ∧
      b = t.down (n + height ds) ∧ after = lay (n + height ds + f.row.lines.length) gs ++ closing := by
  induction fs generalizing n before with
  | nil =>
    have hmem : b ∈ closing := by
      have : b ∈ lay n [] ++ closing := by simp [h]
      simpa [lay] using this
    exact absurd hb (hc b hmem)
  | cons f fs ih =>
    have htail : ∀ before', lay (n + f.row.lines.length) fs ++ closing = before' ++ b :: after →
        ∃ ds g gs t, f :: fs = (f :: ds) ++ g :: gs ∧ g.isSolid = false ∧ g.strip = [t] ∧
          f.strip.map (Token.down n) ++ before' = lay n (f :: ds) ∧
          b = t.down (n + height (f :: ds)) ∧
          after = lay (n + height (f :: ds) + g.row.lines.length) gs ++ closing := by
      intro before' hrest
      obtain ⟨ds, g, gs, t, rfl, hg, ht, rfl, hbt, hafter⟩ :=
        ih (fun k hk => hs k (by simp [hk])) hrest
      refine ⟨ds, g, gs, t, rfl, hg, ht, rfl, ?_, ?_⟩ <;>
        rw [height_cons, ← Nat.add_assoc] <;> assumption
    rw [lay, List.append_assoc] at h
    rcases hs f (by simp) with ⟨hf, t, ht⟩ | hkinds
    · rw [ht] at h
      cases before with
      | nil =>
        obtain ⟨hbt, hafter⟩ := List.cons.inj h
        exact ⟨[], f, fs, t, rfl, hf, ht, rfl, hbt.symm, hafter.symm⟩
      | cons x before =>
        obtain ⟨rfl, hrest⟩ := List.cons.inj h
        obtain ⟨ds, g, gs, u, hfs, hg, hu, hbefore, hbu, hafter⟩ := htail before hrest
        rw [ht] at hbefore
        exact ⟨f :: ds, g, gs, u, hfs, hg, hu, hbefore, hbu, hafter⟩
    · rcases List.append_eq_append_iff.1 h with ⟨before', rfl, hrest⟩ | ⟨rest, hstrip, hrest⟩
      · obtain ⟨ds, g, gs, u, hfs, hg, hu, hbefore, hbu, hafter⟩ := htail before' hrest
        exact ⟨f :: ds, g, gs, u, hfs, hg, hu, hbefore, hbu, hafter⟩
      · cases rest with
        | nil =>
          obtain ⟨ds, g, gs, u, hfs, hg, hu, hbefore, hbu, hafter⟩ := htail [] hrest.symm
          rw [List.append_nil] at hstrip hbefore
          exact ⟨f :: ds, g, gs, u, hfs, hg, hu, hstrip ▸ hbefore, hbu, hafter⟩
        | cons x rest =>
          obtain ⟨rfl, -⟩ := List.cons.inj hrest
          have hmem : b ∈ f.strip.map (Token.down n) := by rw [hstrip]; simp
          obtain ⟨u, hu, rfl⟩ := List.mem_map.1 hmem
          exact absurd hb (hkinds u hu)

/-! ## Removing them -/

theorem removeLine_append (pre : List Text) (l : Text) (post : List Text) :
    removeLine (pre.length + 1) (pre ++ l :: post) = pre ++ post := by
  rw [removeLine, if_pos (by omega), Nat.add_sub_cancel,
    List.eraseIdx_append_of_length_le (Nat.le_refl _)]
  simp

theorem foldr_removeLine {rows : List Row} (h : ∀ row ∈ rows, row.text ≠ []) (pre : List Text) :
    (blankLines (pre.length + 1) rows).foldr removeLine (pre ++ rows.flatMap Row.lines) =
      pre ++ (rows.filter Row.isSolid).flatMap Row.lines := by
  induction rows generalizing pre with
  | nil => rfl
  | cons row rows ih =>
    have ih' := ih (fun r hr => h r (by simp [hr])) (pre ++ row.lines)
    have hlen : pre.length + 1 + row.lines.length = (pre ++ row.lines).length + 1 := by
      rw [List.length_append]
      omega
    rw [blankLines, hlen, List.foldr_append, List.flatMap_cons, ← List.append_assoc, ih']
    by_cases hb : row.isBlank = true
    · obtain ⟨l, hl, -⟩ := lines_of_blank hb (h row (by simp))
      rw [if_pos hb, hl, List.filter_cons_of_neg (by simp [Row.isSolid, hb])]
      simp only [List.foldr_cons, List.foldr_nil, List.append_assoc, List.singleton_append]
      exact removeLine_append pre l _
    · rw [if_neg hb, List.filter_cons_of_pos (by simp [Row.isSolid, hb])]
      simp

/-- What is left of the lines of a sheet are those of the rows that hold
something. -/
theorem removeBlankLines_sheet {r : Ruler} {last : Layout} {es : List Entry}
    (h : Reads r .start es last) (hs : Sheet (es.map (·.row))) (p : Position) :
    removeBlankLines (Text.lines (sheetText (es.map (·.row)))) (lay 1 es ++ closing last p) =
      ((es.filter Entry.isSolid).map (·.row)).flatMap Row.lines := by
  have hne := sheet_text_ne_nil hs
  have hfold := foldr_removeLine hne []
  rw [removeBlankLines, blankLineNumbers_log h rfl hne, lines_sheet hs]
  simp only [List.nil_append, List.length_nil, Nat.zero_add] at hfold
  rw [hfold, List.filter_map]
  rfl

/-- The log of the rows that hold something is the log without the blank ones. -/
theorem Reads.solid {r : Ruler} {s last : Layout} {es : List Entry} (h : Reads r s es last)
    (hs : s.unplaced = s) (hh : s.lineHeld = false) :
    Reads r s (es.filter Entry.isSolid) last := by
  induction h with
  | nil => exact .nil _
  | @cons s m last row ts es hr _ ih =>
    have hm : m.unplaced = m := by
      obtain ⟨m', -, rfl⟩ := reads_eq_some.1 hr
      exact unplaced_unplaced m'
    have hrest := ih hm (read_rested hr)
    by_cases hb : row.isBlank = true
    · rw [List.filter_cons_of_neg (by simp [Entry.isSolid, Row.isSolid, hb])]
      obtain ⟨-, rfl, -⟩ := (read_blank hb hh).1 hr
      rwa [hs] at hrest
    · rw [List.filter_cons_of_pos (by simp [Entry.isSolid, Row.isSolid, hb])]
      exact .cons hr hrest

end Offside
