import Offside.Proofs.Normalize.Pass

/-!
# The text that comes out

The text that a pass brings out is a sheet whose rows are known: the rows that
hold something, written anew, with empty rows between them. It has tokens unless
an empty row stands behind a backslash, and its log is then the log of the
program, with a blank line for each empty row.

Results:
* `Pass.text_eq`: the text that comes out, as rows;
* `Pass.exists_output`: its log, if no separator stands behind a backslash;
* `tokenize_output_iff`: it has tokens exactly if none does;
* `joinedLines_sheet`: which lines of a text stand behind a backslash.
-/
namespace Offside

open Lexeme Text Layout

/-! ## Lines behind a backslash -/

/-- The lines of a text that a backslash joins to the line above. -/
def joinedLines (t : Text) : List Nat :=
  ((Piece.placed .start (scan t).lexemes).filter (·.kind == .continuation)).map (·.stop.line)

/-- The lines that continuations end among lexemes. -/
def joinedBy (p : Place) (ls : List Lexeme) : List Nat :=
  ((Piece.placed p ls).filter (·.kind == .continuation)).map (·.stop.line)

theorem joinedBy_append (p : Place) (ls ms : List Lexeme) :
    joinedBy p (ls ++ ms) = joinedBy p ls ++ joinedBy (p.advance (textOf ls)) ms := by
  rw [joinedBy, Piece.placed_append, List.filter_append, List.map_append]
  rfl

theorem joinedBy_of_ne {ls : List Lexeme} (h : ∀ l ∈ ls, l.kind ≠ .continuation) (p : Place) :
    joinedBy p ls = [] := by
  induction ls generalizing p with
  | nil => rfl
  | cons l ls ih =>
    have hl : (l.kind == .continuation) = false := by simpa using h l (by simp)
    have hls := ih (fun k hk => h k (by simp [hk])) (p.advance l.text)
    rw [joinedBy] at hls ⊢
    rw [Piece.placed, List.filter_cons, if_neg (by simp [hl]), hls]

theorem Exit.lexemes_ne_continuation {x : Exit} (hx : x ≠ .joined) (w : Text) :
    ∀ l ∈ x.lexemes w, l.kind ≠ .continuation := by
  have hgap : ∀ l ∈ gap w, l.kind ≠ .continuation := by
    unfold gap
    split <;> simp
  intro l hl
  cases x with
  | joined => exact absurd rfl hx
  | last => exact hgap l hl
  | newline =>
    rw [Exit.lexemes] at hl
    split at hl
    · rw [List.mem_singleton.1 hl]
      simp
    · rcases List.mem_append.1 hl with hl | hl
      · exact hgap l hl
      · rw [List.mem_singleton.1 hl]
        simp

theorem joinedBy_row (row : Row) (n : Nat) :
    joinedBy ⟨n, []⟩ row.lexemes = if row.exit = .joined then [n + row.lines.length] else [] := by
  have hcore : ∀ p, joinedBy p row.core = [] := joinedBy_of_ne fun l hl hk => by
    have := row.inner l hl
    rw [hk] at this
    cases this
  rw [Row.lexemes, joinedBy_append, hcore, List.nil_append]
  by_cases hx : row.exit = .joined
  · have hended : row.exit ≠ .last := by simp [hx]
    have hplace := Row.advance_row hended n
    have htext : row.text = textOf row.core ++ '\\' :: (row.trail ++ ['\n']) := by
      simp [Row.text, hx, Exit.glyph, Exit.stop]
    rw [htext, Place.advance_append] at hplace
    rw [if_pos hx]
    simp [joinedBy, Exit.lexemes, hx, Piece.placed, Piece.stop, hplace]
  · rw [if_neg hx, joinedBy_of_ne (Exit.lexemes_ne_continuation hx _)]

theorem joinedBy_sheet {rows : List Row} (h : Sheet rows) (n : Nat) :
    joinedBy ⟨n, []⟩ (sheetLexemes rows) = joinedStarts n rows := by
  induction rows generalizing n with
  | nil => rfl
  | cons row rows ih =>
    obtain ⟨hx, -, hs⟩ := h
    have hrest : joinedBy (Place.advance ⟨n, []⟩ (textOf row.lexemes)) (sheetLexemes rows) =
        joinedStarts (n + row.lines.length) rows := by
      by_cases hne : rows = []
      · subst hne; rfl
      · rw [row.textOf_lexemes, Row.advance_row (hx hne), ih hs]
    have hlex : sheetLexemes (row :: rows) = row.lexemes ++ sheetLexemes rows := rfl
    rw [hlex, joinedBy_append, joinedBy_row, hrest, joinedStarts]

/-- The lines of a sheet that stand behind a backslash. -/
theorem joinedLines_sheet {rows : List Row} (h : Sheet rows) :
    joinedLines (sheetText rows) = joinedStarts 1 rows := by
  rw [joinedLines, scan_sheet h]
  exact joinedBy_sheet h 1

theorem joinedStarts_rewrite {e : LineEnding} {closed : Bool} {rows : List Row} {n : Nat}
    (h : (rewrite e closed rows).map (·.lines.length) = rows.map (·.lines.length)) :
    joinedStarts n (rewrite e closed rows) = joinedStarts n rows := by
  induction rows generalizing n with
  | nil => rfl
  | cons row rows ih =>
    obtain ⟨h1, h2⟩ := List.cons.inj h
    have hlines : (row.recast e (closed || !rows.isEmpty)).lines.length = row.lines.length := h1
    have hx : (row.recast e (closed || !rows.isEmpty)).exit = .joined ↔ row.exit = .joined :=
      (recast_joined _ _).symm
    rw [rewrite, joinedStarts, joinedStarts, hlines, ih h2]
    simp only [hx]

/-! ## Rows that come out -/

/-- The rows that come out, before they are written anew. Of a text that is all
blank an empty line is left, if it ended with one. -/
def separatedRows (a : Analysis) (es : List Entry) : List Row :=
  if solidRows es = [] ∧ a.endsBlank = true then [Row.empty]
  else separate a.separated 1 (solidRows es)

/-- The rows that come out. -/
def outputRows (e : LineEnding) (a : Analysis) (es : List Entry) : List Row :=
  rewrite e a.endsBlank (separatedRows a es)

/-- The log of the rows that come out, before they are written anew. -/
def separatedLog (a : Analysis) (es : List Entry) : List Entry :=
  if solidRows es = [] ∧ a.endsBlank = true then [⟨.start, Row.empty, [separator]⟩]
  else separateLog a.separated 1 (es.filter Entry.isSolid)

theorem map_row_separatedLog (a : Analysis) (es : List Entry) :
    (separatedLog a es).map (·.row) = separatedRows a es := by
  unfold separatedLog separatedRows
  split
  · rfl
  · exact map_row_separateLog _ _ _

theorem filter_separatedLog (a : Analysis) (es : List Entry) :
    (separatedLog a es).filter Entry.isSolid = es.filter Entry.isSolid := by
  unfold separatedLog
  split
  · next h =>
    rw [List.map_eq_nil_iff.1 h.1]
    rfl
  · exact filter_separateLog fun e he => (List.mem_filter.1 he).2

namespace Pass

variable {o : Options} {s t : Text} {es : List Entry} {last : Layout} {a : Analysis}

theorem separated_text_ne_nil (h : Pass o s t es last a) :
    ∀ row ∈ separatedRows a es, row.text ≠ [] := by
  unfold separatedRows
  split
  · intro row hr
    rw [List.mem_singleton.1 hr]
    exact Row.empty_text_ne_nil
  · exact separate_text_ne_nil h.text_ne_nil 1

theorem getLast_separated (h : Pass o s t es last a) (hc : a.endsBlank = false) :
    ∀ row ∈ (separatedRows a es).getLast?, row.isBlank = false ∧ row.exit ≠ .joined := by
  rw [separatedRows, if_neg (by simp [hc]), getLast_separate]
  exact h.getLast_solid

theorem sheet_output (h : Pass o s t es last a) (e : LineEnding) : Sheet (outputRows e a es) :=
  sheet_rewrite h.separated_text_ne_nil fun hc row hr => (h.getLast_separated hc row hr).1

/-- The text that comes out, as rows. -/
theorem text_eq (h : Pass o s t es last a) : sheetText (outputRows o.lineEnding a es) = t := by
  rw [← h.result, Analysis.assemble, h.insert_eq, outputRows]
  by_cases hnil : solidRows es = []
  · have hempty : separate a.separated 1 [] = [] := rfl
    rw [separatedRows, hnil, hempty]
    cases a.endsBlank <;> cases o.lineEnding <;> decide
  · have hrows : separatedRows a es = separate a.separated 1 (solidRows es) := by
      rw [separatedRows, if_neg fun hc => hnil hc.1]
    rw [← hrows]
    refine sheetText_rewrite h.separated_text_ne_nil ?_ fun hc row hr =>
      (h.getLast_separated hc row hr).2
    rw [hrows]
    exact fun hsep => hnil (separate_ne_nil.1 hsep)

theorem nil_of_nil (h : Pass o s t es last a) (hc : a.endsBlank = false) (hs : s = []) : t = [] := by
  have hes : es = [] := by
    have hsource := h.source
    have hne := sheet_text_ne_nil h.sheet
    cases es with
    | nil => rfl
    | cons e es =>
      rw [hs, List.map_cons, sheetText, List.flatMap_cons, List.append_eq_nil_iff] at hsource
      exact absurd hsource.1 (hne _ (by simp))
  have hempty : separate a.separated 1 (solidRows []) = [] := rfl
  rw [← h.text_eq, hes, outputRows, separatedRows, if_neg (by simp [hc]), hempty]
  rfl

theorem lines_of_getLast {rows : List Row} {row : Row} {ks : List Text} {l : Text}
    (h : rows.getLast? = some row) (hl : row.lines = ks ++ [l]) :
    ∃ js, rows.flatMap Row.lines = js ++ [l] := by
  rw [← List.dropLast_append_getLast? row h, List.flatMap_append, List.flatMap_singleton, hl,
    ← List.append_assoc]
  exact ⟨_, rfl⟩

theorem exists_last_line (h : Pass o s t es last a) (hc : a.endsBlank = false) (hs : s ≠ []) :
    ∃ l ks is js, Text.isBlank l = false ∧ Text.lines s = ks ++ [l] ∧ a.lines = is ++ [l] ∧
      insertSeparators a.lines a.ranges = js ++ [l] := by
  have hblank := h.endsBlank
  rw [hc, Text.endsBlank, eq_comm, Bool.or_eq_false_iff] at hblank
  have hlines : Text.lines s = (es.map (·.row)).flatMap Row.lines := by
    rw [← h.source, lines_sheet h.sheet]
  obtain ⟨row, hrow⟩ : ∃ row, (es.map (·.row)).getLast? = some row := by
    cases hes : (es.map (·.row)).getLast? with
    | some row => exact ⟨row, rfl⟩
    | none =>
      have hsource := h.source
      rw [List.getLast?_eq_none_iff.1 hes] at hsource
      exact absurd hsource.symm hs
  have hne := sheet_text_ne_nil h.sheet row (List.mem_of_getLast? hrow)
  obtain ⟨ks, l, hl⟩ : ∃ ks l, row.lines = ks ++ [l] :=
    ⟨_, _, (List.dropLast_append_getLast (Row.lines_ne_nil hne)).symm⟩
  obtain ⟨ks, hks⟩ := lines_of_getLast hrow hl
  rw [← hlines] at hks
  have hb : Text.isBlank l = false := by
    rw [hks] at hblank
    simpa using hblank.2
  have hsolid : row.isSolid = true := by
    cases hrb : row.isBlank with
    | false => simp [Row.isSolid, hrb]
    | true =>
      obtain ⟨k, hk, hkb⟩ := lines_of_blank hrb hne
      rw [hk] at hl
      obtain rfl : k = l := by simpa using congrArg List.getLast? hl
      rw [hkb.isBlank] at hb
      cases hb
  have hlast : (solidRows es).getLast? = some row := by
    have hfilter : solidRows es = (es.map (·.row)).filter Row.isSolid := by
      rw [List.filter_map]
      rfl
    rw [hfilter, ← List.dropLast_append_getLast? row hrow, List.filter_append,
      List.filter_cons_of_pos hsolid]
    simp
  obtain ⟨is, his⟩ := lines_of_getLast hlast hl
  obtain ⟨js, hjs⟩ := lines_of_getLast (getLast_separate.trans hlast) hl
  exact ⟨l, ks, is, js, hb, hks, by rw [h.lines, his], by rw [h.insert_eq, hjs]⟩

theorem newline_not_mem_inserted (h : Pass o s t es last a) :
    ∀ l ∈ insertSeparators a.lines a.ranges, '\n' ∉ l := by
  intro l hl
  rw [h.insert_eq] at hl
  obtain ⟨row, -, hl⟩ := List.mem_flatMap.1 hl
  exact not_newline_mem_of_mem_lines hl

theorem joined_eq (h : Pass o s t es last a) :
    joinedLines (joinLines a.lines) = joinedStarts 1 (solidRows es) := by
  rw [h.cleaned_text, joinedLines_sheet h.sheet_cleaned,
    joinedStarts_rewrite (lengths_rewrite h.text_ne_nil fun _ => h.getLast_solid)]

/-- The log of the text that comes out, if no separator stands behind a
backslash. -/
theorem exists_output (h : Pass o s t es last a)
    (hfree : ∀ n ∈ a.separated, n ∉ joinedLines (joinLines a.lines)) :
    ∃ fs, fs.map (·.row) = outputRows o.lineEnding a es ∧ Reads .standard .start fs last ∧
      List.Forall₂ Entry.Alike (separatedLog a es) fs ∧
      tokenize t = .ok (lay 1 fs ++ closing last (Place.start.advance t).pastEnd) := by
  have hread : Reads .standard .start (separatedLog a es) last := by
    unfold separatedLog
    split
    · next hnil =>
      have hsolid := h.solid
      rw [List.map_eq_nil_iff.1 hnil.1] at hsolid
      cases hsolid
      exact .cons (read_empty rfl rfl rfl) (.nil _)
    · refine Reads.separate h.solid rfl sound_start rfl (fun _ => rfl) fun k hk => ?_
      rw [h.joined_eq] at hfree
      exact hfree k hk
  obtain ⟨fs, hrows, hr, hall⟩ := hread.rewrite o.lineEnding a.endsBlank
  rw [map_row_separatedLog] at hrows
  have htok := (tokenize_sheet (h.sheet_output o.lineEnding)).2 ⟨fs, last, hrows, hr, h.rest, rfl⟩
  rw [h.text_eq] at htok
  exact ⟨fs, hrows, hr, hall.imp fun _ _ he => he.alike, htok⟩

theorem not_joined (h : Pass o s t es last a) {ts : List Token} (ht : tokenize t = .ok ts) :
    ∀ n ∈ a.separated, n ∉ joinedLines (joinLines a.lines) := by
  rw [h.joined_eq]
  rw [← h.text_eq] at ht
  obtain ⟨fs, m, hrows, hr, -⟩ := (tokenize_sheet (h.sheet_output o.lineEnding)).1 ht
  by_cases hnil : solidRows es = []
  · intro n _ hn
    rw [hnil] at hn
    cases hn
  · rw [outputRows, separatedRows, if_neg fun hc => hnil hc.1] at hrows
    exact (joined_of_reads hr hrows h.text_ne_nil rfl fun k hk _ => h.separated_mem k hk).2

end Pass

theorem Analysis.forall_separated {a : Analysis} {P : Nat → Prop} :
    (∀ n ∈ a.separated, P n) ↔ ∀ r ∈ a.ranges.tail, P r.first := by
  rw [Analysis.separated, List.forall_mem_map]

/-- What comes out has tokens exactly if no separator was put behind a backslash. -/
theorem tokenize_output_iff {o : Options} {s t : Text} {a : Analysis} (h : normalize o s = .ok t)
    (ha : analyse o.mergeRuns s = .ok a) :
    (∃ ts, tokenize t = .ok ts) ↔ ∀ r ∈ a.ranges.tail, r.first ∉ joinedLines (joinLines a.lines) := by
  obtain ⟨es, last, b, hp⟩ := exists_pass h
  obtain rfl : a = b := Except.ok.inj (ha.symm.trans hp.analysed)
  rw [← Analysis.forall_separated (P := fun n => n ∉ joinedLines (joinLines a.lines))]
  constructor
  · rintro ⟨ts, hts⟩
    exact hp.not_joined hts
  · intro hfree
    obtain ⟨fs, -, -, -, hts⟩ := hp.exists_output hfree
    exact ⟨_, hts⟩

end Offside
