import Offside.Proofs.Layout.Read

/-!
# Reading a sheet

The log of a sheet is what the machine made of each row, from which state. It
knows nothing of line numbers, so rows can be taken out of it, put in and
written anew; `lay` puts the tokens where they stand.

Results:
* `tokenize_sheet`: the tokens of a sheet are the strips of its log, one below
  the other, and what closes the text;
* `exists_log`: a text that has tokens has a log;
* `Reads.sound`: every state of a log is sound, and holds nothing.
-/
namespace Offside

open Lexeme Text Layout

/-- What the machine made of one row: the state before it and its tokens. -/
structure Entry where
  before : Layout
  row : Row
  strip : List Token

/-- The machine reads rows one after another, from the first state to the last. -/
inductive Reads (r : Ruler) : Layout → List Entry → Layout → Prop
  | nil (s : Layout) : Reads r s [] s
  | cons {s m last : Layout} {row : Row} {ts : List Token} {es : List Entry} :
    row.read r s = some (ts, m) → Reads r m es last → Reads r s (⟨s, row, ts⟩ :: es) last

/-- The tokens of rows, the first of which begins on line `n`. -/
def lay : Nat → List Entry → List Token
  | _, [] => []
  | n, e :: es => e.strip.map (Token.down n) ++ lay (n + e.row.lines.length) es

/-- What closes a text that ends at `p`: every level, then the text. -/
def closing (s : Layout) (p : Position) : List Token :=
  s.levels.map (fun _ => .mark .dedent p) ++ [.mark .endMarker p]

/-- A machine at rest: no bracket is open, and nothing waits behind a backslash. -/
structure AtRest (s : Layout) : Prop where
  brackets : s.brackets = []
  joined : s.joined? = none

section log

variable {r : Ruler} {s last : Layout} {ts : List Token} {es : List Entry}

theorem mem_closing {p : Position} {t : Token} (h : t ∈ closing s p) :
    t = .mark .dedent p ∨ t = .mark .endMarker p := by
  rcases List.mem_append.1 h with h | h
  · obtain ⟨_, -, rfl⟩ := List.mem_map.1 h
    exact Or.inl rfl
  · exact Or.inr (List.mem_singleton.1 h)

theorem Reads.append {m : Layout} {fs : List Entry} :
    Reads r s es m → Reads r m fs last → Reads r s (es ++ fs) last := by
  intro h1 h2
  induction h1 with
  | nil => exact h2
  | cons h _ ih => exact .cons h (ih h2)

theorem Reads.split {fs : List Entry} (h : Reads r s (es ++ fs) last) :
    ∃ m, Reads r s es m ∧ Reads r m fs last := by
  induction es generalizing s with
  | nil => exact ⟨s, .nil s, h⟩
  | cons e es ih =>
    cases h with
    | cons hr hrest =>
      obtain ⟨m, h1, h2⟩ := ih hrest
      exact ⟨m, .cons hr h1, h2⟩

theorem Reads.unplaced {r : Ruler} {s last : Layout} {es : List Entry} (h : Reads r s es last)
    (hs : s.unplaced = s) : last.unplaced = last := by
  induction h with
  | nil => exact hs
  | cons hr _ ih =>
    obtain ⟨m, -, rfl⟩ := reads_eq_some.1 hr
    exact ih (unplaced_unplaced m)

/-- Every state of a log is sound, and holds nothing. -/
theorem Reads.sound (h : Reads r s es last) (hs : Sound s) (hh : s.lineHeld = false) :
    (Sound last ∧ last.lineHeld = false) ∧
      ∀ e ∈ es, Sound e.before ∧ e.before.lineHeld = false := by
  induction h with
  | nil => exact ⟨⟨hs, hh⟩, by simp⟩
  | cons hr _ ih =>
    obtain ⟨h1, h2⟩ := ih (Sound.read hs hr) (read_rested hr)
    refine ⟨h1, fun e he => ?_⟩
    rcases List.mem_cons.1 he with rfl | he
    · exact ⟨hs, hh⟩
    · exact h2 e he

/-- How many lines the rows of entries take. -/
def height (es : List Entry) : Nat := (es.flatMap (·.row.lines)).length

theorem height_cons (e : Entry) (es : List Entry) :
    height (e :: es) = e.row.lines.length + height es := by
  simp [height]

theorem height_congr {es fs : List Entry}
    (h : es.map (·.row.lines.length) = fs.map (·.row.lines.length)) : height es = height fs := by
  induction es generalizing fs with
  | nil =>
    obtain rfl := List.map_eq_nil_iff.1 h.symm
    rfl
  | cons e es ih =>
    cases fs with
    | nil => cases h
    | cons f fs =>
      obtain ⟨h1, h2⟩ := List.cons.inj h
      have hlines : e.row.lines.length = f.row.lines.length := h1
      rw [height_cons, height_cons, hlines, ih h2]

theorem lay_append (n : Nat) (es fs : List Entry) :
    lay n (es ++ fs) = lay n es ++ lay (n + height es) fs := by
  induction es generalizing n with
  | nil => rfl
  | cons e es ih =>
    rw [List.cons_append, lay, lay, ih, height_cons, Nat.add_assoc, List.append_assoc]

theorem lay_down (k n : Nat) (es : List Entry) : lay (n + k) es = (lay n es).map (Token.down k) := by
  have hdown : ∀ n (t : Token), t.down (n + k) = (t.down n).down k := fun n t => by
    simp only [Token.down, Position.down, Nat.add_assoc]
  induction es generalizing n with
  | nil => rfl
  | cons e es ih =>
    rw [lay, lay, Nat.add_right_comm, ih, List.map_append, List.map_map]
    exact congrArg (· ++ _) (List.map_congr_left fun t _ => hdown n t)

theorem mem_lay {n : Nat} {t : Token} (h : t ∈ lay n es) :
    ∃ e ∈ es, ∃ u ∈ e.strip, ∃ k, n ≤ k ∧ t = u.down k := by
  induction es generalizing n with
  | nil => cases h
  | cons e es ih =>
    rcases List.mem_append.1 h with h | h
    · obtain ⟨u, hu, rfl⟩ := List.mem_map.1 h
      exact ⟨e, by simp, u, hu, n, Nat.le_refl _, rfl⟩
    · obtain ⟨f, hf, u, hu, k, hk, rfl⟩ := ih h
      exact ⟨f, by simp [hf], u, hu, k, by omega, rfl⟩

/-! ## Sheets -/

/-- The lexemes of a row with the newline that ends an open one. -/
def Row.spelled (row : Row) : List Lexeme := row.lexemes ++ row.exit.phantom

theorem Row.textOf_spelled (row : Row) : textOf row.spelled = row.text := by
  rw [spelled, Lexeme.textOf_append, row.textOf_lexemes]
  cases row.exit <;> simp [Exit.phantom]

theorem reads_row {row : Row} {n : Nat} :
    reads r s (Piece.placed ⟨n, []⟩ row.spelled) = some (ts, last) ↔
      ∃ us, row.read r s = some (us, last) ∧ ts = us.map (Token.down n) := by
  have hp : (⟨n, []⟩ : Place) = Place.down n ⟨0, []⟩ := by simp [Place.down]
  rw [hp, Piece.placed_down, reads_down rfl]
  rfl

theorem reads_rows {rows : List Row} (h : Sheet rows) {n : Nat} (hs : s.unplaced = s) :
    reads r s (Piece.placed ⟨n, []⟩ (rows.flatMap Row.spelled)) = some (ts, last) ↔
      ∃ es, es.map (·.row) = rows ∧ Reads r s es last ∧ ts = lay n es := by
  induction rows generalizing s n ts with
  | nil =>
    rw [List.flatMap_nil, Piece.placed, reads_nil, hs]
    constructor
    · intro hex; obtain ⟨rfl, rfl⟩ := hex; exact ⟨[], rfl, .nil _, rfl⟩
    · intro hex
      obtain ⟨es, he, hr, rfl⟩ := hex
      obtain rfl := List.map_eq_nil_iff.1 he
      cases hr
      exact ⟨rfl, rfl⟩
  | cons row rows ih =>
    have hplace : rows ≠ [] →
        Place.advance ⟨n, []⟩ (textOf row.spelled) = ⟨n + row.lines.length, []⟩ := by
      intro hne
      rw [row.textOf_spelled, Row.advance_row (h.1 hne)]
    have hrest : Piece.placed (Place.advance ⟨n, []⟩ (textOf row.spelled)) (rows.flatMap Row.spelled) =
        Piece.placed ⟨n + row.lines.length, []⟩ (rows.flatMap Row.spelled) := by
      by_cases hne : rows = []
      · subst hne; rfl
      · rw [hplace hne]
    rw [List.flatMap_cons, Piece.placed_append, reads_append, hrest]
    constructor
    · intro hex
      obtain ⟨us, m, vs, hrow, hrows, rfl⟩ := hex
      obtain ⟨ws, hread, rfl⟩ := reads_row.1 hrow
      obtain ⟨m', -, hm⟩ := reads_eq_some.1 hrow
      obtain ⟨es, he, hes, rfl⟩ := (ih h.2.2 (by rw [← hm, unplaced_unplaced])).1 hrows
      exact ⟨⟨s, row, ws⟩ :: es, by rw [List.map_cons, he], .cons hread hes, rfl⟩
    · intro hex
      obtain ⟨es, he, hes, rfl⟩ := hex
      cases hes with
      | nil => cases he
      | @cons _ m _ row' ws es hread hes =>
        obtain ⟨rfl, hrows⟩ := List.cons.inj he
        have hrow := reads_row (n := n).2 ⟨ws, hread, rfl⟩
        obtain ⟨m', -, hm⟩ := reads_eq_some.1 hrow
        exact ⟨_, m, _, hrow, (ih h.2.2 (by rw [← hm, unplaced_unplaced])).2 ⟨es, hrows, hes, rfl⟩,
          rfl⟩

theorem sheet_cases {rows : List Row} (h : Sheet rows) :
    ((∀ row ∈ rows, row.exit ≠ .last) ∧ rows.flatMap Row.spelled = sheetLexemes rows ∧
        Ended (sheetText rows)) ∨
      (rows.flatMap Row.spelled = sheetLexemes rows ++ [⟨.newline, []⟩] ∧ sheetText rows ≠ [] ∧
        (sheetText rows).getLast? ≠ some '\n') := by
  induction rows with
  | nil => exact Or.inl ⟨by simp, rfl, ended_nil⟩
  | cons row rows ih =>
    obtain ⟨hx, ht, hs⟩ := h
    by_cases hne : rows = []
    · subst hne
      by_cases hl : row.exit = .last
      · refine Or.inr ⟨?_, by simpa [sheetText] using ht, ?_⟩
        · simp [Row.spelled, sheetLexemes, hl, Exit.phantom]
        · simpa [sheetText] using Row.getLast_text_ne_newline hl
      · refine Or.inl ⟨by simpa using hl, ?_, by simpa [sheetText] using Row.ended_text hl⟩
        cases h : row.exit <;> simp_all [Row.spelled, sheetLexemes, Exit.phantom]
    · have hrow := hx hne
      have hspell : row.spelled = row.lexemes := by
        cases h : row.exit <;> simp_all [Row.spelled, Exit.phantom]
      have htext : sheetText (row :: rows) = row.text ++ sheetText rows := rfl
      have hlex : sheetLexemes (row :: rows) = row.lexemes ++ sheetLexemes rows := rfl
      rw [List.flatMap_cons, hspell, hlex, htext]
      rcases ih hs with ⟨h1, h2, h3⟩ | ⟨h1, h2, h3⟩
      · refine Or.inl ⟨?_, by rw [h2], (Row.ended_text hrow).append h3⟩
        intro r hr
        rcases List.mem_cons.1 hr with rfl | hr
        · exact hrow
        · exact h1 r hr
      · refine Or.inr ⟨by rw [h1, List.append_assoc], by simp [h2], ?_⟩
        rwa [List.getLast?_append_of_ne_nil _ h2]

/-! ## The end of a text -/

theorem finish_eq_ok {p : Place} {ts : List Token} :
    s.finish p = .ok ts ↔ AtRest s ∧ ts = closeLine s p ++ closing s p.pastEnd := by
  unfold finish
  cases hb : s.brackets.getLast? with
  | some b =>
    have hne : s.brackets ≠ [] := by intro h; rw [h] at hb; cases hb
    simp only [reduceCtorEq, false_iff]
    exact fun h => hne h.1.brackets
  | none =>
    have hnil : s.brackets = [] := by simpa using hb
    cases hj : s.joined? with
    | some n =>
      simp only [reduceCtorEq, false_iff]
      intro h
      rw [h.1.joined] at hj
      cases hj
    | none =>
      simp only [Except.ok.injEq, closing, ← List.append_assoc]
      constructor
      · intro heq; subst heq; exact ⟨⟨hnil, hj⟩, rfl⟩
      · intro hex; obtain ⟨-, rfl⟩ := hex; rfl

theorem behind_ne_nil {t : Text} {p : Place} (hne : t ≠ []) (h : t.getLast? ≠ some '\n') :
    (p.advance t).behind ≠ [] := by
  rcases List.eq_nil_or_concat t with rfl | ⟨t, c, rfl⟩
  · exact absurd rfl hne
  · rw [List.concat_eq_append] at h ⊢
    have hc : c ≠ '\n' := by simpa using h
    rw [Place.advance_append, Place.advance_cons, Place.step, if_neg hc]
    simp

theorem reads_phantom {p : Place} {c : Char} (hs : Sound s) (hp : p.behind ≠ []) :
    (reads r s [⟨.newline, p, [], c⟩] = some (ts, last) ∧ AtRest last) ↔
      AtRest s ∧ ts = closeLine s p ∧
        last = { s with lineHeld := false, codeSeen := !s.lineHeld && s.codeSeen }.unplaced := by
  have hstep : step r s ⟨.newline, p, [], c⟩ = endLine s ⟨.newline, p, [], c⟩ := rfl
  have hempty : p.behind.isEmpty = false := by simpa using hp
  have hmark : ∀ kind, lineEnd ⟨.newline, p, [], c⟩ kind = .mark kind p.position := fun kind => rfl
  rw [reads_singleton, hstep]
  constructor
  · intro hex
    obtain ⟨⟨hf, rfl, rfl⟩, hrest⟩ := hex
    obtain ⟨hb, hj⟩ := hrest
    rw [unplaced_brackets_eq_nil] at hb
    rw [unplaced_joined_eq_none] at hj
    rcases endLine_spec rfl hf with ⟨hh, h1, h2, he, hn⟩ | ⟨hh, h1, he, hn⟩ | ⟨hh, h1, he, hn⟩ <;>
      rw [hn] at hb hj ⊢ <;> rw [he]
    · exact ⟨⟨hb, hj⟩, by simp [closeLine, hh, h2, hmark], by simp [hh]⟩
    · rcases h1 with h1 | h1
      · exact absurd hb h1
      · exact ⟨⟨hb, hj⟩, by simp [closeLine, hh, h1, hmark], by simp [hh, h1]⟩
    · refine ⟨⟨hb, hj⟩, by simp [closeLine, hh, hempty], ?_⟩
      rw [hh]
      cases s
      simp_all
  · intro hex
    obtain ⟨⟨hb, hj⟩, rfl, rfl⟩ := hex
    have hval : endLine s ⟨.newline, p, [], c⟩ =
        .emit { s with lineHeld := false, codeSeen := !s.lineHeld && s.codeSeen } (closeLine s p) := by
      obtain ⟨levels, brackets, lineHeld, codeSeen, joined?⟩ := s
      dsimp only at hb hj
      subst hb hj
      cases lineHeld <;> cases codeSeen <;> simp [endLine, closeLine, hempty, hmark]
    rw [hval]
    exact ⟨⟨rfl, rfl, rfl⟩, unplaced_brackets_eq_nil.2 hb, unplaced_joined_eq_none.2 hj⟩

theorem AtRest.unplaced (h : AtRest s) : AtRest s.unplaced :=
  ⟨unplaced_brackets_eq_nil.2 h.brackets, unplaced_joined_eq_none.2 h.joined⟩

theorem tokenizeWith_eq_ok {t : Text} (h : (scan t).stop? = none) :
    tokenizeWith r t = .ok ts ↔ ∃ us m,
      reads r .start (Piece.placed .start (scan t).lexemes) = some (us, m) ∧ AtRest m ∧
        ts = us ++ closeLine m (Place.start.advance t) ++
          closing m (Place.start.advance t).pastEnd := by
  unfold tokenizeWith
  simp only [h]
  constructor
  · intro hr
    split at hr
    · cases hr
    · next us m hrun =>
      split at hr
      · cases hr
      · next cs hfin =>
        cases hr
        obtain ⟨hrest, rfl⟩ := finish_eq_ok.1 hfin
        exact ⟨us, m.unplaced, reads_eq_some.2 ⟨m, hrun, rfl⟩, hrest.unplaced,
          (List.append_assoc us _ _).symm⟩
  · intro hex
    obtain ⟨us, m, hr, hrest, rfl⟩ := hex
    obtain ⟨m, hrun, rfl⟩ := reads_eq_some.1 hr
    have hfin := finish_eq_ok (p := Place.start.advance t).2
      ⟨⟨unplaced_brackets_eq_nil.1 hrest.brackets, unplaced_joined_eq_none.1 hrest.joined⟩, rfl⟩
    rw [hrun]
    simp only [hfin, List.append_assoc]
    rfl

theorem close_sheet {rows : List Row} (h : Sheet rows) :
    (∃ us m, reads r .start (Piece.placed .start (sheetLexemes rows)) = some (us, m) ∧ AtRest m ∧
        ts = us ++ closeLine m (Place.start.advance (sheetText rows)) ∧
        last = { m with lineHeld := false, codeSeen := !m.lineHeld && m.codeSeen }.unplaced) ↔
      ∃ es, es.map (·.row) = rows ∧ Reads r .start es last ∧ AtRest last ∧ ts = lay 1 es := by
  have hrows : ∀ us m, reads r .start (Piece.placed .start (rows.flatMap Row.spelled)) =
      some (us, m) ↔ ∃ es, es.map (·.row) = rows ∧ Reads r .start es m ∧ us = lay 1 es :=
    fun us m => reads_rows h rfl
  rcases sheet_cases h with ⟨-, hsp, hend⟩ | ⟨hsp, hne, hopen⟩
  · have hplace : (Place.start.advance (sheetText rows)).behind = [] := by
      rw [Place.start, advance_of_ended hend]
    have hclose : ∀ {es m us}, Reads r .start es m →
        reads r .start (Piece.placed .start (sheetLexemes rows)) = some (us, m) →
        closeLine m (Place.start.advance (sheetText rows)) = [] ∧
          { m with lineHeld := false, codeSeen := !m.lineHeld && m.codeSeen }.unplaced = m := by
      intro es m us hes hr
      obtain ⟨⟨-, hm⟩, -⟩ := hes.sound sound_start rfl
      obtain ⟨m', -, rfl⟩ := reads_eq_some.1 hr
      refine ⟨by rw [closeLine, hm, hplace]; rfl, ?_⟩
      rw [hm]
      conv => rhs; rw [← unplaced_unplaced]
      exact unplaced_eq_iff.2 ⟨rfl, rfl, hm.symm, rfl, rfl⟩
    rw [hsp] at hrows
    constructor
    · intro hex
      obtain ⟨us, m, hr, hrest, rfl, rfl⟩ := hex
      obtain ⟨es, he, hes, rfl⟩ := (hrows us m).1 hr
      obtain ⟨hc, hm⟩ := hclose hes hr
      rw [hc, hm, List.append_nil]
      exact ⟨es, he, hes, hrest, rfl⟩
    · intro hex
      obtain ⟨es, he, hes, hrest, rfl⟩ := hex
      have hr := (hrows (lay 1 es) last).2 ⟨es, he, hes, rfl⟩
      obtain ⟨hc, hm⟩ := hclose hes hr
      exact ⟨lay 1 es, last, hr, hrest, by rw [hc, List.append_nil], hm.symm⟩
  · have hplace := behind_ne_nil (p := .start) hne hopen
    have hend : Piece.placed (Place.start.advance (textOf (sheetLexemes rows))) [⟨.newline, []⟩] =
        [⟨.newline, Place.start.advance (sheetText rows), [], '\x00'⟩] := by
      rw [textOf_sheetLexemes]
      rfl
    rw [hsp, Piece.placed_append, hend] at hrows
    constructor
    · intro hex
      obtain ⟨us, m, hr, hrest, rfl, hl⟩ := hex
      obtain ⟨hph, hlast⟩ := (reads_phantom (Sound.reads sound_start hr) hplace).2 ⟨hrest, rfl, hl⟩
      obtain ⟨es, he, hes, hlay⟩ := (hrows _ _).1 (reads_append.2 ⟨us, m, _, hr, hph, rfl⟩)
      exact ⟨es, he, hes, hlast, hlay⟩
    · intro hex
      obtain ⟨es, he, hes, hrest, rfl⟩ := hex
      obtain ⟨us, m, vs, hr, hph, hlay⟩ := reads_append.1 ((hrows _ _).2 ⟨es, he, hes, rfl⟩)
      obtain ⟨hm, rfl, hl⟩ := (reads_phantom (Sound.reads sound_start hr) hplace).1 ⟨hph, hrest⟩
      exact ⟨us, m, hr, hm, hlay, hl⟩

/-- The tokens of a sheet are the strips of its log, one below the other, and
what closes the text. -/
theorem tokenize_sheet {rows : List Row} (h : Sheet rows) :
    tokenizeWith r (sheetText rows) = .ok ts ↔
      ∃ es last, es.map (·.row) = rows ∧ Reads r .start es last ∧ AtRest last ∧
        ts = lay 1 es ++ closing last (Place.start.advance (sheetText rows)).pastEnd := by
  have hscan := scan_sheet h
  rw [tokenizeWith_eq_ok (by rw [hscan]), hscan]
  constructor
  · intro hex
    obtain ⟨us, m, hr, hrest, rfl⟩ := hex
    obtain ⟨es, he, hes, hlast, hlay⟩ := (close_sheet h).1 ⟨us, m, hr, hrest, rfl, rfl⟩
    exact ⟨es, _, he, hes, hlast, by rw [hlay]; rfl⟩
  · intro hex
    obtain ⟨es, last, he, hes, hrest, rfl⟩ := hex
    obtain ⟨us, m, hr, hm, hlay, rfl⟩ := (close_sheet h).2 ⟨es, he, hes, hrest, rfl⟩
    exact ⟨us, m, hr, hm, by rw [hlay]; rfl⟩

end log

/-! ## Texts -/

theorem stop_of_tokenizeWith {r : Ruler} {s : Text} {ts : List Token}
    (h : tokenizeWith r s = .ok ts) : (scan s).stop? = none := by
  unfold tokenizeWith at h
  cases hs : (scan s).stop? with
  | none => rfl
  | some stop =>
    simp only [hs] at h
    split at h <;> cases h

/-- `es` is the log of the text `s`, and the machine is at rest behind it. -/
structure Logged (s : Text) (es : List Entry) (last : Layout) : Prop where
  sheet : Sheet (es.map (·.row))
  source : sheetText (es.map (·.row)) = s
  reads : Reads .standard .start es last
  rest : AtRest last

/-- A text that has tokens has a log. -/
theorem exists_log {s : Text} {ts : List Token} (h : tokenize s = .ok ts) :
    ∃ es last, Logged s es last ∧ ts = lay 1 es ++ closing last (Place.start.advance s).pastEnd := by
  obtain ⟨rows, hs, rfl⟩ := exists_sheet (stop_of_tokenizeWith h)
  obtain ⟨es, last, rfl, hr, hrest, rfl⟩ := (tokenize_sheet hs).1 h
  exact ⟨es, last, ⟨hs, rfl, hr, hrest⟩, rfl⟩

theorem Logged.tokenize {s : Text} {es : List Entry} {last : Layout} (h : Logged s es last) :
    tokenize s = .ok (lay 1 es ++ closing last (Place.start.advance s).pastEnd) := by
  have htok := (tokenize_sheet h.sheet).2 ⟨es, last, rfl, h.reads, h.rest, rfl⟩
  rw [h.source] at htok
  exact htok

end Offside
