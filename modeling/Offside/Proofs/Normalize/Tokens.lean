import Offside.Proofs.Layout.Gist
import Offside.Proofs.Lexeme.Evaluate
import Offside.Proofs.Normalize.Output

/-!
# The tokens that are kept

A normalized program says the same as the program it was made of: apart from
blank lines both have the same kinds of tokens in the same order, with the same
characters up to carriage returns before newlines. It has tokens at all unless
a separator was put behind a backslash, and that can only be where the backslash
stands before the first code of its logical line.

Results:
* `gists_separatedLog`: putting separators in and writing rows anew keeps what
  tokens say;
* `exists_early_join`: where a separator is put behind a backslash;
* `gists_normalize`: a normalized program says what the program said.
-/
namespace Offside

open Lexeme Text Layout

/-- Whether code of the current logical line stands before the end of lexemes. -/
def codeBehind (ls : List Lexeme) : Bool :=
  match run .standard .start (Piece.placed .start ls) with
  | .ok (_, s) => s.codeSeen
  | .error _ => true

/-- No backslash joins a line to the first code of a logical line: where code
stands behind a continuation and no newline between them, the logical line held
code before. -/
def JoinsLate (s : Text) : Prop :=
  ∀ (a : List Lexeme) (k : Lexeme) (m : List Lexeme) (c : Lexeme) (b : List Lexeme),
    (scan s).lexemes = a ++ k :: (m ++ c :: b) → k.kind = .continuation → c.kind.isCode = true →
    (∀ l ∈ m, l.kind ≠ .newline) → codeBehind a = true

/-! ## Reading up to a backslash -/

theorem ended_rows {rows more : List Row} (h : Sheet (rows ++ more)) (hne : more ≠ []) :
    Sheet rows ∧ rows.flatMap Row.spelled = sheetLexemes rows ∧ Ended (sheetText rows) := by
  induction rows with
  | nil => exact ⟨trivial, rfl, ended_nil⟩
  | cons row rows ih =>
    obtain ⟨hx, ht, hs⟩ := h
    have hrow := hx (by simp [hne])
    obtain ⟨hsheet, hspell, hend⟩ := ih hs
    have hphantom : row.exit.phantom = [] := by
      cases h : row.exit with
      | last => exact absurd h hrow
      | newline | joined => rfl
    refine ⟨⟨fun _ => hrow, ht, hsheet⟩, ?_, (Row.ended_text hrow).append hend⟩
    rw [List.flatMap_cons, hspell, Row.spelled, hphantom, List.append_nil]
    rfl

theorem run_core {r : Ruler} {p : List Entry} {m k : Layout} {row : Row} {rest : List Row}
    {us : List Token} (hs : Sheet (p.map (·.row) ++ row :: rest)) (hp : Reads r .start p m)
    (hr : reads r m row.pieces = some (us, k)) :
    ∃ ts q, run r .start (Piece.placed .start (sheetLexemes (p.map (·.row)) ++ row.core)) =
      .ok (ts, q) ∧ q.unplaced = k := by
  obtain ⟨hsheet, hspell, hend⟩ := ended_rows hs (by simp)
  have hrows : reads r .start (Piece.placed .start (sheetLexemes (p.map (·.row)))) =
      some (lay 1 p, m) := by
    rw [← hspell]
    exact (reads_rows hsheet rfl).2 ⟨p, rfl, hp, rfl⟩
  have hplace : Place.start.advance (textOf (sheetLexemes (p.map (·.row)))) =
      Place.down (1 + (Text.lines (sheetText (p.map (·.row)))).length) ⟨0, []⟩ := by
    rw [textOf_sheetLexemes, Place.start, advance_of_ended hend, Place.down, Nat.zero_add]
  obtain ⟨vs, hcore⟩ : ∃ vs, reads r m (Piece.placed (Place.start.advance
      (textOf (sheetLexemes (p.map (·.row))))) row.core) = some (vs, k) := by
    rw [hplace, Piece.placed_down]
    exact ⟨_, (reads_down rfl).2 ⟨us, hr, rfl⟩⟩
  have hall := reads_append.2 ⟨_, _, _, hrows, hcore, rfl⟩
  rw [← Piece.placed_append] at hall
  obtain ⟨q, hrun, hq⟩ := reads_eq_some.1 hall
  exact ⟨_, q, hrun, hq⟩

theorem exists_join {e : Entry} {p q : List Entry} {r : Ruler} {m : Layout}
    (h : Reads r .start (p ++ e :: q) m) (hj : e.before.joined? ≠ none) :
    ∃ p' d, p = p' ++ [d] ∧ d.row.exit = .joined ∧ Reads r .start p' d.before ∧
      d.row.read r d.before = some (d.strip, e.before) := by
  obtain ⟨k, hp, hq⟩ := h.split
  have hk : k = e.before := by cases hq; rfl
  rcases List.eq_nil_or_concat p with rfl | ⟨p', d, rfl⟩
  · cases hp
    rw [← hk] at hj
    exact absurd rfl hj
  · rw [List.concat_eq_append] at hp ⊢
    obtain ⟨_, hp', hd⟩ := hp.split
    obtain ⟨⟨hsound, hheld⟩, -⟩ := hp'.sound sound_start rfl
    cases hd with
    | cons hr hnil =>
      cases hnil
      rw [hk] at hr
      refine ⟨p', _, rfl, ?_, hp', hr⟩
      by_contra hx
      exact hj (unjoined_of_read hx hsound hheld hr)

namespace Pass

variable {o : Options} {s t : Text} {es : List Entry} {last : Layout} {a : Analysis}

theorem tokenize_source (h : Pass o s t es last a) :
    tokenize s = .ok (lay 1 es ++ closing last (Place.start.advance s).pastEnd) :=
  h.logged.tokenize

/-- Putting separators in and writing rows anew keeps what tokens say. -/
theorem gists_separatedLog (h : Pass o s t es last a) {fs : List Entry}
    (hr : Reads .standard .start fs last) (hall : List.Forall₂ Entry.Alike (separatedLog a es) fs)
    (n m : Nat) : gists (lay m fs) = gists (lay n es) := by
  rw [gists_lay, gists_lay, gists_solid (gists_blank hr rfl), gists_solid (gists_blank h.reads rfl),
    ← filter_separatedLog a es]
  exact (gists_entries (filter_alike hall)).symm

/-! ## Separators behind a backslash -/

/-- Where a separator is put behind a backslash, a row was read whose logical
line that backslash began. -/
theorem exists_early_join (h : Pass o s t es last a) {n : Nat} (hn : n ∈ a.separated)
    (hj : n ∈ joinedLines (joinLines a.lines)) :
    ∃ e ∈ es, e.before.joined? ≠ none ∧ e.before.codeSeen = false ∧
      ∃ l ∈ e.row.core, l.kind.isCode = true := by
  obtain ⟨es', nodes, hrows, hr, hall, ho, hsub, -⟩ := h.cleaned_tokens
  have hsheet : Sheet (es'.map (·.row)) := hrows ▸ h.sheet_cleaned
  have hhead : n ∈ (heads (!Layout.start.codeSeen) (lay 1 es')).map (·.start.line) := by
    have hnode := List.mem_of_mem_tail (hsub.subset hn)
    have hstarts := (outline_starts ho).map (·.line)
    rw [List.map_map, List.map_map, heads_append, heads_closing, List.append_nil] at hstarts
    exact hstarts.subset hnode
  have hjoined : n ∈ joinedStarts 1 (es'.map (·.row)) := by
    rwa [h.cleaned_text, ← hrows, joinedLines_sheet hsheet] at hj
  obtain ⟨f, hf, hwait, hseen, l, hl, hcode⟩ :=
    heads_joined hr (sheet_text_ne_nil hsheet) hhead (Or.inl hjoined)
  obtain ⟨p, q, rfl⟩ := List.append_of_mem hf
  obtain ⟨p', e, q', hes, -, hef, -⟩ := forall₂_split hall
  have he : e ∈ es.filter Entry.isSolid := by simp [hes]
  obtain ⟨k, hk, hkl⟩ : ∃ k ∈ e.row.core, k.kind = l.kind := by
    have hmem : l.kind ∈ f.row.core.map (·.kind) := List.mem_map_of_mem hl
    rw [← hef.kinds] at hmem
    exact List.mem_map.1 hmem
  exact ⟨e, List.mem_of_mem_filter he, hef.before ▸ hwait, hef.before ▸ hseen, k, hk, hkl ▸ hcode⟩

theorem not_joined_of_joinsLate (h : Pass o s t es last a) (hl : JoinsLate s) :
    ∀ n ∈ a.separated, n ∉ joinedLines (joinLines a.lines) := by
  intro n hn hj
  obtain ⟨e, he, hwait, hseen, c, hc, hcode⟩ := h.exists_early_join hn hj
  obtain ⟨p, q, rfl⟩ := List.append_of_mem he
  obtain ⟨p, d, rfl, hx, hp, hd⟩ := exists_join h.reads hwait
  obtain ⟨m, b, hcore⟩ := List.append_of_mem hc
  obtain ⟨us, k, hread, -, -, hlast⟩ := read_eq_some.1 hd
  have hsheet := h.sheet
  rw [List.append_assoc, List.map_append] at hsheet
  obtain ⟨ts, g, hrun, hg⟩ := run_core hsheet hp hread
  have hunseen : g.codeSeen = false := by
    rw [step_exit, if_pos hx] at hlast
    rw [hlast] at hseen
    rw [← hg] at hseen
    exact hseen
  have hlex : (scan s).lexemes = sheetLexemes (p.map (·.row)) ++ d.row.core ++
      ⟨.continuation, '\\' :: (d.row.trail ++ ['\n'])⟩ ::
        (m ++ c :: (b ++ e.row.exit.lexemes e.row.trail ++ sheetLexemes (q.map (·.row)))) := by
    rw [← h.source, scan_sheet h.sheet]
    simp [sheetLexemes, Row.lexemes, hx, Exit.lexemes, hcore]
  have hm : ∀ l ∈ m, l.kind ≠ .newline := by
    intro l hlm hk
    have := e.row.inner l (by simp [hcore, hlm])
    rw [hk] at this
    cases this
  have hbehind : codeBehind _ = true := hl _ _ m c _ hlex rfl hcode hm
  rw [codeBehind, hrun] at hbehind
  exact absurd hbehind (by simp [hunseen])

end Pass

/-- A normalized program has tokens, and says what the program said. -/
theorem gists_normalize {o : Options} {s t : Text} (hl : JoinsLate s) (h : normalize o s = .ok t) :
    ∃ ts us, tokenize s = .ok ts ∧ tokenize t = .ok us ∧ gists us = gists ts := by
  obtain ⟨es, last, a, hp⟩ := exists_pass h
  obtain ⟨fs, -, hr, hall, hus⟩ := hp.exists_output (hp.not_joined_of_joinsLate hl)
  refine ⟨_, _, hp.tokenize_source, hus, ?_⟩
  rw [gists_append, gists_append, hp.gists_separatedLog hr hall 1 1, gists_closing]

theorem joinsLate_of_codeBehind {s : Text} (h : ∀ n < (scan s).lexemes.length,
    ((scan s).lexemes[n]?.any fun l => l.kind == .continuation) = true →
      codeBehind ((scan s).lexemes.take n) = true) : JoinsLate s := by
  intro a k m c b hlex hk _ _
  have ha := h a.length (by simp [hlex]) (by simp [hlex, hk])
  rwa [hlex, List.take_left] at ha

theorem gists_normalize_joined :
    normalize ⟨.lf, true⟩ "if a:\n  b = \\\n    1\n\n\nc\n".toList =
        .ok "if a:\n  b = \\\n    1\n\nc\n".toList ∧
      ∃ ts us, tokenize "if a:\n  b = \\\n    1\n\n\nc\n".toList = .ok ts ∧
        tokenize "if a:\n  b = \\\n    1\n\nc\n".toList = .ok us ∧ gists us = gists ts := by
  have hl : JoinsLate "if a:\n  b = \\\n    1\n\n\nc\n".toList := by
    apply joinsLate_of_codeBehind
    simp only [scan_eq_scanIn]
    decide +kernel
  have h : normalize ⟨.lf, true⟩ "if a:\n  b = \\\n    1\n\n\nc\n".toList =
      .ok "if a:\n  b = \\\n    1\n\nc\n".toList := by
    simp only [normalize, analyse, clean, tokensOf, tokenize, tokenizeWith, scan_eq_scanIn]
    decide +kernel
  exact ⟨h, gists_normalize hl h⟩

end Offside
