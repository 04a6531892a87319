import Offside.Proofs.Layout.Cleaned
import Offside.Proofs.Statement.Merge
import Offside.Proofs.Statement.Start

/-!
# A pass of the normalizer

What a program goes through when it is normalized, row by row: the rows that
hold something stay, their lines are cut again, and empty rows are put before
some of them. The rows of the text that comes out are known before it is read.

Results:
* `Logged.clean_eq`, `normalize_of_clean`: what is left without the blank lines, and
  that it decides the rest;
* `stages_of_analyse`, `stages_of_refused`: the stages of normalizing, and where they end;
* `exists_pass`: a program that is normalized goes through a `Pass`;
* `Pass.statements`: its statements, and the lines that a separator is put before;
* `Pass.cleaned_tokens`: the tokens from which the statements were taken;
* `Pass.separated_sublist`: the lines that a separator is put before are lines
  on which rows begin, and not the first;
* `Pass.insert_lines`, `Pass.insert_eq`: what comes out, line by line and row by row.
-/
namespace Offside

open Lexeme Text Layout

/-- The lines before which a separator is put. -/
def Analysis.separated (a : Analysis) : List Nat := a.ranges.tail.map (·.first)

/-- What normalizing `s` to `t` goes through: `es` is the log of `s`, and `a`
the analysis of it. -/
structure Pass (o : Options) (s t : Text) (es : List Entry) (last : Layout) (a : Analysis) :
    Prop where
  sheet : Sheet (es.map (·.row))
  source : sheetText (es.map (·.row)) = s
  reads : Reads .standard .start es last
  rest : AtRest last
  analysed : analyse o.mergeRuns s = .ok a
  result : a.assemble o.lineEnding = t
  lines : a.lines = (solidRows es).flatMap Row.lines
  endsBlank : a.endsBlank = s.endsBlank

theorem tokensOf_eq_ok {t : Text} {ts : List Token} :
    tokensOf t = .ok ts ↔ tokenize t = .ok ts := by
  unfold tokensOf
  cases tokenize t <;> simp

theorem rangesOf_eq_ok {merge : Bool} {ts : List Token} {n : Nat} {ranges : List LineRange} :
    rangesOf merge ts n = .ok ranges ↔ statementRanges merge ts n = .ok ranges := by
  unfold rangesOf
  cases statementRanges merge ts n <;> simp

theorem analyse_eq_ok {merge : Bool} {s : Text} {a : Analysis} :
    analyse merge s = .ok a ↔ ∃ ts us, tokenize s = .ok ts ∧
      a.lines = removeBlankLines s.lines ts ∧ a.endsBlank = s.endsBlank ∧
      tokenize (joinLines a.lines) = .ok us ∧
      statementRanges merge us a.lines.length = .ok a.ranges := by
  unfold analyse clean
  constructor
  · intro h
    cases hts : tokensOf s with
    | error e => simp [hts] at h
    | ok ts =>
      simp only [hts] at h
      cases hus : tokensOf (Cleaned.ofTokens s ts).text with
      | error e => simp [hus] at h
      | ok us =>
        simp only [hus] at h
        cases hr : rangesOf merge us (Cleaned.ofTokens s ts).lines.length with
        | error e => simp [hr] at h
        | ok ranges =>
          simp only [hr] at h
          cases h
          exact ⟨ts, us, tokensOf_eq_ok.1 hts, rfl, rfl, tokensOf_eq_ok.1 hus, rangesOf_eq_ok.1 hr⟩
  · intro hex
    obtain ⟨ts, us, hts, hl, he, hus, hr⟩ := hex
    obtain ⟨lines, ranges, endsBlank⟩ := a
    dsimp only at hl he hus hr ⊢
    subst hl he
    simp only [tokensOf_eq_ok.2 hts]
    have hus' : tokensOf (Cleaned.ofTokens s ts).text = .ok us := tokensOf_eq_ok.2 hus
    have hr' : rangesOf merge us (Cleaned.ofTokens s ts).lines.length = .ok ranges :=
      rangesOf_eq_ok.2 hr
    simp only [hus', hr']
    rfl

theorem normalize_eq_ok {o : Options} {s t : Text} :
    normalize o s = .ok t ↔ ∃ a, analyse o.mergeRuns s = .ok a ∧ a.assemble o.lineEnding = t := by
  unfold normalize
  cases analyse o.mergeRuns s <;> simp

/-- Stage by stage, a program that has an analysis comes to it and to its text. -/
theorem stages_of_analyse {o : Options} {s : Text} {a : Analysis} (h : analyse o.mergeRuns s = .ok a) :
    ∃ ts us, tokenize s = .ok ts ∧ tokenize (joinLines a.lines) = .ok us ∧
      stages o s = ([.tokens ts, .cleaned ⟨a.lines, a.endsBlank⟩, .tokens us, .ranges a.ranges,
        .separated (insertSeparators a.lines a.ranges), .text (a.assemble o.lineEnding)], none) := by
  obtain ⟨ts, us, hts, hlines, hends, hus, hranges⟩ := analyse_eq_ok.1 h
  refine ⟨ts, us, hts, hus, ?_⟩
  have hcleaned : Cleaned.ofTokens s ts = ⟨a.lines, a.endsBlank⟩ := by rw [Cleaned.ofTokens, hlines, hends]
  simp only [stages, tokensOf_eq_ok.2 hts, hcleaned, Cleaned.text, tokensOf_eq_ok.2 hus,
    rangesOf_eq_ok.2 hranges]
  rfl

/-- Where there is no analysis, the stages end with the same failure. -/
theorem stages_of_refused {o : Options} {s : Text} {e : ProgramError} (h : analyse o.mergeRuns s = .error e) :
    (stages o s).2 = some e := by
  unfold analyse clean at h
  unfold stages
  cases hts : tokensOf s with
  | error _ => simpa [hts] using h
  | ok ts =>
    simp only [hts] at h ⊢
    cases hus : tokensOf (Cleaned.ofTokens s ts).text with
    | error _ => simpa [hus] using h
    | ok us =>
      simp only [hus] at h ⊢
      cases hranges : rangesOf o.mergeRuns us (Cleaned.ofTokens s ts).lines.length with
      | error _ => simpa [hranges] using h
      | ok ranges => simp [hranges] at h

/-- What is left of a program without its blank lines decides the rest. -/
theorem normalize_of_clean {s s' : Text} (h : clean s = clean s') (o : Options) :
    normalize o s = normalize o s' := by
  rw [normalize, normalize, analyse, analyse, h]

/-- A program without its blank lines. -/
theorem Logged.clean_eq {s : Text} {es : List Entry} {last : Layout} (h : Logged s es last) :
    clean s = .ok ⟨(solidRows es).flatMap Row.lines, s.endsBlank⟩ := by
  rw [clean, tokensOf_eq_ok.2 h.tokenize, ← h.removeBlankLines]
  rfl

/-- A program that is normalized goes through a pass. -/
theorem exists_pass {o : Options} {s t : Text} (h : normalize o s = .ok t) :
    ∃ es last a, Pass o s t es last a := by
  obtain ⟨a, ha, ht⟩ := normalize_eq_ok.1 h
  obtain ⟨ts, us, hts, hl, he, -, -⟩ := analyse_eq_ok.1 ha
  obtain ⟨es, last, hlog, rfl⟩ := exists_log hts
  exact ⟨es, last, a, hlog.sheet, hlog.source, hlog.reads, hlog.rest, ha, ht,
    hl.trans (hlog.removeBlankLines _), he⟩

theorem rowStarts_congr {rows rows' : List Row} {n : Nat}
    (h : rows.map (·.lines.length) = rows'.map (·.lines.length)) :
    rowStarts n rows = rowStarts n rows' := by
  induction rows generalizing n rows' with
  | nil => obtain rfl := List.map_eq_nil_iff.1 h.symm; rfl
  | cons row rows ih =>
    cases rows' with
    | nil => cases h
    | cons row' rows' =>
      obtain ⟨h1, h2⟩ := List.cons.inj h
      have hlines : row.lines.length = row'.lines.length := h1
      rw [rowStarts, rowStarts, hlines, ih h2]

theorem insertSeparators_congr {α : Type} {f : List Text → α}
    (h : ∀ (n : Nat) (ls : List Text), f (ls.insertIdx n []) = f ls) (ls : List Text)
    (ranges : List LineRange) : f (insertSeparators ls ranges) = f ls := by
  unfold insertSeparators
  induction ranges.tail with
  | nil => rfl
  | cons r rs ih =>
    rw [List.foldr_cons, separateAt]
    split
    · rw [h, ih]
    · exact ih

namespace Pass

variable {o : Options} {s t : Text} {es : List Entry} {last : Layout} {a : Analysis}

theorem logged (h : Pass o s t es last a) : Logged s es last :=
  ⟨h.sheet, h.source, h.reads, h.rest⟩

theorem solid (h : Pass o s t es last a) :
    Reads .standard .start (es.filter Entry.isSolid) last := h.reads.solid rfl rfl

theorem text_ne_nil (h : Pass o s t es last a) : ∀ row ∈ solidRows es, row.text ≠ [] :=
  h.logged.solid_text_ne_nil

theorem getLast_solid (h : Pass o s t es last a) :
    ∀ row ∈ (solidRows es).getLast?, row.isBlank = false ∧ row.exit ≠ .joined :=
  h.logged.getLast_solid

theorem sheet_cleaned (h : Pass o s t es last a) :
    Sheet (Offside.rewrite .lf false (solidRows es)) := h.logged.sheet_cleaned

theorem cleaned_text (h : Pass o s t es last a) :
    joinLines a.lines = sheetText (Offside.rewrite .lf false (solidRows es)) := by
  rw [h.lines]
  exact h.logged.cleaned_text

/-- The statements of the program, and the lines that a separator is put before. -/
theorem statements (h : Pass o s t es last a) : ∃ us nodes,
    tokenize (joinLines a.lines) = .ok us ∧ outline us = .ok nodes ∧
    List.Sublist (nodes.map (·.start.line)) (rowStarts 1 (solidRows es)) ∧
    a.separated = separatorLines o.mergeRuns a.lines.length (nodes.map (·.start.line)) := by
  obtain ⟨es', hlog, hrows, -⟩ := h.logged.exists_cleaned
  obtain ⟨_, us, -, -, -, hus, hranges⟩ := analyse_eq_ok.1 h.analysed
  rw [← h.lines] at hlog
  obtain rfl := Except.ok.inj (hus.symm.trans hlog.tokenize)
  obtain ⟨nodes, ho, hfirst⟩ := first_of_ranges hranges
  have hstarts := outline_lines hlog.reads ho
  rw [hrows, rowStarts_congr h.logged.lengths_cleaned] at hstarts
  refine ⟨_, nodes, hus, ho, hstarts,
    hfirst ((pairwise_rowStarts h.text_ne_nil 1).sublist hstarts) fun n hn => ?_⟩
  have hlt := rowStarts_lt h.text_ne_nil (hstarts.subset hn)
  rw [← h.lines] at hlt
  omega

/-- The tokens from which the statements were taken are those of the rows that
hold something. -/
theorem cleaned_tokens (h : Pass o s t es last a) : ∃ es' nodes,
    es'.map (·.row) = Offside.rewrite .lf false (solidRows es) ∧
    Reads .standard .start es' last ∧
    List.Forall₂ Entry.Alike (es.filter Entry.isSolid) es' ∧
    outline (lay 1 es' ++ closing last (Place.start.advance (joinLines a.lines)).pastEnd) =
      .ok nodes ∧
    List.Sublist a.separated (nodes.map (·.start.line)).tail ∧
    List.Sublist (nodes.map (·.start.line)) (rowStarts 1 (solidRows es)) := by
  obtain ⟨es', hlog, hrows, hall⟩ := h.logged.exists_cleaned
  obtain ⟨us, nodes, hus, ho, hstarts, hsep⟩ := h.statements
  rw [← h.lines] at hlog
  obtain rfl := Except.ok.inj (hus.symm.trans hlog.tokenize)
  rw [hsep]
  exact ⟨es', nodes, hrows, hlog.reads, hall.imp fun _ _ he => he.alike, ho,
    separatorLines_sublist _ _ _, hstarts⟩

/-! ## What is put in -/

/-- Separators are put before rows behind the first. -/
theorem separated_sublist (h : Pass o s t es last a) :
    List.Sublist a.separated (rowStarts 1 (solidRows es)).tail := by
  obtain ⟨_, nodes, -, -, -, -, h1, h2⟩ := h.cleaned_tokens
  exact h1.trans h2.tail

theorem pairwise_separated (h : Pass o s t es last a) : a.separated.Pairwise (· < ·) :=
  (pairwise_rowStarts h.text_ne_nil 1).sublist (h.separated_sublist.trans (List.tail_sublist _))

theorem one_lt_separated (h : Pass o s t es last a) : ∀ n ∈ a.separated, 1 < n := by
  intro n hn
  have hmem := h.separated_sublist.subset hn
  have hpair := pairwise_rowStarts h.text_ne_nil 1
  cases hrows : solidRows es with
  | nil => rw [hrows] at hmem; cases hmem
  | cons row rows =>
    rw [hrows] at hmem hpair
    exact (List.pairwise_cons.1 hpair).1 n hmem

theorem separated_mem (h : Pass o s t es last a) : ∀ n ∈ a.separated, n ∈ rowStarts 1 (solidRows es) :=
  fun _ hn => List.mem_of_mem_tail (h.separated_sublist.subset hn)

theorem separated_bound (h : Pass o s t es last a) :
    ∀ n ∈ a.separated, 1 < n ∧ n ≤ a.lines.length := by
  intro n hn
  have hlt := rowStarts_lt h.text_ne_nil (h.separated_mem n hn)
  rw [← h.lines] at hlt
  exact ⟨h.one_lt_separated n hn, by omega⟩

/-- What comes out, line by line. -/
theorem insert_lines (h : Pass o s t es last a) :
    insertSeparators a.lines a.ranges = separateLines a.separated 1 a.lines := by
  rw [← foldr_separateAt h.pairwise_separated h.separated_bound, insertSeparators,
    Analysis.separated, List.foldr_map]

/-- What comes out, row by row. -/
theorem insert_eq (h : Pass o s t es last a) : insertSeparators a.lines a.ranges =
    (separate a.separated 1 (solidRows es)).flatMap Row.lines := by
  rw [h.insert_lines, h.lines, lines_separate h.text_ne_nil fun n hn _ => h.separated_mem n hn]

end Pass

end Offside
