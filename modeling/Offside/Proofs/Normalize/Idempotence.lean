import Offside.Proofs.Lexeme.Evaluate
import Offside.Proofs.Normalize.Output
import Mathlib.Data.List.Flatten

/-!
# Normalizing twice

A text that was normalized has no blank lines but its separators, and these are
taken out and put in again, so a second pass changes nothing if it can read what
the first has written. Two things stand in its way: a separator behind a
backslash, and a carriage return that stands before a newline of its own.

Results:
* `Pass.analyse_output`: the second analysis is the first;
* `count_returns`: a pass that ends lines by newlines takes out every carriage
  return before a newline;
* `normalize_again_iff`: when a second pass changes nothing.
-/
namespace Offside

open Lexeme Text Layout

/-! ## Rows read back -/

theorem lines_recast_of_not_infix {row : Row} {e : LineEnding} {closed : Bool} (hne : row.text ≠ [])
    (h : e = .crlf ∨ ¬ ['\r', '\n'] <:+: (row.recast e closed).text)
    (hlast : closed = false → row.isBlank = false ∧ row.exit ≠ .joined) :
    (row.recast e closed).lines = row.lines := by
  cases closed with
  | true =>
    rw [Row.lines_recast e hne]
    apply map_readBack_of_not_infix (t := [])
    rwa [Row.text_recast_closed e hne, ← List.append_nil (row.lines.flatMap _)] at h
  | false =>
    obtain ⟨hb, hx⟩ := hlast rfl
    obtain ⟨ls, l, hl, hr⟩ := Row.lines_recast_open e hne hb hx
    rw [Row.text_recast_open e hne hx, hl, join_concat] at h
    rw [hr, map_readBack_of_not_infix h, hl]

theorem solid_lines_rewrite {e : LineEnding} {closed : Bool} {rows : List Row}
    (hne : ∀ row ∈ rows, row.text ≠ [])
    (h : e = .crlf ∨ ¬ ['\r', '\n'] <:+: sheetText (rewrite e closed rows))
    (hlast : closed = false → ∀ row ∈ rows.getLast?, row.isBlank = false ∧ row.exit ≠ .joined) :
    ((rewrite e closed rows).filter Row.isSolid).flatMap Row.lines =
      (rows.filter Row.isSolid).flatMap Row.lines := by
  induction rows with
  | nil => rfl
  | cons row rows ih =>
    have htext : sheetText (rewrite e closed (row :: rows)) =
        (row.recast e (closed || !rows.isEmpty)).text ++ sheetText (rewrite e closed rows) := rfl
    rw [htext] at h
    have hrest := ih (fun r hr => hne r (by simp [hr]))
      (h.imp_right fun hi hin => hi (hin.trans (List.infix_append_right ..)))
      fun hc r hr => hlast hc r (by rw [List.getLast?_cons, hr]; rfl)
    have hrow : (row.recast e (closed || !rows.isEmpty)).lines = row.lines := by
      refine lines_recast_of_not_infix (hne row (by simp))
        (h.imp_right fun hi hin => hi (hin.trans (List.infix_append_left ..))) fun hc => ?_
      simp only [Bool.or_eq_false_iff, Bool.not_eq_false', List.isEmpty_iff] at hc
      exact hlast hc.1 row (by simp [hc.2])
    have hsolid : (row.recast e (closed || !rows.isEmpty)).isSolid = row.isSolid := by
      simp [Row.isSolid]
    rw [rewrite, List.filter_cons, List.filter_cons, hsolid]
    split
    · rw [List.flatMap_cons, List.flatMap_cons, hrow, hrest]
    · exact hrest

namespace Pass

variable {o : Options} {s t : Text} {es : List Entry} {last : Layout} {a : Analysis}

theorem endsBlank_output (h : Pass o s t es last a) : t.endsBlank = a.endsBlank := by
  have ht := h.result
  rw [Analysis.assemble, assemble] at ht
  cases hc : a.endsBlank with
  | true =>
    have hlast : t.getLast? = some '\n' := by
      rw [← ht, hc, if_pos rfl, LineEnding.text_eq, ← List.append_assoc]
      simp
    rw [Text.endsBlank, hlast]
    rfl
  | false =>
    by_cases hs : s = []
    · rw [h.nil_of_nil hc hs]
      rfl
    · obtain ⟨l, ks, is, js, hb, -, -, hjs⟩ := h.exists_last_line hc hs
      have hne : l ≠ [] := by intro heq; subst heq; cases hb
      have hno : ∀ k ∈ js ++ [l], '\n' ∉ k := fun k hk => h.newline_not_mem_inserted k (by rwa [hjs])
      have hl : '\n' ∉ l := hno l (by simp)
      rw [hc, hjs, if_neg (by decide), List.append_nil] at ht
      have hlines : Text.lines t = js.map (readBack o.lineEnding) ++ [l] := by
        rw [← ht]
        exact lines_join _ (fun k hk => hno k (by simp [hk])) hl hne
      have hlast : t.getLast? ≠ some '\n' := by
        rw [← ht, join_concat, List.getLast?_append_of_ne_nil _ hne]
        exact fun hm => hl (List.mem_of_getLast? hm)
      rw [Text.endsBlank, hlines]
      simp [hlast, hb]

/-- The second analysis is the first. -/
theorem analyse_output (h : Pass o s t es last a)
    (hfree : ∀ n ∈ a.separated, n ∉ joinedLines (joinLines a.lines))
    (hr : o.lineEnding = .crlf ∨ ¬ ['\r', '\n'] <:+: t) : analyse o.mergeRuns t = .ok a := by
  obtain ⟨_, us, -, -, -, hus, hranges⟩ := analyse_eq_ok.1 h.analysed
  obtain ⟨fs, hrows, hread, -, htok⟩ := h.exists_output hfree
  refine analyse_eq_ok.2 ⟨_, us, htok, ?_, h.endsBlank_output.symm, hus, hranges⟩
  have hsheet := h.sheet_output o.lineEnding
  rw [← hrows] at hsheet
  have hremove := removeBlankLines_sheet hread hsheet (Place.start.advance t).pastEnd
  have hfilter : (fs.filter Entry.isSolid).map (·.row) =
      (outputRows o.lineEnding a es).filter Row.isSolid := by
    rw [← hrows, List.filter_map]
    rfl
  have hkept : (separatedRows a es).filter Row.isSolid = solidRows es := by
    rw [← map_row_separatedLog, solidRows, ← filter_separatedLog a es, List.filter_map]
    rfl
  rw [hrows, h.text_eq, hfilter] at hremove
  rw [hremove, h.lines, ← hkept]
  refine (solid_lines_rewrite h.separated_text_ne_nil ?_ h.getLast_separated).symm
  rwa [← outputRows, h.text_eq]

end Pass

/-! ## Carriage returns -/

theorem insertIdx_flatten (n : Nat) (ls : List Text) :
    (ls.insertIdx n []).flatten = ls.flatten := by
  induction ls generalizing n with
  | nil => cases n <;> rfl
  | cons l ls ih =>
    cases n with
    | zero => rfl
    | succ n => rw [List.insertIdx_succ_cons, List.flatten_cons, List.flatten_cons, ih]

theorem flatten_insertSeparators (ls : List Text) (ranges : List LineRange) :
    (insertSeparators ls ranges).flatten = ls.flatten :=
  insertSeparators_congr insertIdx_flatten ls ranges

/-- A pass that ends lines by newlines brings no carriage return in, and takes
every one out that stands before a newline. -/
theorem count_returns {o : Options} {s t : Text} (h : normalize o s = .ok t)
    (he : o.lineEnding ≠ .crlf) : t.count '\r' ≤ s.count '\r' ∧
      (['\r', '\n'] <:+: s → t.count '\r' < s.count '\r') := by
  obtain ⟨a, ha, rfl⟩ := normalize_eq_ok.1 h
  obtain ⟨ts, _, -, hl, -, -, -⟩ := analyse_eq_ok.1 ha
  have htext : o.lineEnding.text = ['\n'] := by cases hc : o.lineEnding <;> simp_all [LineEnding.text]
  have hout : (a.assemble o.lineEnding).count '\r' = a.lines.flatten.count '\r' := by
    rw [Analysis.assemble, assemble, htext, List.count_append, count_join, flatten_insertSeparators]
    cases a.endsBlank <;> simp
  have hlines : a.lines.flatten.count '\r' ≤ (Text.lines s).flatten.count '\r' := by
    rw [hl]
    exact (removeBlankLines_sublist _ ts).flatten.count_le _
  obtain ⟨hle, hlt⟩ := count_reline s
  rw [count_lines] at hlines
  rw [hout]
  exact ⟨by omega, fun hi => by have := hlt hi; omega⟩

/-- A second pass changes nothing exactly if the first has put no separator
behind a backslash, and lines are ended by a carriage return and a newline or no
carriage return was left before a newline. -/
theorem normalize_again_iff {o : Options} {s t : Text} {a : Analysis} (h : normalize o s = .ok t)
    (ha : analyse o.mergeRuns s = .ok a) :
    normalize o t = .ok t ↔
      (∀ r ∈ a.ranges.tail, r.first ∉ joinedLines (joinLines a.lines)) ∧
        (o.lineEnding = .crlf ∨ ¬ ['\r', '\n'] <:+: t) := by
  obtain ⟨es, last, b, hp⟩ := exists_pass h
  obtain rfl : a = b := Except.ok.inj (ha.symm.trans hp.analysed)
  constructor
  · intro ht
    obtain ⟨b, hb, -⟩ := normalize_eq_ok.1 ht
    obtain ⟨ts, -, hts, -⟩ := analyse_eq_ok.1 hb
    refine ⟨(tokenize_output_iff h ha).1 ⟨ts, hts⟩, ?_⟩
    by_cases he : o.lineEnding = .crlf
    · exact Or.inl he
    · apply Or.inr
      intro hi
      have := (count_returns ht he).2 hi
      omega
  · intro hex
    obtain ⟨hfree, hr⟩ := hex
    exact normalize_eq_ok.2 ⟨a, hp.analyse_output (Analysis.forall_separated.2 hfree) hr, hp.result⟩

/-- Both defects. The separator behind a backslash in the second text leaves it without
tokens (`tokenize_output_iff`), so that nothing can be said of the blank lines in it. -/
theorem normalize_again_ne :
    (normalize ⟨.lf, true⟩ "x\r\r\ny".toList = .ok "x\r\ny".toList ∧
      normalize ⟨.lf, true⟩ "x\r\ny".toList ≠ .ok "x\r\ny".toList) ∧
    normalize ⟨.crlf, true⟩ "a\n\\\nb\n".toList = .ok "a\r\n\\\r\n\r\nb\r\n".toList ∧
      normalize ⟨.crlf, true⟩ "a\r\n\\\r\n\r\nb\r\n".toList ≠
        .ok "a\r\n\\\r\n\r\nb\r\n".toList := by
  have h1 : normalize ⟨.lf, true⟩ "x\r\r\ny".toList = .ok "x\r\ny".toList := by
    simp only [normalize, analyse, clean, tokensOf, tokenize, tokenizeWith, scan_eq_scanIn]
    decide +kernel
  have h2 : normalize ⟨.crlf, true⟩ "a\n\\\nb\n".toList =
      .ok "a\r\n\\\r\n\r\nb\r\n".toList := by
    simp only [normalize, analyse, clean, tokensOf, tokenize, tokenizeWith, scan_eq_scanIn]
    decide +kernel
  obtain ⟨a1, ha1, -⟩ := normalize_eq_ok.1 h1
  have ha2 : analyse true "a\n\\\nb\n".toList =
      .ok ⟨["a".toList, "\\".toList, "b".toList], [.between 1 2, .between 3 3], true⟩ := by
    simp only [analyse, clean, tokensOf, tokenize, tokenizeWith, scan_eq_scanIn]
    decide +kernel
  refine ⟨⟨h1, fun h => ?_⟩, h2, fun h => ?_⟩
  · have hr := ((normalize_again_iff h1 ha1).1 h).2
    revert hr
    decide
  · have hfree := ((normalize_again_iff h2 ha2).1 h).1 (.between 3 3) (by decide)
    revert hfree
    simp only [joinedLines, scan_eq_scanIn]
    decide +kernel

end Offside
