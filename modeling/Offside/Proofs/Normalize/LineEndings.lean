import Offside.Proofs.Lexeme.Evaluate
import Offside.Proofs.Lexeme.Returns
import Offside.Proofs.Normalize.Pass

/-!
# The line endings of a program

Whether the lines of a program end with a newline or with a carriage return and a
newline changes neither what comes out nor why a program is refused: the machine
reads the same pieces at the same places, but for white space and what ends a line,
of which it keeps no more than the line.

Results:
* `step_returned`, `run_returned`: a move and a run on the pieces with and without
  the carriage returns;
* `tokenizeWith_crlf`: the tokens, or the failure;
* `normalize_crlf`: what comes out stays.
-/
namespace Offside

open Lexeme Text Layout

/-- The same failure, or values that are related. -/
inductive Agree {ε α β : Type} (R : α → β → Prop) : Except ε α → Except ε β → Prop
  | error (e : ε) : Agree R (.error e) (.error e)
  | ok {a : α} {b : β} : R a b → Agree R (.ok a) (.ok b)

/-- The same piece with and without carriage returns before newlines. White space
and what ends a line may begin and end elsewhere in it. -/
structure Piece.Returned (p q : Piece) : Prop where
  kind : p.kind = q.kind
  line : p.start.line = q.start.line
  inner : p.kind.isInner = true → p.kind ≠ .space → p.Recast .crlf q

namespace Layout

variable {r : Ruler} {s : Layout}

theorem step_returned {p q : Piece} (h : p.Returned q) :
    (step r s p).Recast .crlf (step r s q) := by
  by_cases hi : p.kind.isInner = true ∧ p.kind ≠ .space
  · exact step_recast (h.inner hi.1 hi.2) hi.1
  unfold step
  rw [← h.kind, ← h.line]
  cases hk : p.kind with
  | space | continuation => exact emit_recast .nil
  | newline => exact endLine_recast h.line
  | comment | opener | closer | literal | word | punct => simp [hk, Kind.isInner] at hi

/-- A run on the pieces with the carriage returns fails as the run without does, or
gives the same tokens and leaves the same state. -/
theorem run_returned {ps qs : List Piece} (h : List.Forall₂ Piece.Returned ps qs) :
    Agree (fun a b => List.Forall₂ (Token.Recast .crlf) a.1 b.1 ∧ a.2 = b.2)
      (run r s ps) (run r s qs) := by
  induction h generalizing s with
  | nil => exact .ok ⟨.nil, rfl⟩
  | @cons p q ps qs hp _ ih =>
    have hstep := step_returned (r := r) (s := s) hp
    rw [run, run]
    simp only [← hstep.fault, ← hstep.next]
    cases (step r s p).fault? with
    | some e => exact .error e
    | none =>
      have hrest := ih (s := (step r s p).next)
      generalize run r (step r s p).next ps = a at hrest ⊢
      generalize run r (step r s p).next qs = b at hrest ⊢
      cases hrest with
      | error e => exact .error e
      | ok h => exact .ok ⟨List.rel_append hstep.emitted h.1, h.2⟩

theorem newline_not_mem_finish {p : Place} {ts : List Token} (hp : '\n' ∉ p.behind)
    (h : s.finish p = .ok ts) : ∀ t ∈ ts, '\n' ∉ t.text := by
  obtain ⟨-, rfl⟩ := finish_eq_ok.1 h
  intro t ht
  rcases List.mem_append.1 ht with ht | ht
  · unfold closeLine at ht
    split at ht
    · rw [List.mem_singleton.1 ht]
      simp [Token.mark]
    split at ht
    · cases ht
    · rw [List.mem_singleton.1 ht]
      simpa [blankLine, Place.margin] using hp
  · rcases mem_closing ht with rfl | rfl <;> simp [Token.mark]

end Layout

theorem placed_returned {after : Text} {ls : List Lexeme} (h : Cut after ls)
    (hr : '\r' ∉ textOf ls) {p : Place} (hp : '\n' ∉ p.behind) :
    List.Forall₂ Piece.Returned (Piece.placed p ls) (Piece.placed p (returned ls)) := by
  fun_induction returned ls generalizing p with
  | case1 => exact .nil
  | case2 w t ls ih =>
    obtain ⟨hw, -, ht, -, hls⟩ := h
    simp only [Lexeme.textOf_cons, List.mem_append, not_or] at hr
    obtain rfl := ht.newline_text hr.2.1
    have hw' : ∀ c ∈ w ++ ['\r'], isSpace c = true := by
      intro c hc
      rcases List.mem_append.1 hc with hc | hc
      · exact hw.2 c hc
      · rw [List.mem_singleton.1 hc]
        rfl
    have hline : (p.advance w).line = (p.advance (w ++ ['\r'])).line := by
      rw [line_advance_spaces hw.2, line_advance_spaces hw']
    have hplace : (p.advance (w ++ ['\r'])).advance ['\n'] = (p.advance w).advance ['\n'] := by
      simp [Place.step, hline]
    simp only [Piece.placed, hplace]
    refine .cons ⟨rfl, rfl, fun _ hs => absurd rfl hs⟩
      (.cons ⟨rfl, hline, fun hi => by cases hi⟩ ?_)
    exact ih hls hr.2.2 (newline_not_mem_behind (newline_not_mem_behind hp _) _)
  | case3 l ls _ ih =>
    obtain ⟨hv, -, hls⟩ := h
    simp only [Lexeme.textOf_cons, List.mem_append, not_or] at hr
    have hplace := advance_crlf hr.1 p
    simp only [Piece.placed, hplace]
    refine .cons ⟨rfl, rfl, fun hi _ => ⟨rfl, rfl, hplace.symm, crlf_eq_reline hr.1, ?_, hp⟩⟩
      (ih hls hr.2 (newline_not_mem_behind hp _))
    obtain ⟨c, t, u, ht, hu, -⟩ := hv.head_reline .crlf hi
    rw [crlf_eq_reline hr.1, hu, ht]
    rfl

theorem Lexeme.Fault.error_crlf (cause : Fault) {t : Text} (h : t.head? ≠ some '\n')
    (p : Position) : cause.error p (crlf t) = cause.error p t := by
  have hlead : Piece.leadOf (crlf t) = Piece.leadOf t := by
    simp only [Piece.leadOf, List.headD_eq_head?_getD, head_crlf h]
  unfold Fault.error
  rw [hlead]

/-- The tokens of a text with the carriage returns are those without, or the text is
refused for the same reason. -/
theorem tokenizeWith_crlf (r : Ruler) {s : Text} (h : '\r' ∉ s) :
    Agree (List.Forall₂ (Token.Recast .crlf)) (tokenizeWith r s) (tokenizeWith r (crlf s)) := by
  have hcut := cut_scan s
  have hls := (not_mem_scan h).1
  have hbehind : '\n' ∉ Place.start.behind := by simp [Place.start]
  have hrun := run_returned (r := r) (s := .start) (placed_returned hcut hls hbehind)
  unfold tokenizeWith
  rw [scan_crlf h]
  simp only [textOf_returned hcut hls, advance_crlf hls, advance_crlf h]
  generalize run r .start (Piece.placed .start (scan s).lexemes) = a at hrun ⊢
  generalize run r .start (Piece.placed .start (returned (scan s).lexemes)) = b at hrun ⊢
  cases hrun with
  | error e => exact .error e
  | @ok a b hab =>
    obtain ⟨ts, last⟩ := a
    obtain ⟨us, last⟩ := b
    obtain ⟨hts, rfl⟩ : List.Forall₂ (Token.Recast .crlf) ts us ∧ _ = last := hab
    cases hs : (scan s).stop? with
    | some stop =>
      simp only [Option.map_some, stop.cause.error_crlf (head_stop hs)]
      exact .error _
    | none =>
      simp only [Option.map_none]
      cases hf : Layout.finish _ (Place.start.advance s) with
      | error e => exact .error e
      | ok closing =>
        have hclosing := newline_not_mem_finish (newline_not_mem_behind hbehind s) hf
        exact .ok (List.rel_append hts (Token.recast_self hclosing))

theorem blankLineNumbers_recast {e : LineEnding} {ts us : List Token}
    (h : List.Forall₂ (Token.Recast e) ts us) : blankLineNumbers ts = blankLineNumbers us := by
  unfold blankLineNumbers
  congr 1
  induction h with
  | nil => rfl
  | @cons t u ts us ht _ ih =>
    have hmark : t.isBlankLineMarker = u.isBlankLineMarker := by
      rw [Token.isBlankLineMarker, Token.isBlankLineMarker, ht.kind, ht.startLine, ht.stopLine]
    rw [List.filter_cons, List.filter_cons, hmark]
    split
    · rw [List.map_cons, List.map_cons, ih, ht.startLine]
    · exact ih

theorem clean_crlf {s : Text} (h : '\r' ∉ s) : clean (crlf s) = clean s := by
  have htokens := tokenizeWith_crlf .standard h
  unfold clean tokensOf tokenize
  generalize tokenizeWith .standard s = a at htokens ⊢
  generalize tokenizeWith .standard (crlf s) = b at htokens ⊢
  cases htokens with
  | error e => rfl
  | ok hts =>
    simp only [Cleaned.ofTokens, removeBlankLines, ← blankLineNumbers_recast hts, lines_crlf h,
      endsBlank_crlf h]

/-- What comes out does not depend on how the lines of the program end, nor why it is
refused. -/
theorem normalize_crlf (o : Options) {s : Text} (h : '\r' ∉ s) :
    normalize o (crlf s) = normalize o s :=
  normalize_of_clean (clean_crlf h) o

/-- A literal that spans two lines, white space before a newline, a backslash that
joins lines, and a program that is refused. -/
theorem normalize_crlf_literal :
    '\r' ∉ "x = 'a\\\nb' \n\n\ny = \\\n 1\n".toList ∧
      normalize ⟨.lf, true⟩ "x = 'a\\\r\nb' \r\n\r\n\r\ny = \\\r\n 1\r\n".toList =
        .ok "x = 'a\\\nb' \n\ny = \\\n 1\n".toList ∧
      '\r' ∉ "x = [\n  1)\n".toList ∧
      normalize ⟨.lf, true⟩ "x = [\r\n  1)\r\n".toList =
        .error (.lexical (.unmatchedBracket ⟨2, 3⟩ ')')) := by
  have hx : '\r' ∉ "x = 'a\\\nb' \n\n\ny = \\\n 1\n".toList := by decide
  have hy : '\r' ∉ "x = [\n  1)\n".toList := by decide
  refine ⟨hx, (normalize_crlf _ hx).trans ?_, hy, (normalize_crlf _ hy).trans ?_⟩ <;>
    simp only [normalize, analyse, clean, tokensOf, tokenize, tokenizeWith, scan_eq_scanIn] <;>
    decide +kernel

end Offside
