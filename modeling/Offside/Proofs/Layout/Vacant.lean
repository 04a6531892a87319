import Offside.Proofs.Layout.Blank
import Offside.Proofs.Layout.Within
import Offside.Proofs.Lexeme.Evaluate
import Mathlib.Data.List.Nodup

/-!
# Vacant lines

The machine marks a line blank without looking at its characters. The mark is
right all the same: a vacant line is marked unless a literal runs over it, and
no other line is.

Within a row a line can only begin inside a literal. Each line of it then holds
the closing mark of that literal or is run over by it, and the first line holds
the first lexeme that is not white space, or the backslash that ends the row.

Results:
* `Row.spanned_or_holds`: a line of a row that is not blank holds something, or
  a piece of code runs over it;
* `Row.not_vacant_last`: its last line always holds something;
* `mem_blankLines_iff`: the same said of the rows of a log;
* `count_markedLines`: how many tokens mark a line of a text blank.
-/
namespace Offside

open Lexeme Text Layout

/-- The token begins above line `k` and ends below it. -/
def Token.Spans (k : Nat) (t : Token) : Prop := t.start.line < k ∧ k < t.stop.line

instance (k : Nat) (t : Token) : Decidable (t.Spans k) := inferInstanceAs (Decidable (_ ∧ _))

/-- The lines that are marked blank, in the order of their tokens. -/
def markedLines (ts : List Token) : List Nat :=
  (ts.filter fun t => t.kind = .blankLine).map (·.start.line)

/-! ## Characters on a line -/

/-- The text holds, behind `i` of its newlines and before the next one, a
character that is not passed over. -/
def Holds (t : Text) (i : Nat) : Prop :=
  ∃ a c b, t = a ++ c :: b ∧ a.count '\n' = i ∧ isSpace c = false ∧ c ≠ '\n'

theorem Holds.append {t : Text} {i : Nat} (h : Holds t i) (u : Text) : Holds (t ++ u) i := by
  obtain ⟨a, c, b, rfl, ha, hc⟩ := h
  exact ⟨a, c, b ++ u, by simp, ha, hc⟩

theorem Holds.prepend {t : Text} {i : Nat} (h : Holds t i) (u : Text) :
    Holds (u ++ t) (u.count '\n' + i) := by
  obtain ⟨a, c, b, rfl, ha, hc⟩ := h
  exact ⟨u ++ a, c, b, by simp, by rw [List.count_append, ha], hc⟩

theorem mem_trimReturn {t : Text} {c : Char} (h : c ∈ t) (hc : c ≠ '\r') : c ∈ trimReturn t := by
  by_cases ht : t.getLast? = some '\r'
  · rw [← List.dropLast_append_getLast? _ ht] at h ⊢
    rw [trimReturn_snoc]
    simpa [hc] using h
  · rwa [trimReturn_of_ne ht]

theorem Holds.not_vacant {t l : Text} {i : Nat} (h : Holds t i) (hl : (lines t)[i]? = some l) :
    ¬ Vacant l := by
  obtain ⟨a, c, b, rfl, rfl, hc, hn⟩ := h
  have hr : c ≠ '\r' := by
    rintro rfl
    cases hc
  obtain ⟨a, m, rfl, ha, hm⟩ := exists_ended_append a
  rw [List.count_append, List.count_eq_zero_of_not_mem hm, Nat.add_zero,
    ← length_lines_of_ended ha, List.append_assoc, lines_append ha,
    List.getElem?_append_right (Nat.le_refl _), Nat.sub_self] at hl
  have hmem : c ∈ l := by
    by_cases hb : '\n' ∈ b
    · obtain ⟨u, v, rfl, hu⟩ := List.eq_append_cons_of_mem hb
      have hno : '\n' ∉ m ++ c :: u := by simp [hm, hu, Ne.symm hn]
      rw [← List.cons_append, ← List.append_assoc, lines_line hno] at hl
      rw [← Option.some.inj hl]
      exact mem_trimReturn (by simp) hr
    · have hno : '\n' ∉ m ++ c :: b := by simp [hm, hb, Ne.symm hn]
      rw [lines_of_no_newline hno (by simp)] at hl
      rw [← Option.some.inj hl]
      simp
  intro hv
  rw [hv c hmem] at hc
  cases hc

/-! ## Lexemes on a line -/

theorem not_passed_of_isMark {c : Char} (h : isMark c = true) : isSpace c = false ∧ c ≠ '\n' := by
  rcases isMark_iff.1 h with rfl | rfl <;> decide

theorem not_passed_of_isWordChar {c : Char} (h : isWordChar c = true) :
    isSpace c = false ∧ c ≠ '\n' :=
  ⟨(isWordChar_spec h).2.2.1, (isWordChar_spec h).1⟩

/-- A lexeme that is not white space begins with something else. -/
theorem holds_head {l : Lexeme} (h : l.Valid) (hi : l.kind.isInner = true)
    (hs : l.kind ≠ .space) : Holds l.text 0 := by
  have hhead : ∀ {c t}, l.text = c :: t → isSpace c = false ∧ c ≠ '\n' → Holds l.text 0 :=
    fun ht hc => ⟨[], _, _, ht, rfl, hc⟩
  obtain ⟨kind, text⟩ := l
  cases kind with
  | newline | continuation => cases hi
  | space => exact absurd rfl hs
  | comment =>
    obtain ⟨t, rfl, -⟩ := h
    exact hhead rfl (by decide)
  | opener =>
    obtain ⟨c, rfl, hc⟩ := h
    rcases isOpener_cases hc with rfl | rfl | rfl <;> exact hhead rfl (by decide)
  | closer =>
    obtain ⟨c, rfl, hc⟩ := h
    rcases isCloser_cases hc with rfl | rfl | rfl <;> exact hhead rfl (by decide)
  | literal style =>
    obtain ⟨letters, d, inside, rfl, -, hm, -, hp, -⟩ := h
    have hopening : ∀ c ∈ letters ++ d.text, isSpace c = false ∧ c ≠ '\n' := by
      intro c hc
      rcases List.mem_append.1 hc with hc | hc
      · exact not_passed_of_isWordChar (isWordChar_of_isPrefixLetter (hp c hc))
      · have hcm : c = d.mark := by rcases d.text_eq with e | e <;> simpa [e] using hc
        exact not_passed_of_isMark (hcm ▸ hm)
    obtain ⟨c, t, ht⟩ : ∃ c t, letters ++ d.text = c :: t := by
      apply List.exists_cons_of_ne_nil
      rcases d.text_eq with e | e <;> simp [e]
    refine hhead (t := t ++ inside) ?_ (hopening c (by simp [ht]))
    rw [← List.cons_append, ← ht]
  | word =>
    obtain ⟨hne, hw⟩ := h
    obtain ⟨c, t, rfl⟩ := List.exists_cons_of_ne_nil hne
    exact hhead rfl (not_passed_of_isWordChar (hw c (by simp)))
  | punct =>
    obtain ⟨c, rfl, hc⟩ := h
    exact hhead rfl ⟨(isPunct_spec hc).2.2.2.1, (isPunct_spec hc).2.1⟩

theorem holds_end {l : Lexeme} {style : QuoteStyle} (h : l.Valid) (hk : l.kind = .literal style) :
    Holds l.text (l.text.count '\n') := by
  obtain ⟨kind, text⟩ := l
  subst hk
  obtain ⟨letters, d, inside, rfl, -, hm, -, -, hc⟩ := h
  have hlast : (letters ++ d.text ++ inside).getLast? = some d.mark := by
    rw [List.getLast?_append, closes_getLast hc]
    rfl
  obtain ⟨hspace, hn⟩ := not_passed_of_isMark hm
  have hsplit := List.dropLast_append_getLast? _ hlast
  refine ⟨_, d.mark, [], hsplit.symm, ?_, hspace, hn⟩
  conv => rhs; rw [← hsplit]
  rw [List.count_append, List.count_singleton, if_neg (by simpa using hn), Nat.add_zero]

/-- Below the line on which lexemes of a row begin, each of their lines holds
something, or a piece of code runs over it. -/
theorem spanned_or_holds {after : Text} {ls : List Lexeme} (hcut : Cut after ls)
    (hi : ∀ l ∈ ls, l.kind.isInner = true) {p : Place} {i : Nat} (hpos : 0 < i)
    (hle : i ≤ (textOf ls).count '\n') :
    (∃ q ∈ Piece.placed p ls, q.kind.isCode = true ∧ q.start.line < p.line + i ∧
      p.line + i < q.stop.line) ∨ Holds (textOf ls) i := by
  induction ls generalizing p i with
  | nil =>
    rw [textOf_nil, List.count_nil] at hle
    omega
  | cons l ls ih =>
    obtain ⟨hv, -, hrest⟩ := hcut
    rw [textOf_cons] at hle ⊢
    rw [List.count_append] at hle
    by_cases hl : i ≤ l.text.count '\n'
    · obtain ⟨style, hk⟩ : ∃ style, l.kind = .literal style := by
        by_contra hno
        have := hv.no_newline (hi l (by simp)) fun style hk => hno ⟨style, hk⟩
        rw [List.count_eq_zero_of_not_mem this] at hl
        omega
      rcases Nat.lt_or_eq_of_le hl with hlt | rfl
      · refine Or.inl ⟨_, List.mem_cons_self, by simp [hk, Kind.isCode], ?_, ?_⟩
        · show p.line < p.line + i
          omega
        · show p.line + i < (p.advance l.text).line
          rw [Place.line_advance]
          omega
      · exact Or.inr ((holds_end hv hk).append _)
    · have hline := Place.line_advance p l.text
      obtain ⟨k, rfl⟩ : ∃ k, i = l.text.count '\n' + k := ⟨i - l.text.count '\n', by omega⟩
      rcases ih hrest (fun k hk => hi k (by simp [hk])) (p := p.advance l.text) (i := k)
        (by omega) (by omega) with ⟨q, hq, hcode, h1, h2⟩ | h
      · refine Or.inl ⟨q, List.mem_cons_of_mem _ hq, hcode, ?_, ?_⟩ <;> omega
      · exact Or.inr (h.prepend _)

theorem holds_first {after : Text} {ls : List Lexeme} (hcut : Cut after ls)
    (hi : ∀ l ∈ ls, l.kind.isInner = true) (hs : ∃ l ∈ ls, l.kind ≠ .space) :
    Holds (textOf ls) 0 := by
  induction ls with
  | nil =>
    obtain ⟨l, hl, -⟩ := hs
    cases hl
  | cons l ls ih =>
    rw [textOf_cons]
    by_cases hk : l.kind = .space
    · obtain ⟨m, hm, hmk⟩ := hs
      rcases List.mem_cons.1 hm with rfl | hm
      · exact absurd hk hmk
      · have hno : '\n' ∉ l.text := by
          apply hcut.1.no_newline (hi l (by simp))
          intro style h
          rw [hk] at h
          cases h
        have h := (ih hcut.2.2 (fun k hk => hi k (by simp [hk])) ⟨m, hm, hmk⟩).prepend l.text
        rwa [List.count_eq_zero_of_not_mem hno] at h
    · exact (holds_head hcut.1 (hi l (by simp)) hk).append _

/-! ## Lines of a row -/

namespace Row

theorem holds_first_line {row : Row} (hb : row.isBlank = false) : Holds row.text 0 := by
  by_cases hs : ∃ l ∈ row.core, l.kind ≠ .space
  · exact (holds_first row.cut row.inner hs).append _
  · have hx : row.exit = .joined := by
      by_contra hx
      exact hs (exists_core_not_space hb hx)
    have hno : '\n' ∉ textOf row.core := by
      intro hn
      obtain ⟨l, hl, hln⟩ : ∃ l ∈ row.core, '\n' ∈ l.text := by simpa [textOf] using hn
      have hk : l.kind = .space := by
        by_contra hk
        exact hs ⟨l, hl, hk⟩
      refine (row.cut.valid l hl).no_newline (row.inner l hl) ?_ hln
      intro style h
      rw [hk] at h
      cases h
    refine ⟨textOf row.core, '\\', row.trail ++ ['\n'], ?_, List.count_eq_zero_of_not_mem hno,
      by decide⟩
    simp [text, hx, Exit.glyph, Exit.stop]

/-- A line of a row that is not blank holds something, or a piece of code runs
over it. -/
theorem spanned_or_holds {row : Row} (hb : row.isBlank = false) {i : Nat} (hi : i ≤ row.turn.line) :
    (∃ p ∈ row.pieces, p.kind.isCode = true ∧ p.start.line < i ∧ i < p.stop.line) ∨
      Holds row.text i := by
  rcases Nat.eq_zero_or_pos i with rfl | hpos
  · exact Or.inr (holds_first_line hb)
  · rw [line_turn] at hi
    rcases Offside.spanned_or_holds row.cut row.inner (p := ⟨0, []⟩) hpos hi with h | h
    · simp only [Nat.zero_add] at h
      exact Or.inl h
    · exact Or.inr (h.append _)

/-- The last line of a row that is not blank is not vacant: nothing in the row
runs over it. -/
theorem not_vacant_last {row : Row} (hb : row.isBlank = false) (hne : row.text ≠ [])
    {ks : List Text} {l : Text} (hl : row.lines = ks ++ [l]) : ¬ Vacant l := by
  have hlen := length_lines hne
  rw [hl, List.length_append, List.length_singleton] at hlen
  rcases spanned_or_holds hb (Nat.le_refl _) with ⟨p, hp, -, -, h⟩ | h
  · have hstop : p.stop.line ≤ row.turn.line := stop_placed _ _ p hp
    omega
  · refine h.not_vacant ?_
    rw [← lines, hl, List.getElem?_append_right (by omega), show row.turn.line - ks.length = 0 by omega]
    rfl

end Row

section log

variable {r : Ruler} {s last : Layout} {ts : List Token} {es : List Entry}

/-- A line of a row that is not blank is vacant only if a token runs over it. -/
theorem exists_spans {row : Row} (hb : row.isBlank = false) (h : row.read r s = some (ts, last))
    {i : Nat} {l : Text} (hi : i ≤ row.turn.line) (hl : row.lines[i]? = some l) (hv : Vacant l) :
    ∃ t ∈ ts, t.Spans i := by
  obtain ⟨us, m, hp, -, rfl, -⟩ := read_eq_some.1 h
  rcases Row.spanned_or_holds hb hi with ⟨p, hmem, hk, h1, h2⟩ | hh
  · exact ⟨p.token .code,
      List.mem_append_left _ (token_mem_reads row.pieces_inner hp hmem hk), h1, h2⟩
  · exact absurd hv (hh.not_vacant hl)

theorem lt_of_mem_blankLines {rows : List Row} (h : ∀ row ∈ rows, row.text ≠ []) {n k : Nat}
    (hk : k ∈ blankLines n rows) : k < n + (rows.flatMap Row.lines).length := by
  induction rows generalizing n with
  | nil => cases hk
  | cons row rows ih =>
    rw [List.flatMap_cons, List.length_append]
    rcases List.mem_append.1 hk with hk | hk
    · have := Row.length_lines (h row (by simp))
      split at hk
      · rw [List.mem_singleton.1 hk]
        omega
      · cases hk
    · have := ih (fun r hr => h r (by simp [hr])) hk
      omega

/-- A line of a log is that of a blank row if it is vacant and no token runs over
it. -/
theorem mem_blankLines_iff (h : Reads r s es last) (hne : ∀ row ∈ es.map (·.row), row.text ≠ [])
    {n i : Nat} {l : Text} (hl : (es.flatMap (·.row.lines))[i]? = some l) :
    n + i ∈ blankLines n (es.map (·.row)) ↔ Vacant l ∧ ∀ t ∈ lay n es, ¬ t.Spans (n + i) := by
  induction h generalizing n i with
  | nil => cases hl
  | @cons s m last row ts es hr hrest ih =>
    have hlen := Row.length_lines (hne row (by simp))
    have hrow : ∀ t ∈ ts.map (Token.down n), t.stop.line < n + row.lines.length := by
      intro t ht
      obtain ⟨u, hu, rfl⟩ := List.mem_map.1 ht
      have hle : u.stop.line ≤ row.turn.line := ((read_between hr).1 u hu).last
      show u.stop.line + n < _
      omega
    have hbelow : ∀ t ∈ lay (n + row.lines.length) es, n + row.lines.length ≤ t.start.line := by
      intro t ht
      obtain ⟨-, -, u, -, k, hk, rfl⟩ := mem_lay ht
      exact Nat.le_trans hk (Nat.le_add_left _ _)
    rw [List.flatMap_cons] at hl
    rw [List.map_cons, blankLines, lay]
    dsimp only at hl ⊢
    by_cases hi : i < row.lines.length
    · rw [List.getElem?_append_left hi] at hl
      have hnot : n + i ∉ blankLines (n + row.lines.length) (es.map (·.row)) := by
        intro hmem
        have := le_of_mem_blankLines hmem
        omega
      cases hb : row.isBlank with
      | true =>
        obtain ⟨k, hk, hv⟩ := lines_of_blank hb (hne row (by simp))
        have hone : row.lines.length = 1 := by rw [hk, List.length_singleton]
        obtain rfl : i = 0 := by omega
        obtain rfl : k = l := by simpa [hk] using hl
        refine iff_of_true (by simp) ⟨hv, fun t ht hs => ?_⟩
        obtain ⟨h1, h2⟩ := hs
        rcases List.mem_append.1 ht with ht | ht
        · have := hrow t ht
          omega
        · have := hbelow t ht
          omega
      | false =>
        refine iff_of_false (by simpa using hnot) fun h => ?_
        obtain ⟨t, ht, h1, h2⟩ := exists_spans hb hr (by omega) hl h.1
        refine h.2 (t.down n) (List.mem_append_left _ (List.mem_map_of_mem ht)) ⟨?_, ?_⟩
        · show t.start.line + n < n + i
          omega
        · show n + i < t.stop.line + n
          omega
    · obtain ⟨k, rfl⟩ : ∃ k, i = row.lines.length + k := ⟨i - row.lines.length, by omega⟩
      rw [List.getElem?_append_right (by omega), Nat.add_sub_cancel_left] at hl
      have hplace : n + (row.lines.length + k) = n + row.lines.length + k := by omega
      have hfirst : n + row.lines.length + k ∉ (if row.isBlank then [n] else []) := by
        split
        · rw [List.mem_singleton]
          omega
        · simp
      have habove : ∀ t ∈ ts.map (Token.down n), ¬ t.Spans (n + row.lines.length + k) := by
        intro t ht hs
        have hlt := hs.2
        have := hrow t ht
        omega
      rw [hplace, List.mem_append, or_iff_right hfirst,
        ih (fun q hq => hne q (by simp [hq])) hl, List.forall_mem_append]
      exact and_congr_right fun _ => (and_iff_right habove).symm

end log

/-! ## Marked lines -/

theorem markedLines_append (ts us : List Token) :
    markedLines (ts ++ us) = markedLines ts ++ markedLines us := by
  rw [markedLines, List.filter_append, List.map_append]
  rfl

theorem markedLines_eq_nil {ts : List Token} (h : ∀ t ∈ ts, t.kind ≠ .blankLine) :
    markedLines ts = [] := by
  have hnone : ts.filter (fun t => t.kind = .blankLine) = [] :=
    List.filter_eq_nil_iff.2 fun t ht => by simpa using h t ht
  rw [markedLines, hnone, List.map_nil]

theorem markedLines_lay {r : Ruler} {s last : Layout} {es : List Entry} (h : Reads r s es last)
    (hh : s.lineHeld = false) (n : Nat) (p : Position) :
    markedLines (lay n es ++ closing last p) = blankLines n (es.map (·.row)) := by
  rw [markedLines_append, markedLines_eq_nil (blankLine_not_mem_closing p), List.append_nil,
    ← blankMarkers_lay h hh]
  refine congrArg (List.map _) (List.filter_congr fun t ht => ?_)
  rw [isBlankLineMarker_lay h hh n t ht]
  rfl

theorem not_spans_closing {last : Layout} {p : Position} {t : Token} (h : t ∈ closing last p)
    (k : Nat) : ¬ t.Spans k := by
  have hmark : t.start = t.stop := by rcases mem_closing h with rfl | rfl <;> rfl
  intro hs
  rw [Token.Spans, hmark] at hs
  omega

/-- A line is marked blank by exactly one token if it is vacant and no token runs
over it, and by none otherwise. A mark begins and ends on the line it marks, which
is one of the text, and the marks stand in the order of their lines. -/
theorem count_markedLines {s : Text} {ts : List Token} (h : tokenize s = .ok ts) :
    (∀ k l, (Text.lines s)[k]? = some l → (markedLines ts).count (k + 1) =
      if Vacant l ∧ ∀ t ∈ ts, ¬ t.Spans (k + 1) then 1 else 0) ∧
    (∀ t ∈ ts, t.kind = .blankLine → t.stop.line = t.start.line ∧ 1 ≤ t.start.line ∧
      t.start.line ≤ (Text.lines s).length) ∧
    (markedLines ts).Pairwise (· < ·) := by
  obtain ⟨es, last, hlog, rfl⟩ := exists_log h
  have hne := sheet_text_ne_nil hlog.sheet
  have hlines : Text.lines s = es.flatMap (·.row.lines) := by
    rw [← hlog.source, lines_sheet hlog.sheet, List.flatMap_map]
  have hmarked := markedLines_lay hlog.reads rfl 1 (Place.start.advance s).pastEnd
  have hpair := pairwise_blankLines hne 1
  rw [hlines]
  refine ⟨fun k l hl => ?_, fun t ht hk => ?_, hmarked ▸ hpair⟩
  · have hiff := mem_blankLines_iff hlog.reads hne (n := 1) hl
    rw [Nat.add_comm 1 k] at hiff
    have hspans : (∀ t ∈ lay 1 es ++ closing last (Place.start.advance s).pastEnd,
        ¬ t.Spans (k + 1)) ↔ ∀ t ∈ lay 1 es, ¬ t.Spans (k + 1) := by
      rw [List.forall_mem_append]
      exact and_iff_left fun t ht => not_spans_closing ht _
    rw [← hspans] at hiff
    rw [hmarked]
    split
    · next hv => exact List.count_eq_one_of_mem (List.Pairwise.imp Nat.ne_of_lt hpair) (hiff.2 hv)
    · next hv => exact List.count_eq_zero_of_not_mem fun hmem => hv (hiff.1 hmem)
  · rcases List.mem_append.1 ht with hlay | hclosing
    · have hone := isBlankLineMarker_lay hlog.reads rfl 1 t hlay
      have hmem : t.start.line ∈ blankLines 1 (es.map (·.row)) := by
        rw [← hmarked]
        exact List.mem_map_of_mem (List.mem_filter.2 ⟨ht, by simpa using hk⟩)
      have hlt := lt_of_mem_blankLines hne hmem
      rw [List.flatMap_map] at hlt
      refine ⟨?_, le_of_mem_blankLines hmem, by omega⟩
      simp [Token.isBlankLineMarker, hk] at hone
      exact hone.symm
    · exact absurd hk (blankLine_not_mem_closing _ t hclosing)

/-- Lines of white space in a bracket, within a literal, below it, and at the end,
where no newline ends the last one. -/
theorem count_markedLines_literal :
    ∃ ts, tokenize "(a\n \r\nb)\n\'\'\'\n \n\'\'\'\n\t".toList = .ok ts ∧
      markedLines ts = [2, 7] ∧
      (Text.lines "(a\n \r\nb)\n\'\'\'\n \n\'\'\'\n\t".toList).length = 7 ∧
      ∀ k l, (Text.lines "(a\n \r\nb)\n\'\'\'\n \n\'\'\'\n\t".toList)[k]? = some l →
        (markedLines ts).count (k + 1) =
          if Vacant l ∧ ∀ t ∈ ts, ¬ t.Spans (k + 1) then 1 else 0 := by
  have h : (tokenize "(a\n \r\nb)\n\'\'\'\n \n\'\'\'\n\t".toList).map markedLines =
      .ok [2, 7] := by
    simp only [tokenize, tokenizeWith, scan_eq_scanIn]
    decide +kernel
  cases hts : tokenize "(a\n \r\nb)\n\'\'\'\n \n\'\'\'\n\t".toList with
  | error e => rw [hts] at h; cases h
  | ok ts =>
    rw [hts] at h
    exact ⟨ts, rfl, Except.ok.inj h, by decide, (count_markedLines hts).1⟩

end Offside
