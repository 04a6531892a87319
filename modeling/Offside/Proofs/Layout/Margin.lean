import Offside.Proofs.Layout.Balance
import Offside.Proofs.Layout.Within
import Mathlib.Data.List.Infix

/-!
# Lines that are measured

A level is opened or closed where the first code of a logical line stands. Only
white space, comments and backslashes that join lines can stand between it and the
newline that ended the line before, and no bracket is open there.

Results:
* `exists_move`: a token comes from a move;
* `reads_idle`: what stands between the end of a line and the first code behind it;
* `freshLine_iff`: the line of that code begins behind a newline unless a backslash
  joins it to the one above;
* `tokenize_margins`: the lines that are measured.
-/
namespace Offside

open Lexeme Text Layout

/-! ## Lexemes between lines -/

/-- What may stand between the end of a line and the first code behind it. -/
def Lexeme.Kind.isIdle : Kind → Bool
  | .space | .comment | .continuation => true
  | _ => false

/-- A line begins behind the lexemes: there are none, or a newline is the last. -/
def Lexeme.AtLine (ls : List Lexeme) : Prop := ∀ n ∈ ls.getLast?, n.kind = .newline

instance (ls : List Lexeme) : Decidable (AtLine ls) :=
  inferInstanceAs (Decidable (∀ n ∈ ls.getLast?, n.kind = .newline))

/-- Line `k` is the first, or begins behind a newline lexeme. -/
def FreshLine (ls : List Lexeme) (k : Nat) : Prop :=
  ∃ as, as <+: ls ∧ AtLine as ∧ (placeBehind as).line = k

instance (ls : List Lexeme) (k : Nat) : Decidable (FreshLine ls k) :=
  decidable_of_iff (∃ as ∈ ls.inits, AtLine as ∧ (placeBehind as).line = k)
    (exists_congr fun as => by rw [List.mem_inits])

theorem line_placeBehind_append (ls ms : List Lexeme) :
    (placeBehind (ls ++ ms)).line = (placeBehind ls).line + (textOf ms).count '\n' := by
  rw [placeBehind, textOf_append, Place.advance_append, Place.line_advance, placeBehind]

theorem newline_mem_of_valid {l : Lexeme} (h : Valid l)
    (hk : l.kind = .newline ∨ l.kind = .continuation) : '\n' ∈ l.text := by
  obtain ⟨kind, text⟩ := l
  rcases hk with rfl | rfl <;> rcases h with rfl | rfl <;> simp

theorem newline_not_mem_of_valid {l : Lexeme} (h : Valid l)
    (hk : l.kind = .space ∨ l.kind = .comment) : '\n' ∉ l.text := by
  obtain ⟨kind, text⟩ := l
  rcases hk with rfl | rfl
  · exact newline_not_mem_of_all rfl h.2
  · obtain ⟨t, rfl, ht⟩ := h
    simpa using newline_not_mem_of_all rfl ht

theorem count_idle {idle : List Lexeme} (hv : ∀ g ∈ idle, Valid g)
    (hidle : ∀ g ∈ idle, g.kind.isIdle = true) :
    (textOf idle).count '\n' = 0 ↔ ∀ g ∈ idle, g.kind ≠ .continuation := by
  have hmem : '\n' ∈ textOf idle ↔ ∃ g ∈ idle, '\n' ∈ g.text := by simp [textOf]
  rw [List.count_eq_zero, hmem, not_exists]
  refine forall_congr' fun g => not_and.trans (forall_congr' fun hg => not_congr ?_)
  constructor
  · intro hn
    by_contra hc
    refine newline_not_mem_of_valid (hv g hg) ?_ hn
    have := hidle g hg
    cases hk : g.kind <;> simp_all [Kind.isIdle]
  · exact fun hk => newline_mem_of_valid (hv g hg) (Or.inr hk)

theorem brackets_idle {idle : List Lexeme} (h : ∀ g ∈ idle, g.kind.isIdle = true) :
    Lexeme.brackets idle = [] := by
  refine List.filterMap_eq_nil_iff.2 fun g hg => bracket?_of_not_isCode ?_
  have := h g hg
  cases hk : g.kind <;> simp_all [Kind.isIdle, Kind.isCode]

theorem exists_of_newline {idle bs es ds : List Lexeme} {n : Lexeme}
    (hidle : ∀ g ∈ idle, g.kind.isIdle = true) (hn : n.kind = .newline)
    (h : idle ++ bs = es ++ n :: ds) : ∃ fs, es = idle ++ fs := by
  rcases List.append_eq_append_iff.1 h with ⟨fs, hfs, -⟩ | ⟨fs, hfs, hbs⟩
  · exact ⟨fs, hfs⟩
  cases fs with
  | nil => exact ⟨[], by rw [hfs, List.append_nil, List.append_nil]⟩
  | cons f fs =>
    obtain ⟨rfl, -⟩ := List.cons.inj hbs
    have hbetween := hidle n (by simp [hfs])
    rw [hn] at hbetween
    cases hbetween

/-- The line of the first code behind the end of a line begins behind a newline
unless a backslash joins it to the one above. -/
theorem freshLine_iff {as idle bs : List Lexeme} (hv : ∀ k ∈ as ++ idle ++ bs, Valid k)
    (has : AtLine as) (hidle : ∀ g ∈ idle, g.kind.isIdle = true) :
    FreshLine (as ++ idle ++ bs) (placeBehind (as ++ idle)).line ↔
      ∀ g ∈ idle, g.kind ≠ .continuation := by
  rw [← count_idle (fun g hg => hv g (by simp [hg])) hidle, line_placeBehind_append]
  constructor
  · intro hfresh
    obtain ⟨cs, ⟨ds, hds⟩, hcs, hline⟩ := hfresh
    rw [List.append_assoc] at hds
    rcases List.append_eq_append_iff.1 hds with ⟨es, rfl, -⟩ | ⟨es, rfl, hes⟩
    · -- the line began before: what is between is on it
      rw [line_placeBehind_append] at hline
      omega
    rcases List.eq_nil_or_concat es with rfl | ⟨es, n, rfl⟩
    · rw [List.append_nil] at hline
      omega
    · -- the line begins behind code, so it is a lower one
      rw [List.concat_eq_append] at hcs hline hes
      have hn : n.kind = .newline := hcs n (by simp)
      obtain ⟨fs, rfl⟩ := exists_of_newline hidle hn (by rw [hes, List.append_assoc]; rfl)
      have hbelow : 0 < n.text.count '\n' :=
        List.count_pos_iff.2 (newline_mem_of_valid (hv n (by
          rw [List.append_assoc, hes]
          simp)) (Or.inl hn))
      rw [line_placeBehind_append] at hline
      simp only [textOf_append, textOf_cons, textOf_nil, List.count_append, List.append_nil] at hline
      omega
  · intro hzero
    exact ⟨as, ⟨idle ++ bs, by simp⟩, has, by omega⟩

/-! ## Moves that open and close levels -/

namespace Layout

variable {r : Ruler} {s last : Layout} {p : Piece} {t : Token}

theorem code_level {q : Place} {f : Layout → Step} (hf : ∀ m, ∀ u ∈ (f m).emitted, u.kind = .code)
    (ht : t ∈ ((beginCode r s q).andThen f).emitted) (hk : t.kind = .indent ∨ t.kind = .dedent) :
    s.codeSeen = false ∧ t.start.line = q.line ∧ t.stop = q.position := by
  have hbegin : t ∈ (beginCode r s q).emitted := by
    unfold Step.andThen at ht
    split at ht
    · exact ht
    · rcases List.mem_append.1 ht with ht | ht
      · exact ht
      · rw [hf _ t ht] at hk
        simp at hk
  constructor
  · by_contra hc
    rw [beginCode, if_pos (by simpa using hc)] at hbegin
    cases hbegin
  · rcases mem_beginCode hbegin with rfl | rfl <;> exact ⟨rfl, rfl⟩

theorem step_level (ht : t ∈ (step r s p).emitted) (hk : t.kind = .indent ∨ t.kind = .dedent) :
    p.kind.isCode = true ∧ s.codeSeen = false ∧ t.start.line = p.start.line ∧
      t.stop = p.start.position := by
  unfold step at ht
  cases h : p.kind with
  | space | continuation =>
    rw [h] at ht
    cases ht
  | comment =>
    rw [h] at ht
    rw [List.mem_singleton.1 ht] at hk
    simp [Piece.token] at hk
  | newline =>
    have hend : ∀ u ∈ (endLine s p).emitted, u.kind ≠ .indent ∧ u.kind ≠ .dedent := by
      unfold endLine
      split
      · split <;> simp [Step.emit, lineEnd]
      · split <;> simp [Step.emit, Step.fail, blankLine]
    rw [h] at ht
    exact absurd hk (not_or.2 (hend t ht))
  | opener | literal style | word | punct =>
    simp only [h] at ht
    exact ⟨rfl, code_level (fun m u hu => by rw [List.mem_singleton.1 hu]; rfl) ht hk⟩
  | closer =>
    simp only [h] at ht
    refine ⟨rfl, code_level (fun m u hu => ?_) ht hk⟩
    unfold closeBracket at hu
    dsimp only at hu
    split at hu
    · split at hu
      · rw [List.mem_singleton.1 hu]
        rfl
      · cases hu
    · cases hu

theorem step_idle (hf : (step r s p).fault? = none) (hc : (step r s p).next.codeSeen = false) :
    p.kind = .newline ∨ p.kind.isIdle = true ∧ s.codeSeen = false := by
  cases hi : p.kind.isInner with
  | true =>
    rcases step_inner hi hf with ⟨hk, -, hn⟩ | ⟨hk, -, hn⟩ | ⟨-, _, _, _, -, -, -, hn⟩ <;>
      rw [hn] at hc
    · exact Or.inr ⟨by rw [hk]; rfl, hc⟩
    · exact Or.inr ⟨by rw [hk]; rfl, hc⟩
    · cases hc
  | false =>
    cases hk : p.kind with
    | newline => exact Or.inl rfl
    | continuation =>
      rw [step, hk] at hc
      exact Or.inr ⟨rfl, hc⟩
    | space | comment | opener | closer | literal | word | punct =>
      rw [hk] at hi
      cases hi

/-- A token comes from a move, behind lexemes that were read. -/
theorem exists_move {ls : List Lexeme} {q : Place} {ts : List Token}
    (h : reads r s (Piece.placed q ls) = some (ts, last)) (ht : t ∈ ts) :
    ∃ as l bs us m, ls = as ++ l :: bs ∧ reads r s (Piece.placed q as) = some (us, m) ∧
      t ∈ (step r m ⟨l.kind, q.advance (textOf as), l.text, Piece.leadOf l.text⟩).emitted := by
  induction ls using List.reverseRecOn generalizing ts last with
  | nil =>
    obtain ⟨rfl, -⟩ := reads_nil.1 h
    cases ht
  | append_singleton ls l ih =>
    rw [Piece.placed_append] at h
    obtain ⟨us, m, vs, hls, hl, rfl⟩ := reads_append.1 h
    rcases List.mem_append.1 ht with ht | ht
    · obtain ⟨as, k, bs, ws, m', rfl, has, hk⟩ := ih hls ht
      exact ⟨as, k, bs ++ [l], ws, m', by simp, has, hk⟩
    · obtain ⟨-, ws, hw, rfl⟩ := reads_cons.1 hl
      obtain ⟨rfl, -⟩ := reads_nil.1 hw
      rw [List.append_nil] at ht
      exact ⟨ls, l, [], us, m, rfl, hls, ht⟩

/-- Before the first code of a logical line, only lexemes that stand between lines have
been read since a line began. -/
theorem reads_idle {ls : List Lexeme} {q : Place} {ts : List Token}
    (h : reads r s (Piece.placed q ls) = some (ts, last)) (hc : last.codeSeen = false) :
    ∃ as idle, ls = as ++ idle ∧ AtLine as ∧ ∀ g ∈ idle, g.kind.isIdle = true := by
  induction ls using List.reverseRecOn generalizing ts last with
  | nil => exact ⟨[], [], rfl, by simp [AtLine], by simp⟩
  | append_singleton ls l ih =>
    rw [Piece.placed_append] at h
    obtain ⟨us, m, vs, hls, hl, rfl⟩ := reads_append.1 h
    obtain ⟨hf, ws, hw, rfl⟩ := reads_cons.1 hl
    obtain ⟨-, rfl⟩ := reads_nil.1 hw
    rcases step_idle hf hc with hk | ⟨hk, hm⟩
    · exact ⟨ls ++ [l], [], by simp, by simpa [AtLine] using hk, by simp⟩
    · obtain ⟨as, idle, rfl, has, hidle⟩ := ih hls hm
      refine ⟨as, idle ++ [l], by simp, has, fun g hg => ?_⟩
      rcases List.mem_append.1 hg with hg | hg
      · exact hidle g hg
      · rw [List.mem_singleton.1 hg]
        exact hk

end Layout

/-! ## Token streams -/

/-- How the line stands that is measured where the token `t` opens or closes a level:
behind the lexemes `as`, which end a line and leave no bracket open, and with no more
than `idle` before its first code `l`. -/
structure Token.Measured (as idle : List Lexeme) (l : Lexeme) (t : Token) : Prop where
  line : AtLine as
  outside : Balanced (Lexeme.brackets as)
  between : ∀ g ∈ idle, g.kind.isIdle = true
  code : l.kind.isCode = true
  start : t.start.line = (placeBehind (as ++ idle)).line
  stop : t.stop = (placeBehind (as ++ idle)).position

/-- The lines that are measured. A level is opened or closed, before the end of the
text, on the line of the first code behind the end of a line, with no bracket open.
This line is the first or begins behind a newline exactly if no backslash before the
code joins it to the one above. -/
theorem tokenize_margins {s : Text} {ts : List Token} {t : Token} (h : tokenize s = .ok ts)
    (ht : t ∈ ts) (hk : t.kind = .indent ∨ t.kind = .dedent)
    (hend : t.start ≠ (Place.start.advance s).pastEnd) :
    ∃ as idle l bs, (scan s).lexemes = as ++ idle ++ l :: bs ∧ t.Measured as idle l ∧
      (FreshLine (scan s).lexemes t.start.line ↔ ∀ g ∈ idle, g.kind ≠ .continuation) := by
  obtain ⟨us, m, hr, -, rfl⟩ := (tokenizeWith_eq_ok (stop_of_tokenizeWith h)).1 h
  have hus : t ∈ us := by
    rcases List.mem_append.1 ht with ht | ht
    · rcases List.mem_append.1 ht with ht | ht
      · exact ht
      · exact absurd hk (not_or.2 (closeLine_level _ _ t ht))
    · exact absurd (by rcases mem_closing ht with rfl | rfl <;> rfl) hend
  obtain ⟨before, l, bs, vs, k, hls, hbefore, hmove⟩ := exists_move hr hus
  obtain ⟨hcode, hseen, hstart, hstop⟩ := step_level hmove hk
  obtain ⟨as, idle, rfl, has, hidle⟩ := reads_idle hbefore hseen
  have hcut := cut_scan s
  rw [hls] at hcut
  obtain ⟨hcutls, -⟩ := cut_append.1 hcut
  have hbalanced : Balanced (Lexeme.brackets as) := by
    obtain ⟨-, hopen⟩ := reads_unclosed hcutls hbefore
    rw [Lexeme.brackets_append, brackets_idle hidle, List.append_nil,
      (sound_start.reads hbefore).opened hseen] at hopen
    exact balanced_iff.2 hopen
  refine ⟨as, idle, l, bs, hls, ⟨has, hbalanced, hidle, hcode, hstart, hstop⟩, ?_⟩
  rw [hls, hstart]
  exact freshLine_iff hcut.valid has hidle

/-- A level opens on a line that a backslash joins to the one above, since no code
stands before the backslash. -/
theorem tokenize_margins_joined :
    ∃ ts t, tokenize "x\n\\\n  y\n".toList = .ok ts ∧ t ∈ ts ∧ t.kind = .indent ∧
      t.start = ⟨3, 0⟩ ∧ ¬ FreshLine (scan "x\n\\\n  y\n".toList).lexemes 3 ∧
      ∃ as idle l bs, (scan "x\n\\\n  y\n".toList).lexemes = as ++ idle ++ l :: bs ∧
        t.Measured as idle l ∧ ∃ g ∈ idle, g.kind = .continuation := by
  have hfound : (tokenize "x\n\\\n  y\n".toList).map
      (List.find? fun t => t.kind == .indent) = .ok (some ⟨.indent, ⟨3, 0⟩, ⟨3, 2⟩, [' ', ' ']⟩) := by
    simp only [tokenize, tokenizeWith, scan_eq_scanIn]
    decide +kernel
  have hstale : ¬ FreshLine (scan "x\n\\\n  y\n".toList).lexemes 3 := by
    simp only [scan_eq_scanIn]
    decide +kernel
  cases hts : tokenize "x\n\\\n  y\n".toList with
  | error e => rw [hts] at hfound; cases hfound
  | ok ts =>
    rw [hts] at hfound
    have ht := List.mem_of_find?_eq_some (Except.ok.inj hfound)
    obtain ⟨as, idle, l, bs, hls, hmeasured, hiff⟩ :=
      tokenize_margins hts ht (Or.inl rfl) (by decide)
    refine ⟨ts, _, rfl, ht, rfl, rfl, hstale, as, idle, l, bs, hls, hmeasured, ?_⟩
    by_contra hno
    exact hstale (hiff.2 fun g hg hk => hno ⟨g, hg, hk⟩)

end Offside
