import Offside.Proofs.Layout.Nesting

/-!
# Brackets that match

The machine takes a closer only if it matches the innermost bracket that is open,
and does not stop while one is. Brackets are open only behind the first code of a
logical line, and a logical line is not ended while one is.

Results:
* `balanced_iff`: brackets are well nested where none is left open;
* `reads_outside`: tokens of logical lines and levels stand outside of brackets;
* `unmatched_of_step`: only a closer that does not match is refused as unmatched;
* `tokenize_balanced`: the discipline of brackets in a token stream.
-/
namespace Offside

open Lexeme Text Layout

/-! ## Well-nested brackets -/

/-- Brackets that are well nested: each is closed by one of its own shape, behind
well-nested brackets. -/
inductive Balanced : List Char → Prop
  | nil : Balanced []
  | pair {o : Char} {inner rest : List Char} :
    isOpener o = true → Balanced inner → Balanced rest →
      Balanced (o :: (inner ++ closerOf o :: rest))

/-- Brackets that close open ones, innermost first, with well-nested brackets before
each and behind the last. -/
inductive Shuts : List Char → List Char → Prop
  | nil {cs : List Char} : Balanced cs → Shuts [] cs
  | cons {o : Char} {os inner rest : List Char} :
    Balanced inner → Shuts os rest → Shuts (o :: os) (inner ++ closerOf o :: rest)

theorem isOpener_closerOf {o : Char} (h : isOpener o = true) : isOpener (closerOf o) = false := by
  simp only [isOpener, Bool.or_eq_true, beq_iff_eq] at h
  rcases h with (rfl | rfl) | rfl <;> rfl

theorem turn_closerOf {o : Char} (h : isOpener o = true) (outer : List Char) :
    turn (o :: outer) (closerOf o) = some outer := by
  simp [turn, isOpener_closerOf h]

theorem unclosed_cons {opened cs : List Char} {c : Char} :
    unclosed opened (c :: cs) = (turn opened c).bind fun inner => unclosed inner cs := rfl

theorem Balanced.unclosed {cs : List Char} (h : Balanced cs) (opened : List Char) :
    unclosed opened cs = some opened := by
  induction h generalizing opened with
  | nil => rfl
  | pair ho _ _ hinner hrest =>
    rw [unclosed_cons, turn_opener ho, Option.bind_some, unclosed_append_of (hinner _),
      unclosed_cons, turn_closerOf ho, Option.bind_some, hrest]

theorem Shuts.pair {o : Char} {os inner rest : List Char} (ho : isOpener o = true)
    (hinner : Balanced inner) (h : Shuts os rest) : Shuts os (o :: (inner ++ closerOf o :: rest)) := by
  cases h with
  | nil hrest => exact .nil (.pair ho hinner hrest)
  | @cons o' os inner' rest' hinner' hrest =>
    have hpair := Shuts.cons (o := o') (.pair ho hinner hinner') hrest
    simpa using hpair

theorem shuts_of_unclosed {opened cs : List Char} (h : unclosed opened cs = some []) :
    Shuts opened cs := by
  induction cs generalizing opened with
  | nil =>
    obtain rfl : opened = [] := Option.some.inj h
    exact .nil .nil
  | cons c cs ih =>
    rw [unclosed_cons, Option.bind_eq_some_iff] at h
    obtain ⟨inner, hturn, hcs⟩ := h
    have hshuts := ih hcs
    unfold turn at hturn
    split at hturn
    · next ho =>
      obtain rfl := Option.some.inj hturn
      cases hshuts with
      | cons hinner hrest => exact .pair ho hinner hrest
    · split at hturn
      · cases hturn
      · split at hturn
        · next hmatch =>
          obtain rfl := Option.some.inj hturn
          subst hmatch
          exact Shuts.cons .nil hshuts
        · cases hturn

/-- Brackets are well nested where none is left open. -/
theorem balanced_iff {cs : List Char} : Balanced cs ↔ unclosed [] cs = some [] := by
  constructor
  · exact fun h => h.unclosed []
  · intro h
    cases shuts_of_unclosed h with
    | nil hcs => exact hcs

instance (cs : List Char) : Decidable (Balanced cs) := decidable_of_iff _ balanced_iff.symm

/-! ## Outside of brackets -/

/-- The kinds that mark where logical lines and levels begin and end. -/
def Token.Kind.isLayout : Token.Kind → Bool
  | .newline | .indent | .dedent => true
  | _ => false

/-- Logical lines and levels begin and end only where no bracket is open. -/
def Outside (opened : List Char) (ts : List Token) : Prop :=
  ∀ us t vs, ts = us ++ t :: vs → t.kind.isLayout = true →
    unclosed opened (Token.brackets us) = some []

theorem outside_of_isLayout {ts : List Token} (h : ∀ t ∈ ts, t.kind.isLayout = false)
    (opened : List Char) : Outside opened ts := by
  rintro us t vs rfl hk
  rw [h t (by simp)] at hk
  cases hk

theorem outside_of_ne_code {ts : List Token} (h : ∀ t ∈ ts, t.kind ≠ .code) : Outside [] ts := by
  rintro us t vs rfl -
  rw [brackets_of_ne_code fun u hu => h u (by simp [hu])]
  rfl

theorem Outside.append {opened mid : List Char} {ts us : List Token} (h : Outside opened ts)
    (hmid : unclosed opened (Token.brackets ts) = some mid) (hu : Outside mid us) :
    Outside opened (ts ++ us) := by
  intro as t bs he hk
  rcases List.append_eq_append_iff.1 he with ⟨as', rfl, hus⟩ | ⟨ts', rfl, hbs⟩
  · rw [Token.brackets_append, unclosed_append_of hmid]
    exact hu as' t bs hus hk
  · cases ts' with
    | nil =>
      rw [List.append_nil] at hmid
      rw [hmid]
      exact hu [] t bs hbs.symm hk
    | cons t' ts' =>
      obtain ⟨rfl, -⟩ := List.cons.inj hbs
      exact h as t ts' rfl hk

namespace Layout

variable {r : Ruler} {s last : Layout} {p : Piece}

theorem step_outside (hs : Sound s) (hf : (step r s p).fault? = none) :
    Outside s.opened (step r s p).emitted := by
  cases hi : p.kind.isInner with
  | true =>
    rcases step_inner hi hf with ⟨-, he, -⟩ | ⟨-, he, -⟩ | ⟨-, margin, _, _, he, hm, hc, -⟩ <;>
      rw [he]
    · exact outside_of_isLayout (by simp) _
    · exact outside_of_isLayout (by simp [Piece.token, Token.Kind.isLayout]) _
    · have hcode : ∀ opened, Outside opened [p.token .code] :=
        outside_of_isLayout (by simp [Piece.token, Token.Kind.isLayout])
      cases hseen : s.codeSeen with
      | true =>
        rw [hc hseen]
        exact hcode _
      | false =>
        rw [hs.opened hseen]
        refine (outside_of_ne_code hm.ne_code).append ?_ (hcode [])
        rw [brackets_of_ne_code hm.ne_code]
        rfl
  | false =>
    rcases step_outer (r := r) (s := s) hi with h | h <;> rw [h] at hf ⊢
    · rcases endLine_spec rfl hf with ⟨-, hb, -, he, -⟩ | ⟨-, -, he, -⟩ | ⟨-, -, he, -⟩ <;> rw [he]
      · rw [opened_eq_nil.2 hb]
        exact outside_of_ne_code (by simp [lineEnd])
      · exact outside_of_isLayout (by simp [lineEnd, Token.Kind.isLayout]) _
      · exact outside_of_isLayout (by simp [blankLine, Token.Kind.isLayout]) _
    · exact outside_of_isLayout (by simp [Step.emit]) _

/-- Tokens of logical lines and levels stand outside of brackets. -/
theorem reads_outside {after : Text} {ls : List Lexeme} {q : Place} {ts : List Token} (hs : Sound s)
    (hcut : Cut after ls) (h : reads r s (Piece.placed q ls) = some (ts, last)) :
    Outside s.opened ts := by
  induction ls generalizing q s ts with
  | nil =>
    obtain ⟨rfl, -⟩ := reads_nil.1 h
    exact outside_of_isLayout (by simp) _
  | cons l ls ih =>
    obtain ⟨hf, us, hr, rfl⟩ := reads_cons.1 h
    refine (step_outside hs hf).append ?_ (ih hs.step hcut.2.2 hr)
    rw [step_brackets hcut.1 hf]
    exact step_unclosed hcut.1 rfl hf

/-! ## Closers that do not match -/

theorem run_eq_error {ls : List Lexeme} {q : Place} {e : LexError}
    (h : run r s (Piece.placed q ls) = .error e) : ∃ as l bs us m, ls = as ++ l :: bs ∧
      run r s (Piece.placed q as) = .ok (us, m) ∧
      (step r m ⟨l.kind, q.advance (textOf as), l.text, Piece.leadOf l.text⟩).fault? = some e := by
  induction ls generalizing q s with
  | nil => cases h
  | cons l ls ih =>
    rw [Piece.placed, run] at h
    split at h
    · next e' hf =>
      cases h
      exact ⟨[], l, ls, [], s, rfl, rfl, hf⟩
    · next hf =>
      split at h
      · next e' hr =>
        cases h
        obtain ⟨as, l', bs, us, m, rfl, hrun, hfault⟩ := ih hr
        refine ⟨l :: as, l', bs, _, m, rfl, run_cons_ok.2 ⟨hf, us, hrun, rfl⟩, ?_⟩
        rw [textOf_cons, Place.advance_append]
        exact hfault
      · cases h

theorem andThen_eq_fault {a : Step} {f : Layout → Step} {e : LexError}
    (h : (a.andThen f).fault? = some e) :
    a.fault? = some e ∨ a.fault? = none ∧ (f a.next).fault? = some e := by
  unfold Step.andThen at h
  cases ha : a.fault? with
  | some e' => exact Or.inl (by simpa [ha] using h)
  | none => exact Or.inr ⟨rfl, by simpa [ha] using h⟩

theorem beginCode_fault_ne {q : Place} {place : Position} {found : Char} :
    (beginCode r s q).fault? ≠ some (.unmatchedBracket place found) := by
  have hindent : (indentTo r s q).fault? ≠ some (.unmatchedBracket place found) := by
    obtain ⟨_, rfl | rfl | rfl, hi | ⟨-, hi⟩ | hi⟩ := indentTo_forms r s q <;> rw [hi] <;> simp
  intro h
  unfold beginCode at h
  split at h
  · cases h
  · rcases andThen_eq_fault h with h | ⟨-, h⟩
    · exact hindent h
    · cases h

/-- Only a closer that does not match the innermost open bracket is refused as
unmatched. -/
theorem unmatched_of_step {place : Position} {found : Char}
    (h : (step r s p).fault? = some (.unmatchedBracket place found)) :
    p.kind = .closer ∧ place = p.start.position ∧ found = p.lead ∧
      ∀ o ∈ s.opened.head?, closerOf o ≠ p.lead := by
  unfold step at h
  cases hk : p.kind with
  | space | continuation | comment => simp only [hk] at h; cases h
  | newline =>
    simp only [hk, endLine] at h
    split at h
    · split at h <;> cases h
    · split at h <;> cases h
  | opener | literal style | word | punct =>
    simp only [hk] at h
    rcases andThen_eq_fault h with h | ⟨-, h⟩
    · exact absurd h beginCode_fault_ne
    · cases h
  | closer =>
    simp only [hk] at h
    rcases andThen_eq_fault h with h | ⟨hb, h⟩
    · exact absurd h beginCode_fault_ne
    obtain ⟨-, -, levels, hl⟩ := beginCode_spec rfl hb
    rw [hl] at h
    simp only [closeBracket, markCode] at h
    simp only [opened, List.head?_map]
    cases hhead : s.brackets.head? with
    | none =>
      rw [hhead] at h
      cases h
      exact ⟨trivial, rfl, rfl, by simp⟩
    | some b =>
      rw [hhead] at h
      dsimp only at h
      split at h
      · cases h
      · next hne =>
        cases h
        exact ⟨trivial, rfl, rfl, by simpa using hne⟩

end Layout

/-! ## Token streams -/

/-- Where the lexeme stands that follows the first lexemes of a text. -/
def Lexeme.placeBehind (ls : List Lexeme) : Place := Place.start.advance (textOf ls)

/-- The brackets of tokens are well nested, and logical lines and levels begin and
end only where no bracket is open. -/
structure Token.Nested (ts : List Token) : Prop where
  balanced : Balanced (Token.brackets ts)
  outside : ∀ us t vs, ts = us ++ t :: vs → t.kind.isLayout = true → Balanced (Token.brackets us)

/-- Behind the brackets `cs`, a token stands for the end of a line at `p` that ends
no logical line. -/
def Token.BreaksAt (cs : List Char) (p : Position) (ts : List Token) : Prop :=
  ∃ us t vs, ts = us ++ t :: vs ∧ Token.brackets us = cs ∧
    (t.kind = .lineBreak ∧ t.start = p ∨ t.kind = .blankLine ∧ t.stop = p)

/-- The lexeme `l` behind the lexemes `ls` is a closer, and not of the innermost
bracket that they leave open. -/
structure Lexeme.Unmatched (ls : List Lexeme) (l : Lexeme) (found : Char) : Prop where
  closer : l.kind = .closer
  text : l.text = [found]
  unmatched : ∃ os, unclosed [] (Lexeme.brackets ls) = some os ∧ ∀ o ∈ os.head?, closerOf o ≠ found

theorem nested_of_tokenizeWith {r : Ruler} {s : Text} {ts : List Token}
    (h : tokenizeWith r s = .ok ts) : Token.Nested ts := by
  obtain ⟨us, m, hr, hrest, rfl⟩ := (tokenizeWith_eq_ok (stop_of_tokenizeWith h)).1 h
  obtain ⟨hbrackets, hopen⟩ := reads_unclosed (cut_scan s) hr
  rw [← hbrackets, opened_eq_nil.2 hrest.brackets] at hopen
  have hend : ∀ t ∈ closeLine m (Place.start.advance s) ++
      closing m (Place.start.advance s).pastEnd, t.kind ≠ .code := by
    refine List.forall_mem_append.2 ⟨fun t ht hk => ?_, fun t ht => ?_⟩
    · have hline := closeLine_endsLine m _ t ht
      rw [hk] at hline
      cases hline
    · rcases mem_closing ht with rfl | rfl <;> simp [Token.mark]
  have hout := (reads_outside sound_start (cut_scan s) hr).append hopen (outside_of_ne_code hend)
  rw [List.append_assoc]
  refine ⟨balanced_iff.2 ?_, fun as t bs he hk => balanced_iff.2 (hout as t bs he hk)⟩
  rw [Token.brackets_append, brackets_of_ne_code hend, List.append_nil]
  exact hopen

theorem exists_step {r : Ruler} {s : Text} {ts : List Token} {ls ms : List Lexeme} {l : Lexeme}
    (h : tokenizeWith r s = .ok ts) (hls : (scan s).lexemes = ls ++ l :: ms) :
    ∃ us m a vs, reads r .start (Piece.placed .start ls) = some (us, m) ∧
      step r m ⟨l.kind, placeBehind ls, l.text, Piece.leadOf l.text⟩ = a ∧ a.fault? = none ∧
      ts = us ++ (a.emitted ++ vs) := by
  obtain ⟨us, last, hr, -, rfl⟩ := (tokenizeWith_eq_ok (stop_of_tokenizeWith h)).1 h
  rw [hls, Piece.placed_append] at hr
  obtain ⟨us, m, ws, hbefore, hrest, rfl⟩ := reads_append.1 hr
  obtain ⟨hf, vs, -, rfl⟩ := reads_cons.1 hrest
  refine ⟨us, m, _, vs ++ (closeLine last (Place.start.advance s) ++
    closing last (Place.start.advance s).pastEnd), hbefore, rfl, hf, ?_⟩
  simp [placeBehind]

theorem breaksAt_of_tokenizeWith {r : Ruler} {s : Text} {ts : List Token} {ls ms : List Lexeme}
    {l : Lexeme} (h : tokenizeWith r s = .ok ts) (hls : (scan s).lexemes = ls ++ l :: ms)
    (hk : l.kind = .newline) (hopen : ¬ Balanced (Lexeme.brackets ls)) :
    Token.BreaksAt (Lexeme.brackets ls) (placeBehind ls).position ts := by
  obtain ⟨us, m, a, vs, hbefore, ha, hf, rfl⟩ := exists_step h hls
  have hcut := cut_scan s
  rw [hls] at hcut
  obtain ⟨hbrackets, hunclosed⟩ := reads_unclosed (cut_append.1 hcut).1 hbefore
  have hheld : m.brackets ≠ [] := by
    intro hb
    rw [opened_eq_nil.2 hb] at hunclosed
    exact hopen (balanced_iff.2 hunclosed)
  rw [hk] at ha
  rcases endLine_spec ha hf with ⟨-, hb, -⟩ | ⟨-, -, he, -⟩ | ⟨-, -, he, -⟩
  · exact absurd hb hheld
  · rw [he]
    exact ⟨us, _, vs, rfl, hbrackets, Or.inl ⟨rfl, rfl⟩⟩
  · rw [he]
    exact ⟨us, _, vs, rfl, hbrackets, Or.inr ⟨rfl, rfl⟩⟩

theorem unmatched_of_tokenizeWith {r : Ruler} {s : Text} {place : Position} {found : Char}
    (h : tokenizeWith r s = .error (.unmatchedBracket place found)) :
    ∃ ls l ms, (scan s).lexemes = ls ++ l :: ms ∧ Lexeme.Unmatched ls l found ∧
      place = (placeBehind ls).position := by
  have hrun : run r .start (Piece.placed .start (scan s).lexemes) =
      .error (.unmatchedBracket place found) := by
    unfold tokenizeWith at h
    dsimp only at h
    split at h
    · next he => rw [he, Except.error.inj h]
    · split at h
      · next stop _ =>
        obtain ⟨cause, rest⟩ := stop
        cases cause with
        | unexpectedCharacter => cases h
        | unterminated style => cases style <;> cases h
      · split at h
        · next he =>
          cases h
          unfold finish at he
          split at he <;> cases he
        · cases h
  obtain ⟨ls, l, ms, us, m, hls, hbefore, hfault⟩ := run_eq_error hrun
  obtain ⟨hk, rfl, rfl, hne⟩ := unmatched_of_step hfault
  have hcut := cut_scan s
  rw [hls] at hcut
  obtain ⟨hcutls, hv, -⟩ := cut_append.1 hcut
  obtain ⟨-, hunclosed⟩ := reads_unclosed hcutls (reads_eq_some.2 ⟨m, hbefore, rfl⟩)
  rw [opened_unplaced] at hunclosed
  obtain ⟨kind, text⟩ := l
  dsimp only at hk
  subst hk
  obtain ⟨c, rfl, -⟩ := hv
  exact ⟨ls, _, ms, hls, ⟨rfl, rfl, _, hunclosed, hne⟩, rfl⟩

/-- The discipline of brackets. In a stream they are well nested, logical lines and
levels begin and end only where none is open, and the end of a line where one is
open ends no logical line. A text is refused for an unmatched bracket only at a
closer that does not match the innermost bracket that is open before it, with its
place and its character. -/
theorem tokenize_balanced (s : Text) :
    (∀ ts, tokenize s = .ok ts → Token.Nested ts ∧
      ∀ ls l ms, (scan s).lexemes = ls ++ l :: ms → l.kind = .newline →
        ¬ Balanced (Lexeme.brackets ls) →
        Token.BreaksAt (Lexeme.brackets ls) (placeBehind ls).position ts) ∧
    ∀ place found, tokenize s = .error (.unmatchedBracket place found) →
      ∃ ls l ms, (scan s).lexemes = ls ++ l :: ms ∧ Lexeme.Unmatched ls l found ∧
        place = (placeBehind ls).position :=
  ⟨fun _ h => ⟨nested_of_tokenizeWith h, fun _ _ _ hls hk hopen =>
    breaksAt_of_tokenizeWith h hls hk hopen⟩, fun _ _ h => unmatched_of_tokenizeWith h⟩

/-- Lines that end inside of one bracket and of two, one of them blank, with a bracket
in a string and a block behind them; and a bracket that another closes. -/
theorem tokenize_balanced_lines :
    ∃ ts, tokenize "f(\n\n[a,\n')'])\nif b:\n  c".toList = .ok ts ∧
      Token.brackets ts = ['(', '[', ']', ')'] ∧ Token.Nested ts ∧
      Token.BreaksAt ['('] ⟨1, 2⟩ ts ∧ Token.BreaksAt ['('] ⟨2, 0⟩ ts ∧
      Token.BreaksAt ['(', '['] ⟨3, 3⟩ ts ∧
      tokenize "f(a]".toList = .error (.unmatchedBracket ⟨1, 3⟩ ']') ∧
      ∃ ls l ms, (scan "f(a]".toList).lexemes = ls ++ l :: ms ∧ Lexeme.Unmatched ls l ']' ∧
        ⟨1, 3⟩ = (placeBehind ls).position := by
  have hok : (tokenize "f(\n\n[a,\n')'])\nif b:\n  c".toList).map Token.brackets =
      .ok ['(', '[', ']', ')'] := by
    simp only [tokenize, tokenizeWith, scan_eq_scanIn]
    decide +kernel
  have herror : tokenize "f(a]".toList = .error (.unmatchedBracket ⟨1, 3⟩ ']') := by
    simp only [tokenize, tokenizeWith, scan_eq_scanIn]
    decide +kernel
  cases hts : tokenize "f(\n\n[a,\n')'])\nif b:\n  c".toList with
  | error e => rw [hts] at hok; cases hok
  | ok ts =>
    rw [hts] at hok
    obtain ⟨hnested, hbreaks⟩ := (tokenize_balanced _).1 ts hts
    let ls : List Lexeme := [⟨.word, ['f']⟩, ⟨.opener, ['(']⟩]
    let ms : List Lexeme := [⟨.opener, ['[']⟩, ⟨.word, ['a']⟩, ⟨.punct, [',']⟩]
    let end1 : Lexeme := ⟨.newline, ['\n']⟩
    have hlexemes : (scan "f(\n\n[a,\n')'])\nif b:\n  c".toList).lexemes =
        ls ++ end1 :: end1 :: (ms ++ end1 :: (scan "')'])\nif b:\n  c".toList).lexemes) := by
      simp only [scan_eq_scanIn]
      decide +kernel
    refine ⟨ts, rfl, Except.ok.inj hok, hnested, ?_, ?_, ?_, herror,
      (tokenize_balanced _).2 _ _ herror⟩
    · exact hbreaks ls end1 _ hlexemes rfl (by decide)
    · exact hbreaks (ls ++ [end1]) end1 _ hlexemes rfl (by decide)
    · exact hbreaks (ls ++ end1 :: end1 :: ms) end1 _ hlexemes rfl (by decide)

end Offside
