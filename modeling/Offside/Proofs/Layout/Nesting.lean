import Offside.Proofs.Layout.Form

/-!
# Open brackets

Which brackets are open can be read off the tokens: only code of a single
bracket character opens or closes one. The machine keeps the same brackets, so
where it holds none open the tokens so far leave none open.

Results:
* `step_brackets`: the brackets among the tokens of a move are that of its lexeme;
* `step_unclosed`: a move opens and closes what its lexeme does, and a closer that
  it takes matches the innermost bracket that is open;
* `Reads.nesting`: a log opens and closes what its tokens do.
-/
namespace Offside

open Lexeme Text Layout

/-- The brackets that are open behind a token, innermost first. -/
def Token.nest (opened : List Char) (t : Token) : List Char :=
  match t.kind, t.text with
  | .code, [c] => if isOpener c then c :: opened else if isCloser c then opened.tail else opened
  | _, _ => opened

/-- The brackets that are open behind tokens. -/
def nesting (opened : List Char) (ts : List Token) : List Char := ts.foldl Token.nest opened

/-- The brackets that the machine holds open. -/
def Layout.opened (s : Layout) : List Char := s.brackets.map (·.opener)

/-! ## Brackets that match -/

/-- The brackets that are open behind the bracket `c`, innermost first; none if `c`
does not match the one that it closes. -/
def turn (opened : List Char) (c : Char) : Option (List Char) :=
  if isOpener c then some (c :: opened)
  else
    match opened with
    | [] => none
    | o :: outer => if closerOf o = c then some outer else none

/-- The brackets that are open behind brackets. -/
def unclosed (opened cs : List Char) : Option (List Char) := cs.foldlM turn opened

theorem unclosed_append_of {opened inner cs ds : List Char} (h : unclosed opened cs = some inner) :
    unclosed opened (cs ++ ds) = unclosed inner ds := by
  rw [unclosed, List.foldlM_append, ← unclosed, h]
  rfl

theorem turn_opener {opened : List Char} {c : Char} (h : isOpener c = true) :
    turn opened c = some (c :: opened) := by
  simp [turn, h]

theorem unclosed_singleton (opened : List Char) (c : Char) : unclosed opened [c] = turn opened c := by
  simp [unclosed]

theorem nesting_append (opened : List Char) (ts us : List Token) :
    nesting opened (ts ++ us) = nesting (nesting opened ts) us := List.foldl_append

theorem nesting_down (n : Nat) (opened : List Char) (ts : List Token) :
    nesting opened (ts.map (Token.down n)) = nesting opened ts := by
  induction ts generalizing opened with
  | nil => rfl
  | cons t ts ih => exact ih (t.nest opened)

/-- The bracket that a token is, if it is one. -/
def Token.bracket? (t : Token) : Option Char :=
  match t.kind, t.text with
  | .code, [c] => if isOpener c || isCloser c then some c else none
  | _, _ => none

/-- The brackets among tokens. -/
def Token.brackets (ts : List Token) : List Char := ts.filterMap Token.bracket?

/-- The bracket that a lexeme is, if it is one. -/
def Lexeme.bracket? (l : Lexeme) : Option Char :=
  match l.kind with
  | .opener | .closer => l.text.head?
  | _ => none

/-- The brackets among lexemes. -/
def Lexeme.brackets (ls : List Lexeme) : List Char := ls.filterMap Lexeme.bracket?

theorem Token.brackets_append (ts us : List Token) :
    Token.brackets (ts ++ us) = Token.brackets ts ++ Token.brackets us := List.filterMap_append

theorem Lexeme.brackets_append (ls ms : List Lexeme) :
    Lexeme.brackets (ls ++ ms) = Lexeme.brackets ls ++ Lexeme.brackets ms := List.filterMap_append

theorem isOpener_of_isCloser {c : Char} (h : isCloser c = true) : isOpener c = false := by
  simp only [isCloser, Bool.or_eq_true, beq_iff_eq] at h
  rcases h with (rfl | rfl) | rfl <;> rfl

theorem nest_of_unclosed {opened os : List Char} {t : Token}
    (h : unclosed opened (Token.brackets [t]) = some os) : t.nest opened = os := by
  unfold Token.nest
  split
  · next c hk ht =>
    by_cases hb : (isOpener c || isCloser c) = true
    · have hone : Token.brackets [t] = [c] := by simp [Token.brackets, Token.bracket?, hk, ht, hb]
      rw [hone, unclosed_singleton] at h
      unfold turn at h
      split at h
      · next ho => rw [if_pos ho, Option.some.inj h]
      · next ho =>
        rw [if_neg ho, if_pos (by simpa [ho] using hb)]
        split at h
        · cases h
        · split at h
          · exact Option.some.inj h
          · cases h
    · have hnone : Token.brackets [t] = [] := by simp [Token.brackets, Token.bracket?, hk, ht, hb]
      rw [hnone] at h
      rw [Bool.or_eq_true, not_or] at hb
      rw [if_neg hb.1, if_neg hb.2, ← Option.some.inj h]
  · next hno =>
    have hnone : t.bracket? = none := by
      unfold Token.bracket?
      split
      · next c hk ht => exact absurd ht (hno c hk)
      · rfl
    rw [Token.brackets, List.filterMap_cons, hnone] at h
    exact Option.some.inj h

theorem nesting_of_unclosed {opened os : List Char} {ts : List Token}
    (h : unclosed opened (Token.brackets ts) = some os) : nesting opened ts = os := by
  induction ts generalizing opened with
  | nil => exact Option.some.inj h
  | cons t ts ih =>
    rw [← List.singleton_append, Token.brackets_append, unclosed, List.foldlM_append,
      Option.bind_eq_bind, Option.bind_eq_some_iff] at h
    obtain ⟨mid, ht, hts⟩ := h
    rw [nesting, List.foldl_cons, nest_of_unclosed ht]
    exact ih hts

theorem brackets_of_ne_code {ts : List Token} (h : ∀ t ∈ ts, t.kind ≠ .code) :
    Token.brackets ts = [] := by
  refine List.filterMap_eq_nil_iff.2 fun t ht => ?_
  unfold Token.bracket?
  split
  · next hk _ => exact absurd hk (h t ht)
  · rfl

theorem nesting_of_ne_code {ts : List Token} (h : ∀ t ∈ ts, t.kind ≠ .code) (opened : List Char) :
    nesting opened ts = opened :=
  nesting_of_unclosed (by rw [brackets_of_ne_code h]; rfl)

theorem Layout.IsMargin.ne_code {ts : List Token} (h : IsMargin ts) : ∀ t ∈ ts, t.kind ≠ .code := by
  intro t ht hk
  rcases h with ⟨u, rfl, hu⟩ | h
  · rw [List.mem_singleton.1 ht, hu] at hk
    cases hk
  · rw [h t ht] at hk
    cases hk

/-! ## Characters -/

theorem isWordChar_bracket {c : Char} (h : isOpener c = true ∨ isCloser c = true) :
    isWordChar c = false ∧ isPunct c = false := by
  have hc : c = '(' ∨ c = '[' ∨ c = '\x7b' ∨ c = ')' ∨ c = ']' ∨ c = '\x7d' := by
    simp only [isOpener, isCloser, Bool.or_eq_true, beq_iff_eq] at h
    grind
  rcases hc with rfl | rfl | rfl | rfl | rfl | rfl <;> decide

theorem bracket_of_valid {l : Lexeme} (h : Valid l)
    (hk : l.kind = .word ∨ l.kind = .punct ∨ ∃ style, l.kind = .literal style) :
    ∀ c, l.text = [c] → isOpener c = false ∧ isCloser c = false := by
  obtain ⟨kind, text⟩ := l
  intro c hc
  dsimp only at hk hc
  subst hc
  by_contra hb
  have hbr : isOpener c = true ∨ isCloser c = true := by
    cases ho : isOpener c <;> cases hcl : isCloser c <;> simp_all
  obtain ⟨hw, hp⟩ := isWordChar_bracket hbr
  rcases hk with rfl | rfl | ⟨style, rfl⟩
  · have := h.2 c (by simp)
    rw [hw] at this
    cases this
  · obtain ⟨d, hd, hpd⟩ := h
    cases hd
    rw [hp] at hpd
    cases hpd
  · obtain ⟨letters, d, inside, ht, -, -, -, -, hclose⟩ := h
    have hmarks : 0 < d.text.length := by cases hs : d.style <;> simp [Delimiter.text, hs]
    have hinside : 0 < inside.length := by
      cases hclose with
      | marks => exact hmarks
      | escapeReturn _ | escape _ _ | keep _ _ _ _ => simp
    have hlen := congrArg List.length ht
    simp only [List.length_append, List.length_singleton] at hlen
    omega

theorem bracket?_of_valid {l : Lexeme} (h : Valid l) (hk : l.kind.isCode = true) {t : Token}
    (ht : t.kind = .code) (htext : t.text = l.text) : t.bracket? = l.bracket? := by
  obtain ⟨kind, text⟩ := l
  have hother : (∀ c, text = [c] → isOpener c = false ∧ isCloser c = false) → t.bracket? = none := by
    intro hc
    unfold Token.bracket?
    split
    · next c _ hone =>
      obtain ⟨ho, hcl⟩ := hc c (htext.symm.trans hone)
      rw [ho, hcl]
      rfl
    · rfl
  cases kind with
  | newline | space | comment | continuation => cases hk
  | opener =>
    obtain ⟨c, rfl, ho⟩ := h
    simp [Token.bracket?, Lexeme.bracket?, ht, htext, ho]
  | closer =>
    obtain ⟨c, rfl, hc⟩ := h
    simp [Token.bracket?, Lexeme.bracket?, ht, htext, hc]
  | literal style => exact hother (bracket_of_valid h (Or.inr (Or.inr ⟨style, rfl⟩)))
  | word => exact hother (bracket_of_valid h (Or.inl rfl))
  | punct => exact hother (bracket_of_valid h (Or.inr (Or.inl rfl)))

theorem bracket?_of_not_isCode {l : Lexeme} (h : l.kind.isCode = false) : l.bracket? = none := by
  unfold Lexeme.bracket?
  cases hk : l.kind <;> simp [hk, Kind.isCode] at h ⊢

/-! ## Moves -/

section moves

variable {r : Ruler} {s : Layout} {p : Piece}

theorem endLine_ne_code (hf : (endLine s p).fault? = none) :
    ∀ t ∈ (endLine s p).emitted, t.kind ≠ .code := by
  rcases endLine_spec rfl hf with ⟨-, -, -, he, -⟩ | ⟨-, -, he, -⟩ | ⟨-, -, he, -⟩ <;> rw [he] <;>
    simp [lineEnd, blankLine]

/-- The brackets among the tokens of a move are that of its lexeme. -/
theorem step_brackets (hv : Valid ⟨p.kind, p.text⟩) (hf : (step r s p).fault? = none) :
    Token.brackets (step r s p).emitted = Lexeme.brackets [⟨p.kind, p.text⟩] := by
  have hnone : p.kind.isCode = false → Lexeme.brackets [⟨p.kind, p.text⟩] = [] := fun hk => by
    rw [Lexeme.brackets, List.filterMap_cons, bracket?_of_not_isCode hk]
    rfl
  cases hi : p.kind.isInner with
  | true =>
    rcases step_inner hi hf with ⟨hk, he, -⟩ | ⟨hk, he, -⟩ | ⟨hk, margin, _, _, he, hm, -, -⟩ <;>
      rw [he]
    · rw [hnone (by rw [hk]; rfl)]
      rfl
    · rw [hnone (by rw [hk]; rfl)]
      exact brackets_of_ne_code (by simp [Piece.token])
    · rw [Token.brackets_append, brackets_of_ne_code hm.ne_code, List.nil_append, Token.brackets,
        Lexeme.brackets, List.filterMap_cons, List.filterMap_cons,
        bracket?_of_valid hv hk (t := p.token .code) rfl rfl]
      rfl
  | false =>
    have hk : p.kind.isCode = false := by cases h : p.kind <;> simp [h, Kind.isInner] at hi ⊢ <;> rfl
    rw [hnone hk]
    rcases step_outer (r := r) (s := s) hi with hs | hs <;> rw [hs] at hf ⊢
    · exact brackets_of_ne_code (endLine_ne_code hf)
    · rfl

theorem endLine_opened (hf : (endLine s p).fault? = none) : (endLine s p).next.opened = s.opened := by
  rcases endLine_spec rfl hf with ⟨-, -, -, -, hn⟩ | ⟨-, -, -, hn⟩ | ⟨-, -, -, hn⟩ <;> rw [hn] <;> rfl

theorem closeBracket_turn (ho : isOpener p.lead = false) (hf : (closeBracket s p).fault? = none) :
    turn s.opened p.lead = some (closeBracket s p).next.opened := by
  obtain ⟨levels, brackets, lineHeld, codeSeen, joined?⟩ := s
  cases brackets with
  | nil => cases hf
  | cons b outer =>
    simp only [closeBracket, List.head?_cons, List.tail_cons] at hf ⊢
    simp only [turn, ho, opened, List.map_cons]
    split at hf
    · next hmatch =>
      rw [if_pos hmatch, if_pos hmatch]
      rfl
    · cases hf

/-- A move opens and closes what its lexeme does. -/
theorem step_unclosed (hv : Valid ⟨p.kind, p.text⟩) (hl : p.lead = Piece.leadOf p.text)
    (hf : (step r s p).fault? = none) :
    unclosed s.opened (Lexeme.brackets [⟨p.kind, p.text⟩]) = some (step r s p).next.opened := by
  have hbegin : (beginCode r s p.start).fault? = none →
      (beginCode r s p.start).next.opened = s.opened := fun hb => by
    obtain ⟨-, -, levels, hl⟩ := beginCode_spec rfl hb
    rw [hl]
    rfl
  obtain ⟨kind, start, text, lead⟩ := p
  dsimp only at hv hl hbegin
  unfold step at hf ⊢
  cases kind with
  | space | continuation | comment => rfl
  | newline => exact congrArg some (endLine_opened hf).symm
  | opener =>
    obtain ⟨c, rfl, ho⟩ := hv
    obtain ⟨hb, -, -, hn⟩ := andThen_spec hf
    rw [hn, hl]
    refine (unclosed_singleton _ c).trans ?_
    rw [turn_opener ho, ← hbegin hb]
    rfl
  | closer =>
    obtain ⟨c, rfl, hc⟩ := hv
    obtain ⟨hb, hclose, -, hn⟩ := andThen_spec hf
    rw [hn]
    refine (unclosed_singleton _ c).trans ?_
    rw [← hbegin hb]
    have hlead : lead = c := hl
    subst hlead
    exact closeBracket_turn (isOpener_of_isCloser hc) hclose
  | literal style | word | punct =>
    obtain ⟨hb, -, -, hn⟩ := andThen_spec hf
    rw [hn]
    exact congrArg some (hbegin hb).symm

@[simp] theorem opened_unplaced (s : Layout) : s.unplaced.opened = s.opened := by
  simp [opened, unplaced]

theorem opened_eq_nil : s.opened = [] ↔ s.brackets = [] := List.map_eq_nil_iff

theorem Layout.Sound.opened (h : Sound s) (hc : s.codeSeen = false) : s.opened = [] := by
  by_contra hb
  rw [h.within (mt opened_eq_nil.2 hb)] at hc
  cases hc

theorem reads_unclosed {after : Text} {ls : List Lexeme} {q : Place} {ts : List Token}
    {last : Layout} (hcut : Cut after ls) (h : reads r s (Piece.placed q ls) = some (ts, last)) :
    Token.brackets ts = Lexeme.brackets ls ∧
      unclosed s.opened (Lexeme.brackets ls) = some last.opened := by
  induction ls generalizing q s ts with
  | nil =>
    obtain ⟨rfl, rfl⟩ := reads_nil.1 h
    exact ⟨rfl, by rw [opened_unplaced]; rfl⟩
  | cons l ls ih =>
    obtain ⟨hf, us, hr, rfl⟩ := reads_cons.1 h
    obtain ⟨hbrackets, hopen⟩ := ih hcut.2.2 hr
    rw [← List.singleton_append, Lexeme.brackets_append, Token.brackets_append, hbrackets,
      step_brackets hcut.1 hf, unclosed_append_of (step_unclosed hcut.1 rfl hf)]
    exact ⟨rfl, hopen⟩

theorem read_nesting {row : Row} {ts : List Token} {last : Layout}
    (h : row.read r s = some (ts, last)) : nesting s.opened ts = last.opened := by
  obtain ⟨us, m, hp, hf, rfl, rfl⟩ := read_eq_some.1 h
  obtain ⟨hbrackets, hopen⟩ := reads_unclosed row.cut hp
  have hus : nesting s.opened us = m.opened := nesting_of_unclosed (by rw [hbrackets]; exact hopen)
  rw [nesting_append, hus, opened_unplaced]
  rw [step_exit] at hf ⊢
  split at hf
  · next hx =>
    rw [if_pos hx]
    rfl
  · next hx =>
    rw [if_neg hx, endLine_opened hf]
    exact nesting_of_ne_code (endLine_ne_code hf) _

/-- A log opens and closes what its tokens do. -/
theorem Reads.nesting {es : List Entry} {last : Layout} (h : Reads r s es last) (n : Nat) :
    Offside.nesting s.opened (lay n es) = last.opened := by
  induction h generalizing n with
  | nil => rfl
  | cons hr _ ih => rw [lay, nesting_append, nesting_down, read_nesting hr, ih]

end moves

end Offside
