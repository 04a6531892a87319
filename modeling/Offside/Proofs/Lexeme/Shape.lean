import Offside.Lexeme.Scan
import Mathlib.Data.List.Basic

/-!
# The shape of lexemes

Which texts are lexemes, said kind by kind and without the order in which
`front` tries the kinds: `Valid` is what a lexeme is made of, `Clear` is what
may not follow it, since it would belong to it.

Results:
* `front_eq_lexeme_iff`: `front` finds exactly the valid lexeme that what
  follows leaves clear;
* `scan_eq_iff`: a text is cut into exactly the lexemes that are `Cut`, so that
  a list of lexemes can be cut again piece by piece.
-/
namespace Offside

namespace Lexeme

/-- The body of a literal with its closing marks: no marks come earlier that a
backslash does not escape, and no newline if one mark closes. -/
inductive Closes (d : Delimiter) : Text → Prop
  | marks : Closes d d.text
  | escapeReturn {b : Text} : Closes d b → Closes d ('\\' :: '\r' :: '\n' :: b)
  | escape {c : Char} {b : Text} : (c = '\r' → b.head? ≠ some '\n') → Closes d b →
      Closes d ('\\' :: c :: b)
  | keep {c : Char} {b : Text} : c ≠ '\\' → ¬ d.text <+: c :: b →
      (d.style = .single → c ≠ '\n') → Closes d b → Closes d (c :: b)

/-- What a lexeme of each kind is made of. -/
def Valid (l : Lexeme) : Prop :=
  match l.kind with
  | .newline => l.text = ['\n'] ∨ l.text = ['\r', '\n']
  | .space => l.text ≠ [] ∧ ∀ c ∈ l.text, isSpace c = true
  | .comment => ∃ t, l.text = '#' :: t ∧ ∀ c ∈ t, isCommentChar c = true
  | .continuation => l.text = ['\\', '\n'] ∨ l.text = ['\\', '\r', '\n']
  | .opener => ∃ c, l.text = [c] ∧ isOpener c = true
  | .closer => ∃ c, l.text = [c] ∧ isCloser c = true
  | .literal style => ∃ letters d inside, l.text = letters ++ d.text ++ inside ∧
      d.style = style ∧ isMark d.mark = true ∧ letters.length ≤ 2 ∧
      (∀ c ∈ letters, isPrefixLetter c = true) ∧ Closes d inside
  | .word => l.text ≠ [] ∧ ∀ c ∈ l.text, isWordChar c = true
  | .punct => ∃ c, l.text = [c] ∧ isPunct c = true

/-- What may not come next, since the lexeme would go on with it: more of the
same, the newline of a carriage return, the marks of a literal behind its
prefix, and a third mark behind two. -/
def Clear (l : Lexeme) (next : Option Char) : Prop :=
  match l.kind with
  | .space => (∀ c ∈ next, isSpace c = false) ∧ (l.text = ['\r'] → next ≠ some '\n')
  | .comment => ∀ c ∈ next, isCommentChar c = false
  | .literal _ => ∀ letters c, l.text = letters ++ [c, c] →
      (∀ a ∈ letters, isPrefixLetter a = true) → isMark c = true → next ≠ some c
  | .word => (∀ c ∈ next, isWordChar c = false) ∧
      (l.text.length ≤ 2 → (∀ a ∈ l.text, isPrefixLetter a = true) → ∀ c ∈ next, isMark c = false)
  | _ => True

/-! ## Characters -/

theorem isMark_iff {c : Char} : isMark c = true ↔ c = '\'' ∨ c = '"' := by simp [isMark]

theorem isPrefixLetter_eq_false_of_isMark {c : Char} (h : isMark c = true) :
    isPrefixLetter c = false := by
  rcases isMark_iff.1 h with rfl | rfl <;> rfl

theorem isWordChar_eq_false_of_isMark {c : Char} (h : isMark c = true) : isWordChar c = false := by
  rcases isMark_iff.1 h with rfl | rfl <;> rfl

theorem isWordChar_of_isPrefixLetter {c : Char} (h : isPrefixLetter c = true) :
    isWordChar c = true := by
  simp only [isPrefixLetter, Bool.or_eq_true, beq_iff_eq] at h
  rcases h with ((((((rfl | rfl) | rfl) | rfl) | rfl) | rfl) | rfl) | rfl <;> rfl

/-- A character that no literal starts with. -/
def opensNone (c : Char) : Prop := isMark c = false ∧ isPrefixLetter c = false

/-! ## Openings -/

theorem delimiter?_eq_none {c : Char} {rest : Text} (h : isMark c = false) :
    delimiter? (c :: rest) = none := by
  unfold delimiter?
  split <;> simp_all

theorem openingWithin_eq_none {n : Nat} {t : Text} (h : ∀ c ∈ t.head?, opensNone c) :
    openingWithin n t = none := by
  cases t with
  | nil => cases n <;> rfl
  | cons c t =>
    obtain ⟨hm, hp⟩ := h c rfl
    unfold openingWithin
    rw [delimiter?_eq_none hm]
    cases n <;> simp [hp]

theorem front_eq_plain {c : Char} {rest : Text} (h : opensNone c) : front c rest = plain c rest := by
  unfold front opening?
  rw [openingWithin_eq_none (by simpa using h)]

theorem openingWithin_letters {letters t rest : Text} {d : Delimiter} {n : Nat}
    (hd : delimiter? t = some (d, rest)) (hl : ∀ c ∈ letters, isPrefixLetter c = true)
    (hn : letters.length ≤ n) : openingWithin n (letters ++ t) = some (letters, d, rest) := by
  induction letters generalizing n with
  | nil => unfold openingWithin; simp [hd]
  | cons c letters ih =>
    have hc : isPrefixLetter c = true := hl c (by simp)
    have hm : isMark c = false := by
      cases hm : isMark c with
      | false => rfl
      | true => rw [isPrefixLetter_eq_false_of_isMark hm] at hc; cases hc
    cases n with
    | zero => simp at hn
    | succ n =>
      have ih' := ih (n := n) (fun a ha => hl a (by simp [ha])) (by simpa using hn)
      rw [List.cons_append, openingWithin, delimiter?_eq_none hm]
      simp [hc, ih']

theorem openingWithin_spec {n : Nat} {t letters rest : Text} {d : Delimiter}
    (h : openingWithin n t = some (letters, d, rest)) :
    letters.length ≤ n ∧ (∀ c ∈ letters, isPrefixLetter c = true) ∧
      ∃ u, t = letters ++ u ∧ delimiter? u = some (d, rest) := by
  fun_induction openingWithin n t generalizing letters with
  | case1 n t d' rest' hd => cases h; exact ⟨Nat.zero_le _, by simp, t, rfl, hd⟩
  | case2 n c rest' hp hd ih =>
    obtain ⟨⟨letters', found⟩, hf, he⟩ := Option.map_eq_some_iff.1 h
    cases he
    obtain ⟨h1, h2, u, rfl, h3⟩ := ih hf
    refine ⟨by simpa using h1, ?_, u, rfl, h3⟩
    intro a ha
    rcases List.mem_cons.1 ha with rfl | ha
    · assumption
    · exact h2 a ha
  | case3 => cases h
  | case4 => cases h

theorem delimiter?_isMark {t rest : Text} {d : Delimiter} (h : delimiter? t = some (d, rest)) :
    isMark d.mark = true := by
  unfold delimiter? at h
  grind

theorem delimiter?_single {t rest : Text} {d : Delimiter} (h : delimiter? t = some (d, rest))
    (hs : d.style = .single) : ∀ u, rest ≠ d.mark :: d.mark :: u := by
  unfold delimiter? at h
  grind

theorem delimiter?_of_single {m : Char} {rest : Text} (hm : isMark m = true)
    (h : ∀ u, rest ≠ m :: m :: u) : delimiter? (m :: rest) = some (⟨m, .single⟩, rest) := by
  rcases rest with _ | ⟨a, _ | ⟨b, rest⟩⟩
  · simp [delimiter?, hm]
  · simp [delimiter?, hm]
  · have hab : ¬ (a = m ∧ b = m) := by intro hex; obtain ⟨rfl, rfl⟩ := hex; exact h _ rfl
    simp [delimiter?, hm, hab]

theorem delimiter?_triple {m : Char} (rest : Text) (hm : isMark m = true) :
    delimiter? (m :: m :: m :: rest) = some (⟨m, .triple⟩, rest) := by
  simp [delimiter?, hm]

theorem delimiter?_of_mark {m : Char} (rest : Text) (hm : isMark m = true) :
    ∃ d rest', delimiter? (m :: rest) = some (d, rest') := by
  by_cases h : ∃ u, rest = m :: m :: u
  · obtain ⟨u, rfl⟩ := h
    exact ⟨_, _, delimiter?_triple u hm⟩
  · exact ⟨_, _, delimiter?_of_single hm fun u hu => h ⟨u, hu⟩⟩

/-! ## Bodies -/

theorem Delimiter.text_eq (d : Delimiter) : d.text = [d.mark] ∨ d.text = [d.mark, d.mark, d.mark] := by
  unfold Delimiter.text
  cases d.style <;> simp

theorem Closes.length_le {d : Delimiter} {b : Text} (h : Closes d b) : d.text.length ≤ b.length := by
  induction h with
  | marks => exact Nat.le_refl _
  | escapeReturn _ ih | escape _ _ ih | keep _ _ _ _ ih => simp only [List.length_cons]; omega

theorem prefix_append_iff {a t : Text} (u : Text) (h : a.length ≤ t.length) :
    a <+: t ++ u ↔ a <+: t :=
  ⟨fun hp => List.prefix_of_prefix_length_le hp (List.prefix_append t u) h,
    fun hp => hp.trans (List.prefix_append t u)⟩

theorem closing?_plain {d : Delimiter} {c : Char} {t : Text} (hc : c ≠ '\\') :
    closing? d (c :: t) =
      if c = d.mark ∧ d.text.isPrefixOf (c :: t) then some (d.text, (c :: t).drop d.text.length)
      else if c = '\n' ∧ d.style = .single then none
      else (closing? d t).map fun (body, after) => (c :: body, after) := by
  rw [closing?]
  · rintro rest rfl; exact absurd rfl hc
  · rintro a rest rfl; exact absurd rfl hc

theorem closing?_escape {d : Delimiter} {c : Char} {t : Text}
    (hc : c = '\r' → t.head? ≠ some '\n') :
    closing? d ('\\' :: c :: t) = (closing? d t).map fun (b, a) => ('\\' :: c :: b, a) := by
  rw [closing?]
  rintro rest rfl rfl
  exact hc rfl rfl

theorem closing?_of_closes {d : Delimiter} {b : Text} (hm : isMark d.mark = true)
    (h : Closes d b) (a : Text) : closing? d (b ++ a) = some (b, a) := by
  have hb : d.mark ≠ '\\' := by intro e; rw [e] at hm; cases hm
  induction h with
  | marks =>
    obtain ⟨t, ht⟩ : ∃ t, d.text = d.mark :: t := by
      rcases d.text_eq with e | e <;> exact ⟨_, e⟩
    have hp : d.text.isPrefixOf (d.mark :: (t ++ a)) = true := by
      rw [List.isPrefixOf_iff_prefix, ← List.cons_append, ← ht]
      exact List.prefix_append _ _
    conv => lhs; rw [ht, List.cons_append, closing?_plain hb]
    rw [if_pos ⟨rfl, hp⟩, ← List.cons_append, ← ht]
    simp
  | escapeReturn _ ih => simp [closing?, ih]
  | @escape c b hc hcl ih =>
    have hne : b ≠ [] := by
      intro heq; subst heq
      have := hcl.length_le
      rcases d.text_eq with e | e <;> simp [e] at this
    have hh : (b ++ a).head? = b.head? := by
      cases b with
      | nil => exact absurd rfl hne
      | cons x b => rfl
    rw [List.cons_append, List.cons_append, closing?_escape (by rw [hh]; exact hc), ih]
    rfl
  | @keep c b hc hp hn hcl ih =>
    have hp' : d.text.isPrefixOf (c :: (b ++ a)) ≠ true := by
      rw [ne_eq, List.isPrefixOf_iff_prefix, ← List.cons_append, prefix_append_iff a]
      · exact hp
      · have := hcl.length_le; simp only [List.length_cons]; omega
    rw [List.cons_append, closing?_plain hc, if_neg (fun h => hp' h.2), if_neg (fun h => hn h.2 h.1),
      ih]
    rfl

theorem closes_of_closing? {d : Delimiter} {t b a : Text} (hm : isMark d.mark = true)
    (h : closing? d t = some (b, a)) : Closes d b := by
  have hb : d.mark ≠ '\\' := by intro e; rw [e] at hm; cases hm
  fun_induction closing? d t generalizing b with
  | case1 => cases h
  | case2 _ ih =>
    obtain ⟨⟨b, r⟩, hf, he⟩ := Option.map_eq_some_iff.1 h
    cases he
    exact .escapeReturn (ih hf)
  | case3 c rest hc ih =>
    obtain ⟨⟨b, r⟩, hf, he⟩ := Option.map_eq_some_iff.1 h
    cases he
    refine .escape ?_ (ih hf)
    rintro rfl hh
    rw [closing?_eq hf] at hc
    cases b with
    | nil =>
      have := (ih hf).length_le
      rcases d.text_eq with e | e <;> simp [e] at this
    | cons x b => cases hh; exact hc _ rfl rfl
  | case4 c rest h1 h2 hp => cases h; exact .marks
  | case5 => cases h
  | case6 c rest h1 h2 hp hn ih =>
    obtain ⟨⟨b, r⟩, hf, he⟩ := Option.map_eq_some_iff.1 h
    cases he
    have hcl := ih hf
    have hc : c ≠ '\\' := by
      intro heq; subst heq
      cases rest with
      | nil => simp [closing?] at hf
      | cons x rest => exact h2 x rest rfl rfl
    refine .keep hc ?_ (fun hs hcn => hn ⟨hcn, hs⟩) hcl
    intro hpre
    refine hp ⟨?_, ?_⟩
    · obtain ⟨u, hu⟩ := hpre
      rcases d.text_eq with e | e <;> rw [e] at hu <;> cases hu <;> rfl
    · rw [List.isPrefixOf_iff_prefix, closing?_eq hf, ← List.cons_append, prefix_append_iff]
      · exact hpre
      · have := hcl.length_le; simp only [List.length_cons]; omega

/-! ## The front of a text -/

theorem openingWithin_isNone {n : Nat} {w t : Text} (hw : ∀ c ∈ w, isWordChar c = true)
    (ht : ∀ c ∈ t.head?, isWordChar c = false)
    (hm : w.length ≤ n → (∀ a ∈ w, isPrefixLetter a = true) → ∀ c ∈ t.head?, isMark c = false) :
    openingWithin n (w ++ t) = none := by
  cases h : openingWithin n (w ++ t) with
  | none => rfl
  | some found =>
    obtain ⟨letters, d, rest⟩ := found
    obtain ⟨hl, hp, u, he, hd⟩ := openingWithin_spec h
    obtain ⟨m, u, rfl⟩ : ∃ m u', u = m :: u' := by
      cases u with
      | nil => simp [delimiter?] at hd
      | cons m u => exact ⟨m, u, rfl⟩
    have hmark : isMark m = true := by
      cases hmark : isMark m with
      | true => rfl
      | false => rw [delimiter?_eq_none hmark] at hd; cases hd
    -- the letters and the word end at the same place: neither goes on over the other's end
    rcases List.append_eq_append_iff.1 he with ⟨v, rfl, hv⟩ | ⟨v, rfl, hv⟩
    · cases v with
      | nil =>
        have := hm (by simpa using hl) (by simpa using hp) m (by rw [List.nil_append] at hv; simp [hv])
        rw [hmark] at this; cases this
      | cons x v =>
        have h1 := ht x (by rw [hv]; rfl)
        have h2 := isWordChar_of_isPrefixLetter (hp x (by simp))
        rw [h1] at h2; cases h2
    · cases v with
      | nil =>
        simp only [List.nil_append] at hv
        have := hm (by simpa using hl) (by simpa using hp) m (by rw [← hv]; rfl)
        rw [hmark] at this; cases this
      | cons x v =>
        simp only [List.cons_append, List.cons.injEq] at hv
        have := hw m (by simp [hv.1])
        rw [isWordChar_eq_false_of_isMark hmark] at this; cases this

theorem takeWhile_run {p : Char → Bool} {w t : Text} (hw : ∀ c ∈ w, p c = true)
    (ht : ∀ c ∈ t.head?, p c = false) :
    (w ++ t).takeWhile p = w ∧ (w ++ t).dropWhile p = t := by
  have h0 : t.takeWhile p = [] ∧ t.dropWhile p = t := by
    cases t with
    | nil => exact ⟨rfl, rfl⟩
    | cons c t => have := ht c rfl; simp [this]
  rw [List.takeWhile_append_of_pos hw, List.dropWhile_append_of_pos hw, h0.1, h0.2]
  simp

theorem opensNone_of_isSpace {c : Char} (h : isSpace c = true) : opensNone c := by
  simp only [isSpace, Bool.or_eq_true, beq_iff_eq] at h
  rcases h with ((rfl | rfl) | rfl) | rfl <;> exact ⟨rfl, rfl⟩

theorem isSpace_cases {c : Char} (h : isSpace c = true) : c = ' ' ∨ c = '\t' ∨ c = '\x0c' ∨ c = '\r' := by
  simpa only [isSpace, Bool.or_eq_true, beq_iff_eq, or_assoc] using h

theorem isOpener_cases {c : Char} (h : isOpener c = true) : c = '(' ∨ c = '[' ∨ c = '\x7b' := by
  simpa only [isOpener, Bool.or_eq_true, beq_iff_eq, or_assoc] using h

theorem isCloser_cases {c : Char} (h : isCloser c = true) : c = ')' ∨ c = ']' ∨ c = '\x7d' := by
  simpa only [isCloser, Bool.or_eq_true, beq_iff_eq, or_assoc] using h

theorem isPunct_spec {c : Char} (h : isPunct c = true) :
    opensNone c ∧ c ≠ '\n' ∧ c ≠ '\r' ∧ isSpace c = false ∧ c ≠ '#' ∧ c ≠ '\\' ∧
      isOpener c = false ∧ isCloser c = false ∧ isWordChar c = false := by
  have hmem : c ∈ punctuation := by simpa [isPunct] using h
  have key : (punctuation.all fun c => !isMark c && !isPrefixLetter c && c != '\n' && c != '\r' &&
      !isSpace c && c != '#' && c != '\\' && !isOpener c && !isCloser c && !isWordChar c) = true := rfl
  have hc := List.all_eq_true.1 key c hmem
  simp only [Bool.and_eq_true, Bool.not_eq_true', bne_iff_ne] at hc
  obtain ⟨⟨⟨⟨⟨⟨⟨⟨⟨h1, h2⟩, h3⟩, h4⟩, h5⟩, h6⟩, h7⟩, h8⟩, h9⟩, h10⟩ := hc
  exact ⟨⟨h1, h2⟩, h3, h4, h5, h6, h7, h8, h9, h10⟩

theorem isWordChar_spec {c : Char} (h : isWordChar c = true) :
    c ≠ '\n' ∧ c ≠ '\r' ∧ isSpace c = false ∧ c ≠ '#' ∧ c ≠ '\\' ∧
      isOpener c = false ∧ isCloser c = false := by
  have key : ∀ d : Char, isWordChar d = false → c ≠ d := by
    rintro d hd rfl; rw [h] at hd; cases hd
  refine ⟨key _ rfl, key _ rfl, ?_, key _ rfl, key _ rfl, ?_, ?_⟩
  · cases hs : isSpace c with
    | false => rfl
    | true => rcases isSpace_cases hs with rfl | rfl | rfl | rfl <;> cases h
  · cases hs : isOpener c with
    | false => rfl
    | true => rcases isOpener_cases hs with rfl | rfl | rfl <;> cases h
  · cases hs : isCloser c with
    | false => rfl
    | true => rcases isCloser_cases hs with rfl | rfl | rfl <;> cases h

theorem front_space {w after : Text} (hv : Valid ⟨.space, w⟩) (hc : Clear ⟨.space, w⟩ after.head?) :
    ∃ c rest, w ++ after = c :: rest ∧ front c rest = .lexeme ⟨.space, w⟩ after := by
  obtain ⟨hne, hs⟩ := hv
  obtain ⟨hcs, hcr⟩ := hc
  obtain ⟨c, v, rfl⟩ := List.exists_cons_of_ne_nil hne
  have h1 : c ≠ '\n' := by intro heq; subst heq; have := hs '\n' (by simp); cases this
  have h2 : ¬ (c = '\r' ∧ (v ++ after).head? = some '\n') := by
    intro hex
    obtain ⟨rfl, hh⟩ := hex
    cases v with
    | nil => exact hcr rfl hh
    | cons x v => cases hh; have := hs '\n' (by simp); cases this
  have hrun := takeWhile_run (p := isSpace) (w := v) (fun x hx => hs x (by simp [hx])) hcs
  refine ⟨c, v ++ after, rfl, ?_⟩
  rw [front_eq_plain (opensNone_of_isSpace (hs c (by simp))), plain, if_neg h1, if_neg h2,
    if_pos (hs c (by simp)), run, hrun.1, hrun.2]

/-- The marks of a literal are read as its delimiter: where two of them stand
together, the third that would make them three is not there. -/
theorem delimiter?_of_closes {letters : Text} {d : Delimiter} {inside after : Text}
    (hm : isMark d.mark = true) (hl : ∀ a ∈ letters, isPrefixLetter a = true)
    (hcl : Closes d inside)
    (hc : Clear ⟨.literal d.style, letters ++ d.text ++ inside⟩ after.head?) :
    delimiter? (d.text ++ (inside ++ after)) = some (d, inside ++ after) := by
  obtain ⟨m, style⟩ := d
  cases style with
  | triple => exact delimiter?_triple _ hm
  | single =>
    apply delimiter?_of_single hm
    intro u hu
    rcases inside with _ | ⟨x, _ | ⟨y, inside⟩⟩
    · have := hcl.length_le; simp [Delimiter.text] at this
    · obtain ⟨hx, hu⟩ := List.cons.inj hu
      subst hx
      exact hc letters x (by simp [Delimiter.text]) hl hm
        (by rw [show after = x :: u from hu]; rfl)
    · obtain ⟨hx, hu⟩ := List.cons.inj hu
      obtain ⟨hy, -⟩ := List.cons.inj hu
      subst hx; subst hy
      generalize hb : y :: y :: inside = b at hcl
      cases hcl with
      | marks => simp [Delimiter.text] at hb
      | escapeReturn _ => cases hb
      | escape _ _ => cases hb; cases hm
      | keep _ hp _ _ =>
        cases hb
        exact hp ⟨_, rfl⟩

theorem front_literal {style : QuoteStyle} {w after : Text} (hv : Valid ⟨.literal style, w⟩)
    (hc : Clear ⟨.literal style, w⟩ after.head?) :
    ∃ c rest, w ++ after = c :: rest ∧ front c rest = .lexeme ⟨.literal style, w⟩ after := by
  obtain ⟨letters, d, inside, rfl, rfl, hm, hn, hl, hcl⟩ := hv
  have hd := delimiter?_of_closes hm hl hcl hc
  have ho := openingWithin_letters hd hl hn
  obtain ⟨c, rest, he⟩ : ∃ c rest, letters ++ d.text ++ inside ++ after = c :: rest := by
    apply List.exists_cons_of_ne_nil
    rcases d.text_eq with e | e <;> simp [e]
  refine ⟨c, rest, he, ?_⟩
  have he' : c :: rest = letters ++ (d.text ++ (inside ++ after)) := by rw [← he]; simp
  unfold front opening?
  rw [he', ho]
  simp only [literal, closing?_of_closes hm hcl]

theorem front_word {w after : Text} (hv : Valid ⟨.word, w⟩) (hc : Clear ⟨.word, w⟩ after.head?) :
    ∃ c rest, w ++ after = c :: rest ∧ front c rest = .lexeme ⟨.word, w⟩ after := by
  obtain ⟨hne, hw⟩ := hv
  obtain ⟨hcw, hcm⟩ := hc
  have ho : openingWithin 2 (w ++ after) = none := openingWithin_isNone hw hcw hcm
  obtain ⟨c, v, rfl⟩ := List.exists_cons_of_ne_nil hne
  have hrun := takeWhile_run (p := isWordChar) (w := v) (fun x hx => hw x (by simp [hx])) hcw
  obtain ⟨h1, h2, h3, h4, h5, h6, h7⟩ := isWordChar_spec (hw c (by simp))
  refine ⟨c, v ++ after, rfl, ?_⟩
  unfold front opening?
  rw [← List.cons_append, ho]
  simp [plain, run, h1, h2, h3, h4, h5, h6, h7, hw c, hrun.1, hrun.2]

theorem front_of_valid {l : Lexeme} {after : Text} (hv : l.Valid) (hc : l.Clear after.head?) :
    ∃ c rest, l.text ++ after = c :: rest ∧ front c rest = .lexeme l after := by
  obtain ⟨kind, text⟩ := l
  cases kind with
  | newline =>
    rcases hv with rfl | rfl
    · exact ⟨'\n', after, rfl, by rw [front_eq_plain ⟨rfl, rfl⟩]; simp [plain]⟩
    · exact ⟨'\r', '\n' :: after, rfl, by rw [front_eq_plain ⟨rfl, rfl⟩]; simp [plain]⟩
  | space => exact front_space hv hc
  | comment =>
    obtain ⟨t, rfl, ht⟩ := hv
    have hrun := takeWhile_run (p := isCommentChar) ht hc
    refine ⟨'#', t ++ after, rfl, ?_⟩
    rw [front_eq_plain ⟨rfl, rfl⟩]
    simp [plain, isSpace, run, hrun.1, hrun.2]
  | continuation =>
    rcases hv with rfl | rfl
    · exact ⟨'\\', '\n' :: after, rfl, by
        rw [front_eq_plain ⟨rfl, rfl⟩]; simp [plain, isSpace, continuation]⟩
    · exact ⟨'\\', '\r' :: '\n' :: after, rfl, by
        rw [front_eq_plain ⟨rfl, rfl⟩]; simp [plain, isSpace, continuation]⟩
  | opener =>
    obtain ⟨c, rfl, ho⟩ := hv
    refine ⟨c, after, rfl, ?_⟩
    rcases isOpener_cases ho with rfl | rfl | rfl <;> rw [front_eq_plain ⟨rfl, rfl⟩] <;>
      simp [plain, isSpace, isOpener]
  | closer =>
    obtain ⟨c, rfl, ho⟩ := hv
    refine ⟨c, after, rfl, ?_⟩
    rcases isCloser_cases ho with rfl | rfl | rfl <;> rw [front_eq_plain ⟨rfl, rfl⟩] <;>
      simp [plain, isSpace, isOpener, isCloser]
  | literal style => exact front_literal hv hc
  | word => exact front_word hv hc
  | punct =>
    obtain ⟨c, rfl, hp⟩ := hv
    obtain ⟨ho, h1, h2, h3, h4, h5, h6, h7, h8⟩ := isPunct_spec hp
    refine ⟨c, after, rfl, ?_⟩
    rw [front_eq_plain ho]
    simp [plain, h1, h2, h3, h4, h5, h6, h7, h8, hp]

theorem dropWhile_head {p : Char → Bool} {t : Text} :
    ∀ c ∈ (t.dropWhile p).head?, p c = false := by
  intro c hc
  have hd := List.head?_dropWhile_not p t
  rw [Option.mem_def.1 hc] at hd
  simpa using hd

theorem run_spec {kind : Kind} {more : Char → Bool} {c : Char} {rest after : Text} {l : Lexeme}
    (h : run kind more c rest = .lexeme l after) :
    l.kind = kind ∧ (∃ t, l.text = c :: t ∧ ∀ x ∈ t, more x = true) ∧
      ∀ x ∈ after.head?, more x = false := by
  cases h
  exact ⟨rfl, ⟨_, rfl, fun x hx => List.all_eq_true.1 List.all_takeWhile x hx⟩, dropWhile_head⟩

theorem literal_spec {letters body after : Text} {d : Delimiter} {l : Lexeme} {c : Char}
    {rest : Text} (ho : opening? (c :: rest) = some (letters, d, body))
    (h : literal letters d body = .lexeme l after) : l.Valid ∧ l.Clear after.head? := by
  unfold literal at h
  split at h
  · next inside rest' hcl =>
    cases h
    obtain ⟨hn, hl, u, -, hd⟩ := openingWithin_spec ho
    have hm := delimiter?_isMark hd
    have hcl' := closes_of_closing? hm hcl
    have hbody := closing?_eq hcl
    refine ⟨⟨letters, d, inside, rfl, rfl, hm, hn, hl, hcl'⟩, ?_⟩
    intro letters' m he hl' hm' hnext
    have hsame : letters = letters' ∧ d.text ++ inside = [m, m] := by
      have he' : letters ++ (d.text ++ inside) = letters' ++ [m, m] := by simpa using he
      obtain ⟨v, hv⟩ : ∃ v, d.text ++ inside = d.mark :: v := by
        rcases d.text_eq with e | e <;> rw [e] <;> exact ⟨_, rfl⟩
      have hmark : ∀ {x}, isMark x = true → isPrefixLetter x = true → False := by
        intro x h1 h2; rw [isPrefixLetter_eq_false_of_isMark h1] at h2; cases h2
      rcases List.append_eq_append_iff.1 he' with ⟨w, hw, hw'⟩ | ⟨w, hw, hw'⟩
      · cases w with
        | nil => simp only [List.append_nil] at hw; exact ⟨hw.symm, by simpa using hw'⟩
        | cons x w =>
          rw [hv] at hw'
          obtain ⟨rfl, -⟩ := List.cons.inj hw'
          exact absurd (hl' d.mark (by simp [hw])) (fun h2 => hmark hm h2)
      · cases w with
        | nil => simp only [List.append_nil] at hw; exact ⟨hw, by simpa using hw'.symm⟩
        | cons x w =>
          obtain ⟨rfl, -⟩ := List.cons.inj hw'
          exact absurd (hl m (by simp [hw])) (fun h2 => hmark hm' h2)
    obtain ⟨v, hv⟩ : ∃ v, after = m :: v := by
      cases after with
      | nil => cases hnext
      | cons x v => cases hnext; exact ⟨v, rfl⟩
    have hlen := hcl'.length_le
    obtain ⟨mark, style⟩ := d
    cases style with
    | single =>
      have h1 : mark = m ∧ inside = [m] := by simpa [Delimiter.text] using hsame.2
      refine delimiter?_single hd rfl v ?_
      rw [hbody, h1.2, hv, h1.1]; rfl
    | triple =>
      have := congrArg List.length hsame.2
      simp [Delimiter.text] at this hlen
  · cases h

theorem plain_spec {c : Char} {rest after : Text} {l : Lexeme}
    (ho : opening? (c :: rest) = none) (h : plain c rest = .lexeme l after) :
    l.Valid ∧ l.Clear after.head? := by
  unfold plain at h
  split at h
  · cases h; exact ⟨Or.inl rfl, trivial⟩
  split at h
  · cases h; exact ⟨Or.inr rfl, trivial⟩
  split at h
  · next hn hs =>
    obtain ⟨hk, ⟨t, ht, hmore⟩, hafter⟩ := run_spec h
    obtain ⟨kind, text⟩ := l
    subst hk; subst ht
    refine ⟨⟨by simp, ?_⟩, hafter, ?_⟩
    · intro x hx
      rcases List.mem_cons.1 hx with rfl | hx
      · exact hs
      · exact hmore x hx
    · intro hr hnext
      obtain ⟨rfl, rfl⟩ : c = '\r' ∧ t = [] := by simpa using hr
      have := run_eq h
      simp only [List.cons_append, List.nil_append, List.cons.injEq, true_and] at this
      exact hn ⟨rfl, by rw [this]; exact hnext⟩
  split at h
  · next hc =>
    obtain ⟨hk, ⟨t, ht, hmore⟩, hafter⟩ := run_spec h
    obtain ⟨kind, text⟩ := l
    subst hk; subst ht; subst hc
    exact ⟨⟨t, rfl, hmore⟩, hafter⟩
  split at h
  · unfold continuation at h
    split at h <;> cases h
    · exact ⟨Or.inl rfl, trivial⟩
    · exact ⟨Or.inr rfl, trivial⟩
  split at h
  · next hc => cases h; exact ⟨⟨c, rfl, hc⟩, trivial⟩
  split at h
  · next hc => cases h; exact ⟨⟨c, rfl, hc⟩, trivial⟩
  split at h
  · next hc =>
    have he := run_eq h
    obtain ⟨hk, ⟨t, ht, hmore⟩, hafter⟩ := run_spec h
    obtain ⟨kind, text⟩ := l
    subst hk; subst ht
    refine ⟨⟨by simp, ?_⟩, hafter, ?_⟩
    · intro x hx
      rcases List.mem_cons.1 hx with rfl | hx
      · exact hc
      · exact hmore x hx
    · intro hlen hletters m hm
      cases hmark : isMark m with
      | false => rfl
      | true =>
        obtain ⟨u, rfl⟩ : ∃ u, after = m :: u := by
          cases after with
          | nil => cases hm
          | cons x u => cases hm; exact ⟨u, rfl⟩
        obtain ⟨d, rest', hd⟩ := delimiter?_of_mark u hmark
        have := openingWithin_letters hd hletters hlen
        rw [← he] at this
        rw [opening?, this] at ho
        cases ho
  split at h
  · next hc => cases h; exact ⟨⟨c, rfl, hc⟩, trivial⟩
  · cases h

/-- `front` finds exactly the valid lexeme that what follows leaves clear. -/
theorem front_eq_lexeme_iff {c : Char} {rest after : Text} {l : Lexeme} :
    front c rest = .lexeme l after ↔
      c :: rest = l.text ++ after ∧ l.Valid ∧ l.Clear after.head? := by
  constructor
  · intro h
    refine ⟨front_eq h, ?_⟩
    unfold front at h
    split at h
    · next ho => exact literal_spec ho h
    · next ho => exact plain_spec ho h
  · intro hex
    obtain ⟨he, hv, hc⟩ := hex
    obtain ⟨c', rest', he', h⟩ := front_of_valid hv hc
    rw [← he] at he'
    cases he'
    exact h

/-! ## Cutting a whole text -/

/-- Lexemes before the text `after`, each valid and clear of what follows it. -/
def Cut (after : Text) : List Lexeme → Prop
  | [] => True
  | l :: ls => l.Valid ∧ l.Clear (textOf ls ++ after).head? ∧ Cut after ls

@[simp] theorem textOf_nil : textOf [] = [] := rfl

@[simp] theorem textOf_cons (l : Lexeme) (ls : List Lexeme) :
    textOf (l :: ls) = l.text ++ textOf ls := rfl

@[simp] theorem textOf_append (ls ms : List Lexeme) :
    textOf (ls ++ ms) = textOf ls ++ textOf ms := by
  simp [textOf]

theorem cut_append {after : Text} {ls ms : List Lexeme} :
    Cut after (ls ++ ms) ↔ Cut (textOf ms ++ after) ls ∧ Cut after ms := by
  induction ls with
  | nil => simp [Cut]
  | cons l ls ih => simp only [List.cons_append, Cut, ih, textOf_append, List.append_assoc]; tauto

theorem Cut.valid {after : Text} {ls : List Lexeme} (h : Cut after ls) : ∀ l ∈ ls, l.Valid := by
  induction ls with
  | nil => simp
  | cons l ls ih =>
    intro k hk
    rcases List.mem_cons.1 hk with rfl | hk
    · exact h.1
    · exact ih h.2.2 k hk

theorem Cut.congr {after after' : Text} (h : after.head? = after'.head?) {ls : List Lexeme}
    (hc : Cut after ls) : Cut after' ls := by
  induction ls with
  | nil => trivial
  | cons l ls ih =>
    obtain ⟨hv, hl, hls⟩ := hc
    refine ⟨hv, ?_, ih hls⟩
    rwa [List.head?_append, ← h, ← List.head?_append]

theorem Valid.ne_nil {l : Lexeme} (h : l.Valid) : l.text ≠ [] := by
  obtain ⟨kind, text⟩ := l
  cases kind with
  | newline | continuation => rcases h with rfl | rfl <;> simp
  | space | word => exact h.1
  | comment | opener | closer | punct => obtain ⟨_, rfl, -⟩ := h; simp
  | literal style =>
    obtain ⟨_, d, _, rfl, -⟩ := h
    rcases d.text_eq with e | e <;> simp [e]

theorem scan_append {after : Text} {ls : List Lexeme} (h : Cut after ls) :
    scan (textOf ls ++ after) = ⟨ls ++ (scan after).lexemes, (scan after).stop?⟩ := by
  induction ls with
  | nil => rfl
  | cons l ls ih =>
    obtain ⟨hv, hc, hls⟩ := h
    obtain ⟨c, rest, he, hf⟩ := front_of_valid hv hc
    rw [textOf_cons, List.append_assoc, he, scan_of_lexeme hf, ih hls]
    rfl

theorem cut_scan (t : Text) : Cut (scan t).rest (scan t).lexemes := by
  fun_induction scan t with
  | case1 => trivial
  | case2 c rest l after h s ih =>
    obtain ⟨-, hv, hc⟩ := front_eq_lexeme_iff.1 h
    refine ⟨hv, ?_, ih⟩
    rwa [show (textOf s.lexemes ++ Scan.rest ⟨l :: s.lexemes, s.stop?⟩) = after from
      textOf_scan_append_rest after]
  | case3 => trivial

/-- A text is cut to its end into exactly the lexemes that are cut. -/
theorem scan_eq_iff {t : Text} {ls : List Lexeme} :
    scan t = ⟨ls, none⟩ ↔ t = textOf ls ∧ Cut [] ls := by
  constructor
  · intro h
    have ht := textOf_scan_append_rest t
    have hc := cut_scan t
    rw [h] at ht hc
    exact ⟨by simpa [Scan.rest] using ht.symm, hc⟩
  · intro hex
    obtain ⟨rfl, hc⟩ := hex
    simpa using scan_append hc

end Lexeme

end Offside
