import Offside.Proofs.Lexeme.Shape
import Offside.Proofs.Text.Ending

/-!
# Lexemes with other line endings

Of the lexemes within a line only a literal can hold a newline. Rewriting its
line endings keeps it one literal: a backslash escapes a newline with or
without its carriage return, and no marks appear or vanish.

Results:
* `Closes.reline`: a body stays closed by the same marks;
* `Valid.reline`, `Clear.reline`: a relined lexeme is a lexeme of its kind, and
  the same may follow it;
* `reline_textOf`: a line is relined lexeme by lexeme.
-/
namespace Offside

open Text

namespace Lexeme

/-- The kinds that a line is made of, all but those that end it. -/
def Kind.isInner : Kind → Bool
  | .newline | .continuation => false
  | _ => true

/-- The lexeme with its line endings rewritten. -/
def reline (e : LineEnding) (l : Lexeme) : Lexeme := ⟨l.kind, Text.reline e.text l.text⟩

@[simp] theorem reline_kind (e : LineEnding) (l : Lexeme) : (l.reline e).kind = l.kind := rfl

@[simp] theorem reline_text (e : LineEnding) (l : Lexeme) :
    (l.reline e).text = Text.reline e.text l.text := rfl

/-! ## Bodies of literals -/

theorem newline_ne_of_isMark {c : Char} (h : isMark c = true) : c ≠ '\n' ∧ c ≠ '\r' ∧ c ≠ '\\' := by
  rcases isMark_iff.1 h with rfl | rfl <;> decide

theorem newline_not_mem_marks {d : Delimiter} (h : isMark d.mark = true) : '\n' ∉ d.text := by
  have hn := (newline_ne_of_isMark h).1.symm
  rcases d.text_eq with e | e <;> simp [e, hn]

theorem prefix_of_reline {e : LineEnding} {w b : Text} (hw : ∀ c ∈ w, c ≠ '\n' ∧ c ≠ '\r')
    (h : w <+: Text.reline e.text b) : w <+: b := by
  induction w generalizing b with
  | nil => exact List.nil_prefix
  | cons c w ih =>
    obtain ⟨hn, hr⟩ := hw c (by simp)
    have hend : ∀ u, ¬ c :: w <+: e.text ++ u := by
      intro u hp
      cases e <;> simp [LineEnding.text, List.cons_prefix_cons, hn, hr] at hp
    cases b with
    | nil => simp at h
    | cons x b =>
      by_cases hx : x = '\n'
      · subst hx
        rw [reline_newline] at h
        exact absurd h (hend _)
      by_cases hxr : x = '\r' ∧ b.head? = some '\n'
      · obtain ⟨rfl, hb⟩ := hxr
        obtain ⟨b, rfl⟩ : ∃ b', b = '\n' :: b' := by
          cases b with
          | nil => cases hb
          | cons y b => cases hb; exact ⟨b, rfl⟩
        rw [reline_return hb, reline_newline] at h
        exact absurd h (hend _)
      · rw [reline_keep hx (fun h1 h2 => hxr ⟨h1, h2⟩), List.cons_prefix_cons] at h
        obtain ⟨rfl, h⟩ := h
        exact List.cons_prefix_cons.2 ⟨rfl, ih (fun a ha => hw a (by simp [ha])) h⟩

theorem Closes.tail {d : Delimiter} {c : Char} {b : Text} (h : Closes d (c :: b))
    (hc : c ≠ '\\') (hm : c ≠ d.mark) : Closes d b := by
  generalize he : c :: b = t at h
  cases h with
  | marks => rcases d.text_eq with e | e <;> rw [e] at he <;> cases he <;> exact absurd rfl hm
  | escapeReturn _ => cases he; exact absurd rfl hc
  | escape _ _ => cases he; exact absurd rfl hc
  | keep _ _ _ h => cases he; exact h

theorem Closes.escape_ending {d : Delimiter} (e : LineEnding) {b : Text} (h : Closes d b) :
    Closes d ('\\' :: (e.text ++ b)) := by
  cases e with
  | native | lf => exact .escape (fun hr => absurd hr (by decide)) h
  | crlf => exact .escapeReturn h

theorem Closes.keep_ending {d : Delimiter} (hm : isMark d.mark = true) (hs : d.style ≠ .single)
    (e : LineEnding) {b : Text} (h : Closes d b) : Closes d (e.text ++ b) := by
  obtain ⟨hn, hr, -⟩ := newline_ne_of_isMark hm
  have hend : ∀ c t, c ≠ d.mark → ¬ d.text <+: c :: t := by
    intro c t hc hp
    rcases d.text_eq with e | e <;> rw [e, List.cons_prefix_cons] at hp <;> exact hc hp.1.symm
  have hnl : Closes d ('\n' :: b) := .keep (by decide) (hend _ _ hn.symm) (fun h => absurd h hs) h
  cases e with
  | native | lf => exact hnl
  | crlf => exact .keep (by decide) (hend _ _ hr.symm) (fun _ => by decide) hnl

/-- A body stays closed by the same marks. -/
theorem Closes.reline {d : Delimiter} (hm : isMark d.mark = true) (e : LineEnding) {b : Text}
    (h : Closes d b) : Closes d (Text.reline e.text b) := by
  have hmark := newline_ne_of_isMark hm
  induction h with
  | marks =>
    rw [reline_of_no_newline (newline_not_mem_marks hm)]
    exact .marks
  | escapeReturn _ ih =>
    rw [reline_keep (by decide) (by simp), reline_return rfl, reline_newline]
    exact ih.escape_ending e
  | @escape c b hc _ ih =>
    rw [reline_keep (by decide) (by simp)]
    by_cases hn : c = '\n'
    · subst hn
      rw [reline_newline]
      exact ih.escape_ending e
    rw [reline_keep hn hc]
    by_cases hr : c = '\r' ∧ (Text.reline e.text b).head? = some '\n'
    · obtain ⟨rfl, hb⟩ := hr
      cases hu : Text.reline e.text b with
      | nil => rw [hu] at hb; cases hb
      | cons x u =>
        rw [hu] at hb ih
        cases hb
        exact .escapeReturn (ih.tail (by decide) hmark.1.symm)
    · exact .escape (fun h1 h2 => hr ⟨h1, h2⟩) ih
  | @keep c b hc hp hs _ ih =>
    by_cases hn : c = '\n'
    · subst hn
      rw [reline_newline]
      exact ih.keep_ending hm (fun h => hs h rfl) e
    by_cases hr : c = '\r' ∧ b.head? = some '\n'
    · obtain ⟨rfl, hb⟩ := hr
      rw [reline_return hb]
      exact ih
    · have hk := reline_keep (e := e.text) hn (fun h1 h2 => hr ⟨h1, h2⟩)
      rw [hk]
      refine .keep hc ?_ hs ih
      rw [← hk]
      intro hpre
      refine hp (prefix_of_reline ?_ hpre)
      intro x hx
      have hxm : x = d.mark := by
        rcases d.text_eq with e | e <;> simpa [e] using hx
      exact hxm ▸ ⟨hmark.1, hmark.2.1⟩

/-! ## Lexemes of a line -/

theorem newline_not_mem_of_all {p : Char → Bool} {t : Text} (hp : p '\n' = false)
    (h : ∀ c ∈ t, p c = true) : '\n' ∉ t := by
  intro hm
  rw [h _ hm] at hp
  cases hp

theorem Valid.no_newline {l : Lexeme} (h : l.Valid) (hi : l.kind.isInner = true)
    (hl : ∀ style, l.kind ≠ .literal style) : '\n' ∉ l.text := by
  obtain ⟨kind, text⟩ := l
  cases kind with
  | newline | continuation => cases hi
  | literal style => exact absurd rfl (hl style)
  | space => exact newline_not_mem_of_all rfl h.2
  | word => exact newline_not_mem_of_all rfl h.2
  | comment =>
    obtain ⟨t, rfl, ht⟩ := h
    have := newline_not_mem_of_all (p := isCommentChar) rfl ht
    simpa using this
  | opener | closer | punct =>
    obtain ⟨c, rfl, hc⟩ := h
    intro hm
    rw [← List.mem_singleton.1 hm] at hc
    revert hc
    decide

theorem reline_eq_self {e : LineEnding} {l : Lexeme} (h : '\n' ∉ l.text) : l.reline e = l := by
  rw [reline, reline_of_no_newline h]

theorem reline_literal (e : LineEnding) {letters inside : Text} {d : Delimiter}
    (hm : isMark d.mark = true) (hl : ∀ c ∈ letters, isPrefixLetter c = true) :
    Text.reline e.text (letters ++ d.text ++ inside) =
      letters ++ d.text ++ Text.reline e.text inside := by
  have hlast : (letters ++ d.text).getLast? = some d.mark := by
    rcases d.text_eq with h | h <;> simp [h]
  have hno : '\n' ∉ letters ++ d.text := by
    have := newline_not_mem_of_all (p := isPrefixLetter) rfl hl
    simp [this, newline_not_mem_marks hm]
  rw [reline_append, reline_of_no_newline hno]
  intro hr
  rw [hlast] at hr
  exact absurd (Option.some.inj hr) (newline_ne_of_isMark hm).2.1

/-- A relined lexeme is a lexeme of its kind. -/
theorem Valid.reline {l : Lexeme} (e : LineEnding) (h : l.Valid) (hi : l.kind.isInner = true) :
    (l.reline e).Valid := by
  by_cases hl : ∃ style, l.kind = .literal style
  · obtain ⟨kind, text⟩ := l
    obtain ⟨style, rfl⟩ := hl
    obtain ⟨letters, d, inside, rfl, hs, hm, hn, hp, hc⟩ := h
    exact ⟨letters, d, Text.reline e.text inside, reline_literal e hm hp, hs, hm, hn, hp,
      hc.reline hm e⟩
  · rwa [reline_eq_self (h.no_newline hi fun style hs => hl ⟨style, hs⟩)]

theorem newline_mem_reline {e : LineEnding} {t : Text} : '\n' ∈ Text.reline e.text t ↔ '\n' ∈ t := by
  rw [← newline_mem_bare, bare_reline, newline_mem_bare]

/-- What may follow a lexeme may follow it relined. -/
theorem Clear.reline {l : Lexeme} {next : Option Char} (e : LineEnding) (h : l.Clear next)
    (hv : l.Valid) (hi : l.kind.isInner = true) : (l.reline e).Clear next := by
  by_cases hl : ∃ style, l.kind = .literal style
  · obtain ⟨kind, text⟩ := l
    obtain ⟨style, rfl⟩ := hl
    intro letters c he hp hm
    have hno : '\n' ∉ letters ++ [c, c] := by
      have h1 := newline_not_mem_of_all (p := isPrefixLetter) rfl hp
      have h2 := (newline_ne_of_isMark hm).1.symm
      simp [h1, h2]
    have hsame : Text.reline e.text text = text := by
      refine reline_of_no_newline fun hn => hno ?_
      rw [← he]
      exact newline_mem_reline.2 hn
    exact h letters c (hsame.symm.trans he) hp hm
  · rwa [reline_eq_self (hv.no_newline hi fun style hs => hl ⟨style, hs⟩)]

theorem Valid.head_reline {l : Lexeme} (e : LineEnding) (h : l.Valid) (hi : l.kind.isInner = true) :
    ∃ c t u, l.text = c :: t ∧ Text.reline e.text l.text = c :: u ∧ c ≠ '\n' := by
  by_cases hl : ∃ style, l.kind = .literal style
  · obtain ⟨kind, text⟩ := l
    obtain ⟨style, rfl⟩ := hl
    obtain ⟨letters, d, inside, rfl, -, hm, -, hp, -⟩ := h
    obtain ⟨c, t, ht⟩ : ∃ c t, letters ++ d.text = c :: t := by
      apply List.exists_cons_of_ne_nil
      rcases d.text_eq with e | e <;> simp [e]
    have hno : '\n' ∉ letters ++ d.text := by
      have := newline_not_mem_of_all (p := isPrefixLetter) rfl hp
      simp [this, newline_not_mem_marks hm]
    refine ⟨c, t ++ inside, t ++ Text.reline e.text inside, ?_, ?_, ?_⟩
    · rw [← List.cons_append, ← ht]
    · rw [reline_literal e hm hp, ht]; rfl
    · intro heq; subst heq; rw [ht] at hno; simp at hno
  · have hno := h.no_newline hi fun style hs => hl ⟨style, hs⟩
    obtain ⟨c, t, ht⟩ := List.exists_cons_of_ne_nil h.ne_nil
    refine ⟨c, t, t, ht, by rw [reline_of_no_newline hno, ht], ?_⟩
    intro heq; subst heq; rw [ht] at hno; simp at hno

theorem closes_getLast {d : Delimiter} {b : Text} (h : Closes d b) : b.getLast? = some d.mark := by
  induction h with
  | marks => rcases d.text_eq with e | e <;> simp [e]
  | escapeReturn _ ih | escape _ _ ih | keep _ _ _ _ ih => simp [List.getLast?_cons, ih]

theorem Valid.getLast_ne_return {l : Lexeme} (h : l.Valid) (hi : l.kind.isInner = true)
    (hs : l.kind ≠ .space) : l.text.getLast? ≠ some '\r' := by
  have hall : ∀ {p : Char → Bool} {t : Text}, p '\r' = false → (∀ c ∈ t, p c = true) →
      t.getLast? ≠ some '\r' := by
    intro p t hp ht hr
    rw [ht _ (List.mem_of_getLast? hr)] at hp
    cases hp
  obtain ⟨kind, text⟩ := l
  cases kind with
  | newline | continuation => cases hi
  | space => exact absurd rfl hs
  | word => exact hall rfl h.2
  | comment =>
    obtain ⟨t, rfl, ht⟩ := h
    refine hall (p := fun c => c == '#' || isCommentChar c) rfl ?_
    intro c hc
    rcases List.mem_cons.1 hc with rfl | hc
    · rfl
    · simp [ht c hc]
  | opener => obtain ⟨c, rfl, hc⟩ := h; exact hall (p := isOpener) rfl (by simpa using hc)
  | closer => obtain ⟨c, rfl, hc⟩ := h; exact hall (p := isCloser) rfl (by simpa using hc)
  | punct => obtain ⟨c, rfl, hc⟩ := h; exact hall (p := isPunct) rfl (by simpa using hc)
  | literal style =>
    obtain ⟨letters, d, inside, rfl, -, hm, -, -, hc⟩ := h
    rw [List.getLast?_append, closes_getLast hc]
    intro hr
    exact (newline_ne_of_isMark hm).2.1 (Option.some.inj hr)

theorem Valid.getLast_ne_newline {l : Lexeme} (h : l.Valid) (hi : l.kind.isInner = true) :
    l.text.getLast? ≠ some '\n' := by
  by_cases hl : ∃ style, l.kind = .literal style
  · obtain ⟨kind, text⟩ := l
    obtain ⟨style, rfl⟩ := hl
    obtain ⟨letters, d, inside, rfl, -, hm, -, -, hc⟩ := h
    rw [List.getLast?_append, closes_getLast hc]
    intro hr
    exact (newline_ne_of_isMark hm).1 (Option.some.inj hr)
  · intro hr
    exact h.no_newline hi (fun style hs => hl ⟨style, hs⟩) (List.mem_of_getLast? hr)

/-! ## Lexemes in a row -/

theorem Clear.at_end {l : Lexeme} {next : Option Char} (hi : l.kind.isInner = true)
    (hs : l.kind ≠ .space) (hn : ∀ c ∈ next, c = '\n' ∨ c = '\r') : l.Clear next := by
  have hall : ∀ {p : Char → Bool}, p '\n' = false → p '\r' = false →
      ∀ c ∈ next, p c = false := by
    intro p h1 h2 c hc
    rcases hn c hc with rfl | rfl
    · exact h1
    · exact h2
  obtain ⟨kind, text⟩ := l
  cases kind with
  | newline | continuation => cases hi
  | space => exact absurd rfl hs
  | opener | closer | punct => trivial
  | comment => exact hall rfl rfl
  | word => exact ⟨hall rfl rfl, fun _ _ => hall rfl rfl⟩
  | literal style =>
    intro letters c _ _ hm hc
    rcases hn c hc with h | h
    · exact (newline_ne_of_isMark hm).1 h
    · exact (newline_ne_of_isMark hm).2.1 h

theorem Cut.replace {after after' : Text} {core : List Lexeme} (h : Cut after core)
    (hi : ∀ l ∈ core, l.kind.isInner = true) (hs : ∀ l ∈ core.getLast?, l.kind ≠ .space)
    (ha : ∀ c ∈ after'.head?, c = '\n' ∨ c = '\r') : Cut after' core := by
  rcases List.eq_nil_or_concat core with rfl | ⟨core, l, rfl⟩
  · trivial
  rw [List.concat_eq_append] at h hi hs ⊢
  obtain ⟨hcore, hv, -, -⟩ := cut_append.1 h
  refine cut_append.2 ⟨hcore.congr ?_, hv, ?_, trivial⟩
  · obtain ⟨c, t, ht⟩ := List.exists_cons_of_ne_nil hv.ne_nil
    simp [ht]
  · exact Clear.at_end (hi l (by simp)) (hs l (by simp)) ha

theorem head_textOf_reline {e : LineEnding} {after : Text} {ls : List Lexeme} (h : Cut after ls)
    (hi : ∀ l ∈ ls, l.kind.isInner = true) :
    (textOf (ls.map (Lexeme.reline e)) ++ after).head? = (textOf ls ++ after).head? := by
  cases ls with
  | nil => rfl
  | cons l ls =>
    obtain ⟨c, t, u, ht, hu, -⟩ := h.1.head_reline e (hi l (by simp))
    rw [List.map_cons, textOf_cons, textOf_cons, reline_text, hu, ht]
    rfl

/-- Relined lexemes are cut as they were. -/
theorem Cut.reline {after : Text} {ls : List Lexeme} (e : LineEnding) (h : Cut after ls)
    (hi : ∀ l ∈ ls, l.kind.isInner = true) : Cut after (ls.map (Lexeme.reline e)) := by
  induction ls with
  | nil => trivial
  | cons l ls ih =>
    obtain ⟨hv, hc, hls⟩ := h
    have hil := hi l (by simp)
    have his : ∀ k ∈ ls, k.kind.isInner = true := fun k hk => hi k (by simp [hk])
    refine ⟨hv.reline e hil, ?_, ih hls his⟩
    rw [head_textOf_reline hls his]
    exact hc.reline e hv hil

/-- A line is relined lexeme by lexeme. -/
theorem reline_textOf {after : Text} {ls : List Lexeme} (e : LineEnding) (h : Cut after ls)
    (hi : ∀ l ∈ ls, l.kind.isInner = true) :
    Text.reline e.text (textOf ls) = textOf (ls.map (Lexeme.reline e)) := by
  induction ls with
  | nil => rfl
  | cons l ls ih =>
    have his : ∀ k ∈ ls, k.kind.isInner = true := fun k hk => hi k (by simp [hk])
    rw [textOf_cons, reline_append, ih h.2.2 his]
    · rfl
    intro _
    cases ls with
    | nil => simp
    | cons k ls =>
      obtain ⟨c, t, u, ht, -, hc⟩ := h.2.2.1.head_reline e (his k (by simp))
      simp [ht, hc]

end Lexeme

end Offside
