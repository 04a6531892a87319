import Offside.Lexeme.Literal

/-!
# Cutting a text into lexemes

The lexeme at the front of a text is the longest that fits there. Cutting goes
on with the rest until the text is used up or nothing fits.

* `front`: the lexeme at the front of a text that is not empty;
* `scan`: all lexemes, and where and why cutting stopped early;
* `textOf_scan_append_rest`: the lexemes and the uncut rest together are the text.
-/
namespace Offside

namespace Lexeme

/-- What stands at the front of a text: a lexeme and the text behind it, or
nothing that fits. -/
inductive Front where
  | lexeme (found : Lexeme) (rest : Text)
  | fault (cause : Fault)
  deriving DecidableEq, Repr

/-- The lexeme that begins with `c` and goes on while `more` holds. -/
def run (kind : Kind) (more : Char → Bool) (c : Char) (rest : Text) : Front :=
  .lexeme ⟨kind, c :: rest.takeWhile more⟩ (rest.dropWhile more)

/-- A backslash joins lines only right before a newline. -/
def continuation : Text → Front
  | '\n' :: rest => .lexeme ⟨.continuation, ['\\', '\n']⟩ rest
  | '\r' :: '\n' :: rest => .lexeme ⟨.continuation, ['\\', '\r', '\n']⟩ rest
  | _ => .fault .unexpectedCharacter

/-- A literal whose opening has been read. -/
def literal (letters : Text) (d : Delimiter) (body : Text) : Front :=
  match closing? d body with
  | some (inside, rest) => .lexeme ⟨.literal d.style, letters ++ d.text ++ inside⟩ rest
  | none => .fault (.unterminated d.style)

/-- What begins with `c` when no literal does.
mirrors replfeed-normalizer/src/lexing/base_tokenization.rs:31-61, without the literals of 51-55 -/
def plain (c : Char) (rest : Text) : Front :=
  if c = '\n' then .lexeme ⟨.newline, ['\n']⟩ rest
  else if c = '\r' ∧ rest.head? = some '\n' then .lexeme ⟨.newline, ['\r', '\n']⟩ rest.tail
  else if isSpace c then run .space isSpace c rest
  else if c = '#' then run .comment isCommentChar c rest
  else if c = '\\' then continuation rest
  else if isOpener c then .lexeme ⟨.opener, [c]⟩ rest
  else if isCloser c then .lexeme ⟨.closer, [c]⟩ rest
  else if isWordChar c then run .word isWordChar c rest
  else if isPunct c then .lexeme ⟨.punct, [c]⟩ rest
  else .fault .unexpectedCharacter

/-- The lexeme at the front of the text `c :: rest`. -/
def front (c : Char) (rest : Text) : Front :=
  match opening? (c :: rest) with
  | some (letters, d, body) => literal letters d body
  | none => plain c rest

/-! ## The lexeme and the rest are the text -/

theorem delimiter?_eq {t rest : Text} {d : Delimiter} (h : delimiter? t = some (d, rest)) :
    t = d.text ++ rest := by
  unfold delimiter? at h
  grind [Delimiter.text]

theorem openingWithin_eq {n : Nat} {t letters rest : Text} {d : Delimiter}
    (h : openingWithin n t = some (letters, d, rest)) : t = letters ++ d.text ++ rest := by
  fun_induction openingWithin n t generalizing letters with
  | case1 _ _ _ _ hd => cases h; simpa using delimiter?_eq hd
  | case2 _ _ _ _ _ ih =>
    obtain ⟨⟨letters', found⟩, hf, he⟩ := Option.map_eq_some_iff.1 h
    cases he
    simpa using ih hf
  | case3 => cases h
  | case4 => cases h

theorem closing?_eq {d : Delimiter} {t body rest : Text} (h : closing? d t = some (body, rest)) :
    t = body ++ rest := by
  fun_induction closing? d t generalizing body with
  | case1 => cases h
  | case2 _ ih | case3 _ _ _ ih =>
    obtain ⟨⟨b, r⟩, hf, he⟩ := Option.map_eq_some_iff.1 h
    cases he
    simpa using ih hf
  | case4 _ _ _ _ hm =>
    cases h
    exact (List.prefix_iff_eq_append.1 (List.isPrefixOf_iff_prefix.1 hm.2)).symm
  | case5 => cases h
  | case6 _ _ _ _ _ _ ih =>
    obtain ⟨⟨b, r⟩, hf, he⟩ := Option.map_eq_some_iff.1 h
    cases he
    simpa using ih hf

theorem run_eq {kind : Kind} {more : Char → Bool} {c : Char} {rest after : Text} {l : Lexeme}
    (h : run kind more c rest = .lexeme l after) : c :: rest = l.text ++ after := by
  cases h; simp [List.takeWhile_append_dropWhile]

theorem continuation_eq {rest after : Text} {l : Lexeme}
    (h : continuation rest = .lexeme l after) : '\\' :: rest = l.text ++ after := by
  unfold continuation at h
  split at h <;> cases h <;> rfl

theorem front_eq {c : Char} {rest after : Text} {l : Lexeme}
    (h : front c rest = .lexeme l after) : c :: rest = l.text ++ after := by
  unfold front at h
  split at h
  · next ho =>
    unfold literal at h
    split at h
    · next hc => cases h; rw [openingWithin_eq ho, closing?_eq hc]; simp
    · cases h
  · unfold plain at h
    split at h
    · next hc => cases h; simp [hc]
    split at h
    · next hc =>
      cases h
      obtain ⟨rfl, hr⟩ := hc
      cases rest with
      | nil => cases hr
      | cons d rest => simp at hr; simp [hr]
    split at h
    · exact run_eq h
    split at h
    · exact run_eq h
    split at h
    · next hc => subst hc; exact continuation_eq h
    split at h
    · cases h; rfl
    split at h
    · cases h; rfl
    split at h
    · exact run_eq h
    split at h
    · cases h; rfl
    · cases h

theorem front_text_ne_nil {c : Char} {rest after : Text} {l : Lexeme}
    (h : front c rest = .lexeme l after) : l.text ≠ [] := by
  unfold front at h
  split at h
  · next d _ _ =>
    unfold literal at h
    split at h
    · cases h; cases hs : d.style <;> simp [Delimiter.text, hs]
    · cases h
  · unfold plain run continuation at h
    grind

theorem front_length_lt {c : Char} {rest after : Text} {l : Lexeme}
    (h : front c rest = .lexeme l after) : after.length < (c :: rest).length := by
  have := List.length_pos_iff.2 (front_text_ne_nil h)
  rw [front_eq h, List.length_append]
  omega

/-! ## Cutting to the end -/

/-- Why cutting stopped, and the text it stopped before. -/
structure Stop where
  cause : Fault
  rest : Text
  deriving DecidableEq, Repr

/-- What cutting a text comes to. -/
structure Scan where
  lexemes : List Lexeme
  stop? : Option Stop
  deriving DecidableEq, Repr

/-- All lexemes of a text up to the first place where nothing fits.
mirrors replfeed-normalizer/src/lexing.rs:40-48 -/
def scan (t : Text) : Scan :=
  match t with
  | [] => ⟨[], none⟩
  | c :: rest =>
    match _h : front c rest with
    | .lexeme l after =>
      let s := scan after
      ⟨l :: s.lexemes, s.stop?⟩
    | .fault cause => ⟨[], some ⟨cause, c :: rest⟩⟩
termination_by t.length
decreasing_by exact front_length_lt _h

/-- The characters of all lexemes, in order. -/
def textOf (ls : List Lexeme) : Text := (ls.map (·.text)).flatten

/-- The text that was left uncut. -/
def Scan.rest (s : Scan) : Text :=
  match s.stop? with
  | some stop => stop.rest
  | none => []

@[simp] theorem scan_nil : scan [] = ⟨[], none⟩ := by rw [scan]

theorem scan_of_lexeme {c : Char} {rest after : Text} {l : Lexeme}
    (h : front c rest = .lexeme l after) :
    scan (c :: rest) = ⟨l :: (scan after).lexemes, (scan after).stop?⟩ := by
  rw [scan]; split
  · next h' => rw [h] at h'; cases h'; rfl
  · next h' => rw [h] at h'; cases h'

theorem scan_of_fault {c : Char} {rest : Text} {cause : Fault}
    (h : front c rest = .fault cause) : scan (c :: rest) = ⟨[], some ⟨cause, c :: rest⟩⟩ := by
  rw [scan]; split
  · next h' => rw [h] at h'; cases h'
  · next h' => rw [h] at h'; cases h'; rfl

/-- Nothing is lost or added: the lexemes and the uncut rest are the text. -/
theorem textOf_scan_append_rest (t : Text) : textOf (scan t).lexemes ++ (scan t).rest = t := by
  fun_induction scan t with
  | case1 => rfl
  | case2 c rest l after h s ih =>
    simp only [textOf, List.map_cons, List.flatten_cons, List.append_assoc]
    rw [front_eq h]
    exact congrArg (l.text ++ ·) ih
  | case3 c rest cause h => simp [textOf, Scan.rest]

end Lexeme

end Offside
