import Offside.Proofs.Bytes.Checked
import Offside.Proofs.Lexeme.Reline

/-!
# String literals byte by byte

The end of a literal is looked for among bytes: a backslash takes the byte behind it
along, whatever that is a part of. What is left of a longer character is passed over, so
that the search ends where it would have ended among characters, and always between two
of them.

Results:
* `bodyEnd_spec`: where the search among bytes ends;
* `front_eq`: the lexeme at the front of a text, literals being cut off by bytes.
-/
namespace Offside

namespace Checked

open Text Lexeme

/-- Where looking for the end of a literal ends. -/
inductive BodyEnd where
  /-- Behind the closing marks. -/
  | closed (stop : Nat)
  /-- Before a newline that no literal of one mark goes over. -/
  | line (stop : Nat)
  /-- At the end of the text. -/
  | text
  deriving DecidableEq, Repr

/-- The bytes that open and close a literal. -/
def marks (mark : UInt8) : QuoteStyle → List UInt8
  | .single => [mark]
  | .triple => [mark, mark, mark]

/-- Looks for the end of a literal among the bytes from offset `i` of its body on. A
backslash takes the byte behind it along, or a carriage return and newline. -/
def bodyEnd (mark : UInt8) (style : QuoteStyle) (i : Nat) (bs : List UInt8) : BodyEnd :=
  match bs with
  | [] => .text
  | b :: rest =>
    if b = '\\'.toUInt8 then
      if ['\r'.toUInt8, '\n'.toUInt8].isPrefixOf rest then
        bodyEnd mark style (i + 3) (rest.drop 2)
      else bodyEnd mark style (i + 2) (rest.drop 1)
    else if b = '\n'.toUInt8 ∧ style = .single then .line i
    else if b = mark ∧ (marks mark style).isPrefixOf (b :: rest) then
      .closed (i + (marks mark style).length)
    else bodyEnd mark style (i + 1) rest
termination_by bs.length
decreasing_by all_goals (simp only [List.length_cons, List.length_drop]; omega)

/-- A literal whose opening has been read, cut off where looking for its end ended. -/
def literal (letters : Text) (d : Delimiter) (body : Text) : Option Front :=
  match bodyEnd d.mark.toUInt8 d.style 0 body.bytes with
  | .closed stop => do
    let (inside, rest) ← cut stop body
    return .lexeme ⟨.literal d.style, letters ++ d.text ++ inside⟩ rest
  | .line stop => do
    let _ ← cut stop body
    return .fault (.unterminated .single)
  | .text => do
    let _ ← cut body.bytes.length body
    return .fault (.unterminated d.style)

/-- The lexeme at the front of the text `c :: rest`. -/
def front (c : Char) (rest : Text) : Option Front :=
  match opening? (c :: rest) with
  | some (letters, d, body) => literal letters d body
  | none => some (plain c rest)

/-! ## Looking for the end -/

/-- What is found from offset `i` on in the body `t` of a literal. -/
inductive Finds (d : Delimiter) (i : Nat) (t : Text) : BodyEnd → Prop
  | closed {inside after : Text} (h : closing? d t = some (inside, after)) :
    Finds d i t (.closed (i + byteSize inside))
  | line {before after : Text} (h : closing? d t = none) (hs : d.style = .single)
    (ht : t = before ++ after) : Finds d i t (.line (i + byteSize before))
  | text (h : closing? d t = none) : Finds d i t .text

section

variable {d : Delimiter} {i : Nat} {t : Text}

theorem Finds.pass {a : Text} {e : BodyEnd}
    (hpass : closing? d (a ++ t) = (closing? d t).map fun (inside, after) => (a ++ inside, after))
    (h : Finds d (i + byteSize a) t e) : Finds d i (a ++ t) e := by
  cases h with
  | @closed inside after h =>
    rw [Nat.add_assoc, ← byteSize_append]
    exact .closed (by rw [hpass, h]; rfl)
  | @line before after h hs ht =>
    rw [Nat.add_assoc, ← byteSize_append]
    exact .line (by rw [hpass, h]; rfl) hs (by rw [ht, List.append_assoc])
  | text h => exact .text (by rw [hpass, h]; rfl)

theorem ascii_of_isMark {c : Char} (h : isMark c = true) : c.toNat < 128 := by
  rcases isMark_iff.1 h with rfl | rfl <;> decide

theorem mark_lt (hm : isMark d.mark = true) : d.mark.toUInt8.toNat < 128 := by
  rw [toNat_toUInt8 (ascii_of_isMark hm)]
  exact ascii_of_isMark hm

theorem bodyEnd_skip {mark : UInt8} (hmark : mark.toNat < 128) (style : QuoteStyle) (i : Nat)
    {bs : List UInt8} (h : ∀ b ∈ bs, 128 ≤ b.toNat) (rest : List UInt8) :
    bodyEnd mark style i (bs ++ rest) = bodyEnd mark style (i + bs.length) rest := by
  induction bs generalizing i with
  | nil => rfl
  | cons b bs ih =>
    obtain ⟨hb, hbs⟩ := List.forall_mem_cons.1 h
    have hne : ∀ x : UInt8, x.toNat < 128 → b ≠ x := fun x hx e => by
      rw [e] at hb
      omega
    rw [List.cons_append, bodyEnd, if_neg (hne _ (by decide)), if_neg fun hn => hne _ (by decide) hn.1,
      if_neg fun hm => hne _ hmark hm.1, ih _ hbs, List.length_cons, Nat.add_assoc, Nat.add_comm 1]

theorem marks_eq (d : Delimiter) : marks d.mark.toUInt8 d.style = d.text.map Char.toUInt8 := by
  rw [Delimiter.text]
  cases d.style <;> rfl

theorem text_ascii (hm : isMark d.mark = true) : ∀ c ∈ d.text, c.toNat < 128 := by
  have hmark := ascii_of_isMark hm
  rw [Delimiter.text]
  cases d.style <;> simp [hmark]

theorem length_marks (hm : isMark d.mark = true) :
    (marks d.mark.toUInt8 d.style).length = byteSize d.text := by
  rw [marks_eq, ← bytes_of_ascii (text_ascii hm), length_bytes]

theorem marks_isPrefixOf (hm : isMark d.mark = true) (t : Text) :
    (marks d.mark.toUInt8 d.style).isPrefixOf t.bytes = d.text.isPrefixOf t := by
  rw [marks_eq, isPrefixOf_bytes (text_ascii hm)]

theorem bodyEnd_ascii (hm : isMark d.mark = true) {c : Char} (hlt : c.toNat < 128) (hc : c ≠ '\\')
    (rest : Text) : bodyEnd d.mark.toUInt8 d.style i (bytes (c :: rest)) =
      if c = '\n' ∧ d.style = .single then .line i
      else if c = d.mark ∧ d.text.isPrefixOf (c :: rest) then .closed (i + byteSize d.text)
      else bodyEnd d.mark.toUInt8 d.style (i + 1) (bytes rest) := by
  have hne : c.toUInt8 ≠ '\\'.toUInt8 := fun e => hc ((toUInt8_inj hlt (by decide)).1 e)
  have hprefix := marks_isPrefixOf hm (c :: rest)
  have hline : c.toUInt8 = '\n'.toUInt8 ↔ c = '\n' := toUInt8_inj hlt (by decide)
  have hmark : c.toUInt8 = d.mark.toUInt8 ↔ c = d.mark := toUInt8_inj hlt (ascii_of_isMark hm)
  rw [bytes_cons_of_ascii hlt] at hprefix ⊢
  rw [bodyEnd, if_neg hne]
  simp only [hline, hmark, hprefix, length_marks hm]

theorem bodyEnd_pass (hm : isMark d.mark = true) {c : Char} {rest : Text} (hc : c ≠ '\\')
    (hmarks : ¬(c = d.mark ∧ d.text.isPrefixOf (c :: rest) = true))
    (hline : ¬(c = '\n' ∧ d.style = .single)) :
    bodyEnd d.mark.toUInt8 d.style i (bytes (c :: rest)) =
      bodyEnd d.mark.toUInt8 d.style (i + byteSize [c]) (bytes rest) := by
  have hsize : byteSize [c] = (String.utf8EncodeChar c).length := by
    rw [String.length_utf8EncodeChar, byteSize_cons, byteSize_nil, Nat.add_zero]
  rcases exists_encode c with ⟨hlt, he⟩ | ⟨b, bs, -, he, hbs⟩
  · rw [bodyEnd_ascii hm hlt hc, if_neg hline, if_neg hmarks, hsize, he, List.length_singleton]
  · rw [hsize, bytes_cons, he, bodyEnd_skip (mark_lt hm) _ _ hbs]

theorem bytes_backslash (t : Text) : bytes ('\\' :: t) = '\\'.toUInt8 :: bytes t :=
  bytes_cons_of_ascii (by decide) t

theorem bodyEnd_escape (hm : isMark d.mark = true) {c : Char} {rest : Text}
    (h : ∀ after, c = '\r' → rest = '\n' :: after → False) :
    bodyEnd d.mark.toUInt8 d.style i (bytes ('\\' :: c :: rest)) =
      bodyEnd d.mark.toUInt8 d.style (i + byteSize ['\\', c]) (bytes rest) := by
  have hreturn : ['\r', '\n'].isPrefixOf (c :: rest) = false := by
    by_contra hp
    obtain ⟨after, hafter⟩ := List.isPrefixOf_iff_prefix.1 (Bool.not_eq_false _ ▸ hp)
    obtain ⟨rfl, hrest⟩ := List.cons.inj hafter
    exact h after rfl hrest.symm
  have hascii : ∀ a ∈ ['\r', '\n'], a.toNat < 128 := by simp
  have hreturn' : ¬['\r'.toUInt8, '\n'.toUInt8].isPrefixOf (bytes (c :: rest)) = true :=
    Bool.eq_false_iff.1 ((isPrefixOf_bytes hascii _).trans hreturn)
  have hsize : byteSize ['\\', c] = 1 + (String.utf8EncodeChar c).length := by
    rw [String.length_utf8EncodeChar]
    rfl
  rw [bytes_backslash, bodyEnd, if_pos rfl, if_neg hreturn', hsize, bytes_cons]
  rcases exists_encode c with ⟨-, he⟩ | ⟨b, bs, -, he, hbs⟩
  · rw [he]
    rfl
  · -- the first byte of the character is taken along, and the others are passed over
    rw [he, List.cons_append, List.drop_one, List.tail_cons,
      bodyEnd_skip (mark_lt hm) _ _ (List.forall_mem_cons.1 hbs).2, List.length_cons]
    congr 1
    omega

theorem bodyEnd_return (mark : UInt8) (style : QuoteStyle) (i : Nat) (rest : Text) :
    bodyEnd mark style i (bytes ('\\' :: '\r' :: '\n' :: rest)) =
      bodyEnd mark style (i + byteSize ['\\', '\r', '\n']) (bytes rest) := by
  have hreturn : ['\r'.toUInt8, '\n'.toUInt8].isPrefixOf
      ('\r'.toUInt8 :: '\n'.toUInt8 :: bytes rest) = true := rfl
  rw [bytes_backslash, bytes_cons_of_ascii (by decide), bytes_cons_of_ascii (by decide), bodyEnd,
    if_pos rfl, if_pos hreturn]
  rfl

theorem bodyEnd_lone (mark : UInt8) (style : QuoteStyle) (i : Nat) :
    bodyEnd mark style i (bytes ['\\']) = .text := by
  have hreturn : ¬['\r'.toUInt8, '\n'.toUInt8].isPrefixOf ([] : List UInt8) = true := by simp
  rw [bytes_backslash, bytes_nil, bodyEnd, if_pos rfl, if_neg hreturn, List.drop_nil, bodyEnd]

/-- Looking among bytes ends where looking among characters does. -/
theorem bodyEnd_spec (hm : isMark d.mark = true) :
    Finds d i t (bodyEnd d.mark.toUInt8 d.style i (bytes t)) := by
  fun_induction closing? d t generalizing i with
  | case1 =>
    rw [bytes_nil, bodyEnd]
    exact .text rfl
  | case2 rest ih =>
    rw [bodyEnd_return]
    exact Finds.pass (a := ['\\', '\r', '\n']) (by simp [closing?]) ih
  | case3 c rest hne ih =>
    rw [bodyEnd_escape hm hne]
    refine Finds.pass (a := ['\\', c]) ?_ ih
    rw [List.cons_append, List.cons_append, List.nil_append, closing?]
    · rfl
    · exact hne
  | case4 c rest h2 h3 h =>
    obtain ⟨hn, -, hc⟩ := newline_ne_of_isMark hm
    rw [← h.1] at hn hc
    rw [bodyEnd_ascii hm (h.1 ▸ ascii_of_isMark hm) hc, if_neg fun e => hn e.1, if_pos h]
    have hclosing : closing? d (c :: rest) = some (d.text, (c :: rest).drop d.text.length) := by
      rw [closing?, if_pos h]
      · exact h2
      · exact h3
    exact .closed hclosing
  | case5 c rest h2 h3 h4 h5 =>
    have hnewline : bodyEnd d.mark.toUInt8 d.style i (bytes (c :: rest)) = .line i := by
      rw [h5.1, bodyEnd_ascii hm (by decide) (by decide), if_pos ⟨rfl, h5.2⟩]
    rw [hnewline]
    have hclosing : closing? d (c :: rest) = none := by
      rw [closing?, if_neg h4, if_pos h5]
      · exact h2
      · exact h3
    exact @Finds.line d i (c :: rest) [] (c :: rest) hclosing h5.2 rfl
  | case6 c rest h2 h3 h4 h5 ih =>
    have hpass : closing? d (c :: rest) = (closing? d rest).map fun (inside, after) => (c :: inside, after) := by
      rw [closing?, if_neg h4, if_neg h5]
      · exact h2
      · exact h3
    by_cases hc : c = '\\'
    · subst hc
      obtain rfl : rest = [] := by
        cases rest with
        | nil => rfl
        | cons e rest => exact (h3 e rest rfl rfl).elim
      rw [bodyEnd_lone]
      exact .text (hpass.trans rfl)
    · rw [bodyEnd_pass hm hc h4 h5]
      exact Finds.pass (a := [c]) hpass ih

end

/-! ## Cutting off a lexeme -/

theorem literal_eq {d : Delimiter} (hm : isMark d.mark = true) (letters body : Text) :
    literal letters d body = some (Lexeme.literal letters d body) := by
  have hends := bodyEnd_spec (i := 0) (t := body) hm
  rw [literal]
  generalize bodyEnd d.mark.toUInt8 d.style 0 body.bytes = e at hends
  cases hends with
  | @closed inside after h =>
    have hcut : cut (0 + byteSize inside) body = some (inside, after) := by
      rw [Nat.zero_add, closing?_eq h, cut_byteSize_append]
    simp only [hcut, Lexeme.literal, h, Option.bind_eq_bind, Option.bind_some]
    rfl
  | @line before after h hs ht =>
    have hcut : cut (0 + byteSize before) body = some (before, after) := by
      rw [Nat.zero_add, ht, cut_byteSize_append]
    simp only [hcut, Lexeme.literal, h, hs, Option.bind_eq_bind, Option.bind_some]
    rfl
  | text h =>
    have hcut : cut body.bytes.length body = some (body, []) :=
      cut_eq_some.2 ⟨(List.append_nil _).symm, (length_bytes _).symm⟩
    simp only [hcut, Lexeme.literal, h, Option.bind_eq_bind, Option.bind_some]
    rfl

/-- The lexeme at the front of a text, literals being cut off by bytes. -/
theorem front_eq (c : Char) (rest : Text) : front c rest = some (Lexeme.front c rest) := by
  rw [front, Lexeme.front]
  cases ho : opening? (c :: rest) with
  | none => rfl
  | some opening =>
    obtain ⟨letters, d, body⟩ := opening
    obtain ⟨-, -, u, -, hd⟩ := openingWithin_spec ho
    exact literal_eq (delimiter?_isMark hd) letters body

end Checked

end Offside
