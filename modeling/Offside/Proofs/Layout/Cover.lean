import Offside.Proofs.Bytes.Layout
import Offside.Proofs.Bytes.Offset
import Offside.Proofs.Layout.Order

/-!
# Tokens over the text

Each token holds the characters of the text between its two positions. The tokens of
code and comments, and the ends of lines that hold any, lie apart and in order, and
they leave nothing out but white space, backslashes that join lines and the ends of
blank lines.

Results:
* `Piece.Gives.spells`: what a move gives is spelled as it stands in the text;
* `Covers.append`: tokens that cover two parts of a text, the one behind the other;
* `step_covers`: a move covers its lexeme;
* `tokenize_covers`: the tokens of a text are spelled as they stand and cover it.
-/
namespace Offside

open Lexeme Text Layout

/-- The kinds that stand for a lexeme of their own. -/
def Token.Kind.isSolid : Token.Kind → Bool
  | .code | .comment | .newline | .lineBreak => true
  | .indent | .dedent | .blankLine | .endMarker => false

/-- A token holds what stands in the text between its two positions. -/
def Token.Spells (s : Text) (t : Token) : Prop :=
  Checked.slice (t.start.offset s) (t.stop.offset s) s = some t.text

instance (s : Text) (t : Token) : Decidable (t.Spells s) := inferInstanceAs (Decidable (_ = _))

/-- Byte `i` lies between the two positions of a token. -/
def Token.Over (s : Text) (i : Nat) (t : Token) : Prop :=
  t.start.offset s ≤ i ∧ i < t.stop.offset s

instance (s : Text) (i : Nat) (t : Token) : Decidable (t.Over s i) :=
  inferInstanceAs (Decidable (_ ∧ _))

/-- Byte `i` of a text needs no token of its own, `ts` being the tokens of the text. -/
inductive Passed (s : Text) (ts : List Token) (i : Nat) : Prop
  /-- It is a blank, a tab, a form feed or a carriage return. -/
  | space {c : Char} (hc : isSpace c = true) (hi : s.bytes[i]? = some c.toUInt8)
  /-- It is part of a backslash that joins lines. -/
  | joined {as bs : List Lexeme} {l : Lexeme} (hls : (scan s).lexemes = as ++ l :: bs)
    (hk : l.kind = .continuation) (hfrom : byteSize (textOf as) ≤ i)
    (hto : i < byteSize (textOf as) + byteSize l.text)
  /-- It is part of what ends a line that is marked blank. -/
  | blank {t : Token} {e : Text} (ht : t ∈ ts) (hk : t.kind = .blankLine)
    (he : e = ['\n'] ∨ e = ['\r', '\n'])
    (hs : Checked.slice (t.stop.offset s) (t.stop.offset s + byteSize e) s = some e)
    (hfrom : t.stop.offset s ≤ i) (hto : i < t.stop.offset s + byteSize e)

/-- The solid tokens among `ts` lie apart and in order between the offsets `a` and `b`
of a text, and leave out nothing there that needs a token. -/
structure Covers (s : Text) (a b : Nat) (ts : List Token) : Prop where
  le : a ≤ b
  within : ∀ t ∈ ts, t.kind.isSolid = true → a ≤ t.start.offset s ∧ t.stop.offset s ≤ b
  apart : (ts.filter (·.kind.isSolid)).Pairwise (·.stop.offset s ≤ ·.start.offset s)
  whole : ∀ i, a ≤ i → i < b → (∃ t ∈ ts, t.kind.isSolid = true ∧ t.Over s i) ∨ Passed s ts i

/-! ## Tokens as they are spelled -/

section spells

variable (pre x post : Text)

theorem Token.spells_mark (kind : Kind) {q : Position} (h : q.offset (pre ++ post) = byteSize pre) :
    Token.Spells (pre ++ post) (.mark kind q) := by
  have hslice := Checked.slice_append pre [] post
  rw [byteSize_nil, Nat.add_zero, List.append_nil] at hslice
  rw [Token.Spells, Token.mark, h, hslice]

theorem Token.spells_end (kind : Kind) {s : Text} {q : Position} (h : q.offset s = byteSize s) :
    Token.Spells s (.mark kind q) := by
  have hmark := Token.spells_mark s [] kind (q := q)
  rw [List.append_nil] at hmark
  exact hmark h

theorem Token.spells_margin (kind : Kind) : Token.Spells (pre ++ post)
    ⟨kind, (Place.start.advance pre).lineStart, (Place.start.advance pre).position,
      (Place.start.advance pre).margin⟩ := by
  obtain ⟨before, hpre⟩ := Checked.exists_margin pre
  have hline := Place.offset_lineStart pre post
  have hslice := Checked.slice_append before (Place.start.advance pre).margin post
  have hsize : byteSize pre = byteSize before + byteSize (Place.start.advance pre).margin := by
    conv_lhs => rw [hpre, byteSize_append]
  have hstart : (Place.start.advance pre).lineStart.offset (pre ++ post) = byteSize before := by
    omega
  rw [← hpre] at hslice
  rw [Token.Spells, hstart, Place.offset_position, hsize, hslice]

theorem Layout.offset_lineEnd (k : Lexeme.Kind) (lead : Char) (kind : Token.Kind) :
    (lineEnd ⟨k, Place.start.advance pre, x, lead⟩ kind).stop.offset (pre ++ post) =
      byteSize pre + byteSize x :=
  Place.offset_forward pre post (byteSize x)

/-- What a move gives is spelled as it stands in the text. -/
theorem Piece.Gives.spells {k : Lexeme.Kind} {lead : Char} {t : Token}
    (h : Piece.Gives ⟨k, Place.start.advance pre, x, lead⟩ t) : t.Spells (pre ++ x ++ post) := by
  have hlineEnd : ∀ kind, Token.Spells (pre ++ x ++ post)
      (lineEnd ⟨k, Place.start.advance pre, x, lead⟩ kind) := fun kind => by
    have hstart : (lineEnd ⟨k, Place.start.advance pre, x, lead⟩ kind).start.offset
        (pre ++ (x ++ post)) = byteSize pre := Place.offset_position pre (x ++ post)
    rw [Token.Spells, List.append_assoc, offset_lineEnd, hstart, ← List.append_assoc]
    exact Checked.slice_append pre x post
  cases h with
  | indent | blankLine =>
    rw [List.append_assoc]
    exact Token.spells_margin pre (x ++ post) _
  | dedent =>
    rw [List.append_assoc]
    exact Token.spells_mark pre (x ++ post) _ (Place.offset_position pre (x ++ post))
  | code | comment => exact Place.slice_offset pre post x
  | newline | lineBreak => exact hlineEnd _

end spells

/-! ## Covering -/

theorem Passed.mono {s : Text} {ts us : List Token} {i : Nat} (h : Passed s ts i) (hsub : ts ⊆ us) :
    Passed s us i := by
  cases h with
  | space hc hi => exact .space hc hi
  | joined hls hk hfrom hto => exact .joined hls hk hfrom hto
  | blank ht hk he hs hfrom hto => exact .blank (hsub ht) hk he hs hfrom hto

namespace Covers

variable {s : Text} {a b c : Nat} {ts us : List Token}

/-- Tokens that cover two parts of a text, the one behind the other. -/
theorem append (h : Covers s a b ts) (h' : Covers s b c us) : Covers s a c (ts ++ us) := by
  refine ⟨Nat.le_trans h.le h'.le, fun t ht hk => ?_, ?_, fun i hfrom hto => ?_⟩
  · rcases List.mem_append.1 ht with ht | ht
    · have := h.within t ht hk
      have := h'.le
      omega
    · have := h'.within t ht hk
      have := h.le
      omega
  · rw [List.filter_append, List.pairwise_append]
    refine ⟨h.apart, h'.apart, fun t ht u hu => ?_⟩
    obtain ⟨ht, hkt⟩ := List.mem_filter.1 ht
    obtain ⟨hu, hku⟩ := List.mem_filter.1 hu
    exact Nat.le_trans (h.within t ht hkt).2 (h'.within u hu hku).1
  · by_cases hi : i < b
    · exact (h.whole i hfrom hi).imp
        (fun ⟨t, ht, hover⟩ => ⟨t, List.mem_append_left us ht, hover⟩)
        (·.mono (List.subset_append_left ts us))
    · exact (h'.whole i (Nat.le_of_not_lt hi) hto).imp
        (fun ⟨t, ht, hover⟩ => ⟨t, List.mem_append_right ts ht, hover⟩)
        (·.mono (List.subset_append_right ts us))

theorem of_passed (hle : a ≤ b) (hts : ∀ t ∈ ts, t.kind.isSolid = false)
    (h : ∀ i, a ≤ i → i < b → Passed s ts i) : Covers s a b ts := by
  refine ⟨hle, fun t ht hk => ?_, ?_, fun i hfrom hto => Or.inr (h i hfrom hto)⟩
  · rw [hts t ht] at hk; cases hk
  · rw [List.filter_eq_nil_iff.2 fun t ht => by simp [hts t ht]]
    exact .nil

theorem of_none (hts : ∀ t ∈ ts, t.kind.isSolid = false) : Covers s a a ts :=
  of_passed (Nat.le_refl a) hts fun _ hfrom hto => absurd hto (Nat.not_lt.2 hfrom)

theorem of_token {t : Token} (hts : ∀ u ∈ ts, u.kind.isSolid = false) (hk : t.kind.isSolid = true)
    (hle : a ≤ b) (hstart : t.start.offset s = a) (hstop : t.stop.offset s = b) :
    Covers s a b (ts ++ [t]) := by
  refine (of_none hts).append ⟨hle, fun u hu _ => ?_, ?_, fun i hfrom hto => ?_⟩
  · obtain rfl := List.mem_singleton.1 hu
    omega
  · rw [List.filter_singleton, hk]
    exact List.pairwise_singleton _ _
  · exact Or.inl ⟨t, List.mem_singleton_self t, hk, by omega, by omega⟩

end Covers

/-! ## Moves -/

namespace Layout

variable {r : Ruler} {s last : Layout} {p : Piece}

theorem step_solid (hf : (step r s p).fault? = none) :
    (∃ margin t, (step r s p).emitted = margin ++ [t] ∧ (∀ u ∈ margin, u.kind.isSolid = false) ∧
      t.kind.isSolid = true ∧ (t = p.token t.kind ∨ t = lineEnd p t.kind)) ∨
    ((p.kind = .space ∨ p.kind = .continuation) ∧ (step r s p).emitted = []) ∨
    (p.kind = .newline ∧ (step r s p).emitted = [blankLine p.start]) := by
  cases hi : p.kind.isInner with
  | true =>
    rcases step_inner hi hf with ⟨hk, he, -⟩ | ⟨-, he, -⟩ | ⟨-, margin, -, -, he, hm, -⟩
    · exact Or.inr (Or.inl ⟨Or.inl hk, he⟩)
    · exact Or.inl ⟨[], _, he, nofun, rfl, Or.inl rfl⟩
    · refine Or.inl ⟨margin, _, he, fun u hu => ?_, rfl, Or.inl rfl⟩
      rcases step_margin he hm with rfl | hm
      · rw [List.mem_singleton.1 hu]
        rfl
      · rw [hm u hu]
        rfl
  | false =>
    cases hk : p.kind with
    | newline =>
      have hstep : step r s p = endLine s p := by rw [step, hk]
      rw [hstep] at hf ⊢
      rcases endLine_spec rfl hf with ⟨-, -, -, he, -⟩ | ⟨-, -, he, -⟩ | ⟨-, -, he, -⟩
      · exact Or.inl ⟨[], _, he, nofun, rfl, Or.inr rfl⟩
      · exact Or.inl ⟨[], _, he, nofun, rfl, Or.inr rfl⟩
      · exact Or.inr (Or.inr ⟨rfl, he⟩)
    | continuation => exact Or.inr (Or.inl ⟨Or.inr rfl, by rw [step, hk]; rfl⟩)
    | space | comment | opener | closer | literal | word | punct => rw [hk] at hi; cases hi

end Layout

theorem exists_space (pre post : Text) {x : Text} (hx : ∀ c ∈ x, isSpace c = true) {i : Nat}
    (hfrom : byteSize pre ≤ i) (hto : i < byteSize pre + byteSize x) :
    ∃ c, isSpace c = true ∧ (bytes (pre ++ x ++ post))[i]? = some c.toUInt8 := by
  have hascii : bytes x = x.map Char.toUInt8 := bytes_of_ascii fun c hc => by
    rcases isSpace_cases (hx c hc) with rfl | rfl | rfl | rfl <;> decide
  have hsize : x.length = byteSize x := by rw [← length_bytes, hascii, List.length_map]
  have hlt : i - byteSize pre < x.length := by omega
  refine ⟨x[i - byteSize pre], hx _ (List.getElem_mem hlt), ?_⟩
  have hbytes : bytes (pre ++ x ++ post) = bytes pre ++ (x.map Char.toUInt8 ++ bytes post) := by
    simp only [bytes, List.flatMap_append, List.append_assoc] at hascii ⊢
    rw [hascii]
  rw [hbytes, List.getElem?_append_right (by rwa [length_bytes]), length_bytes,
    List.getElem?_append_left (by rwa [List.length_map]), List.getElem?_map,
    List.getElem?_eq_getElem hlt, Option.map_some]

section moves

variable {r : Ruler} {s : Text} {m last : Layout} {as bs : List Lexeme} {l : Lexeme}

theorem text_around (hs : s = textOf (scan s).lexemes) (hls : (scan s).lexemes = as ++ l :: bs) :
    s = textOf as ++ l.text ++ textOf bs := by
  rw [List.append_assoc, ← textOf_cons, ← textOf_append, ← hls]
  exact hs

/-- A move covers its lexeme. -/
theorem step_covers (hs : s = textOf (scan s).lexemes) (hcut : ∀ k ∈ (scan s).lexemes, Valid k)
    (hls : (scan s).lexemes = as ++ l :: bs)
    (hf : (step r m ⟨l.kind, placeBehind as, l.text, Piece.leadOf l.text⟩).fault? = none) :
    Covers s (byteSize (textOf as)) (byteSize (textOf as) + byteSize l.text)
      (step r m ⟨l.kind, placeBehind as, l.text, Piece.leadOf l.text⟩).emitted := by
  have hle : byteSize (textOf as) ≤ byteSize (textOf as) + byteSize l.text := Nat.le_add_right _ _
  have hvalid : Valid l := hcut l (by simp [hls])
  have htext : s = textOf as ++ l.text ++ textOf bs := text_around hs hls
  have hstart : (placeBehind as).position.offset s = byteSize (textOf as) := by
    rw [htext, List.append_assoc]
    exact Place.offset_position _ _
  rcases step_solid hf with ⟨margin, t, he, hmargin, hk, ht⟩ | ⟨hk, he⟩ | ⟨hk, he⟩ <;> rw [he]
  · rcases ht with ht | ht <;> rw [ht] at hk ⊢
    · refine Covers.of_token hmargin hk hle hstart ?_
      rw [Piece.token, Piece.stop, placeBehind, ← Place.advance_append, htext, Place.offset_position,
        byteSize_append]
    · refine Covers.of_token hmargin hk hle hstart ?_
      rw [htext, List.append_assoc]
      exact offset_lineEnd _ _ _ _ _ _
  · refine Covers.of_passed hle (List.forall_mem_nil _) fun i hfrom hto => ?_
    rcases hk with hk | hk
    · replace hk : l.kind = .space := hk
      rw [Valid, hk] at hvalid
      obtain ⟨c, hc, hi⟩ := exists_space (textOf as) (textOf bs) hvalid.2 hfrom hto
      exact .space hc (by rwa [← htext] at hi)
    · exact .joined hls hk hfrom hto
  · have hslice : Checked.slice ((placeBehind as).position.offset s)
        ((placeBehind as).position.offset s + byteSize l.text) s = some l.text := by
      rw [hstart]
      conv_lhs => rw [htext]
      exact Checked.slice_append _ _ _
    refine Covers.of_passed hle (fun t ht => by rw [List.mem_singleton.1 ht]; rfl) fun i hfrom hto => ?_
    replace hk : l.kind = .newline := hk
    rw [Valid, hk] at hvalid
    rw [← hstart] at hfrom hto
    exact .blank (List.mem_singleton_self _) rfl hvalid hslice hfrom hto

theorem reads_covers {ls : List Lexeme} {ts : List Token} (hs : s = textOf (scan s).lexemes)
    (hcut : ∀ k ∈ (scan s).lexemes, Valid k) (hls : (scan s).lexemes = as ++ ls ++ bs)
    (hr : Layout.reads r m (Piece.placed (placeBehind as) ls) = some (ts, last)) :
    Covers s (byteSize (textOf as)) (byteSize (textOf (as ++ ls))) ts := by
  induction ls generalizing as m ts with
  | nil =>
    obtain ⟨rfl, -⟩ := reads_nil.1 hr
    rw [List.append_nil]
    exact Covers.of_none (List.forall_mem_nil _)
  | cons l ls ih =>
    obtain ⟨hf, us, hrest, rfl⟩ := reads_cons.1 hr
    have hhere : (scan s).lexemes = as ++ l :: (ls ++ bs) := by simp [hls]
    have hbehind : (scan s).lexemes = as ++ [l] ++ ls ++ bs := by simp [hls]
    have hplace : (placeBehind as).advance l.text = placeBehind (as ++ [l]) := by
      simp [placeBehind, Place.advance_append]
    rw [hplace] at hrest
    have hcovers := ih hbehind hrest
    rw [textOf_append as [l], textOf_cons, textOf_nil, List.append_nil, byteSize_append,
      List.append_assoc, List.singleton_append] at hcovers
    exact (step_covers hs hcut hhere hf).append hcovers

end moves

/-! ## Token streams -/

section streams

variable {r : Ruler} {s : Text} {ts : List Token}

theorem closeLine_spells (m : Layout) :
    ∀ t ∈ closeLine m (Place.start.advance s), t.Spells s := by
  have hmargin := Token.spells_margin s [] .blankLine
  rw [List.append_nil] at hmargin
  intro t ht
  unfold closeLine at ht
  split at ht
  · rw [List.mem_singleton.1 ht]
    exact Token.spells_end _ (Place.offset_end s)
  · split at ht
    · cases ht
    · rw [List.mem_singleton.1 ht]
      exact hmargin

theorem closing_spells (m : Layout) : ∀ t ∈ closing m (Place.start.advance s).pastEnd, t.Spells s := by
  intro t ht
  rcases mem_closing ht with rfl | rfl <;> exact Token.spells_end _ (Place.offset_pastEnd s)

theorem spells_of_tokenizeWith (h : tokenizeWith r s = .ok ts) : ∀ t ∈ ts, t.Spells s := by
  obtain ⟨us, m, hr, -, rfl⟩ := (tokenizeWith_eq_ok (stop_of_tokenizeWith h)).1 h
  intro t ht
  rcases List.mem_append.1 ht with ht | ht
  · rcases List.mem_append.1 ht with ht | ht
    · obtain ⟨as, l, bs, _, _, hls, -, hmove⟩ := exists_move hr ht
      rw [text_around (textOf_lexemes h) hls]
      exact (step_gives hmove).spells (textOf as) l.text (textOf bs)
    · exact closeLine_spells m t ht
  · exact closing_spells m t ht

theorem covers_end (m : Layout) :
    Covers s (byteSize s) (byteSize s) (closeLine m (Place.start.advance s) ++
      closing m (Place.start.advance s).pastEnd) := by
  have hoffset := Place.offset_end s
  refine Covers.append (b := byteSize s) ?_ (Covers.of_none fun t ht => ?_)
  · unfold closeLine
    split
    · refine Covers.of_token (List.forall_mem_nil _) ?_ (Nat.le_refl _) hoffset hoffset
      cases m.codeSeen <;> rfl
    · refine Covers.of_none ?_
      split
      · exact List.forall_mem_nil _
      · simp [blankLine, Token.Kind.isSolid]
  · rcases mem_closing ht with rfl | rfl <;> rfl

theorem covers_of_tokenizeWith (h : tokenizeWith r s = .ok ts) : Covers s 0 (byteSize s) ts := by
  obtain ⟨us, m, hr, -, rfl⟩ := (tokenizeWith_eq_ok (stop_of_tokenizeWith h)).1 h
  have htext := textOf_lexemes h
  have hls : (scan s).lexemes = [] ++ (scan s).lexemes ++ [] := by simp
  have hreads := reads_covers htext (cut_scan s).valid hls hr
  rw [List.nil_append, ← htext] at hreads
  rw [List.append_assoc]
  exact hreads.append (covers_end m)

end streams

/-- The tokens of a text are faithful to it and leave nothing out. Each holds what stands
between its two positions; the solid ones lie apart and in order; and each byte that no
solid one is over is white space, or part of a backslash that joins lines, or part of
what ends a line that is marked blank. -/
theorem tokenize_covers {s : Text} {ts : List Token} (h : tokenize s = .ok ts) :
    (∀ t ∈ ts, t.Spells s) ∧ Covers s 0 (byteSize s) ts :=
  ⟨spells_of_tokenizeWith h, covers_of_tokenizeWith h⟩

/-- A literal over two lines, longer characters, a backslash that joins lines, a line that
a carriage return and newline end, and a blank line. -/
theorem tokenize_covers_lines :
    ∃ ts, tokenize "é='''\nü'''\\\n+b\r\n \n".toList = .ok ts ∧
      ts.map (fun t => (t.start.offset "é='''\nü'''\\\n+b\r\n \n".toList,
        t.stop.offset "é='''\nü'''\\\n+b\r\n \n".toList)) =
        [(0, 2), (2, 3), (3, 12), (14, 15), (15, 16), (16, 18), (18, 19), (20, 20)] ∧
      (∀ t ∈ ts, t.Spells "é='''\nü'''\\\n+b\r\n \n".toList) ∧
      Covers "é='''\nü'''\\\n+b\r\n \n".toList 0 20 ts := by
  have hok : tokenize "é='''\nü'''\\\n+b\r\n \n".toList = .ok
      [⟨.code, ⟨1, 0⟩, ⟨1, 2⟩, ['é']⟩, ⟨.code, ⟨1, 2⟩, ⟨1, 3⟩, ['=']⟩,
        ⟨.code, ⟨1, 3⟩, ⟨2, 5⟩, ['\'', '\'', '\'', '\n', 'ü', '\'', '\'', '\'']⟩,
        ⟨.code, ⟨3, 0⟩, ⟨3, 1⟩, ['+']⟩, ⟨.code, ⟨3, 1⟩, ⟨3, 2⟩, ['b']⟩,
        ⟨.newline, ⟨3, 2⟩, ⟨3, 4⟩, ['\r', '\n']⟩, ⟨.blankLine, ⟨4, 0⟩, ⟨4, 1⟩, [' ']⟩,
        .mark .endMarker ⟨5, 0⟩] := by
    simp only [tokenize, tokenizeWith, scan_eq_scanIn]
    decide +kernel
  obtain ⟨hspells, hcovers⟩ := tokenize_covers hok
  exact ⟨_, hok, by decide +kernel, hspells, hcovers⟩

end Offside
