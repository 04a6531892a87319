import Mathlib.Data.List.DropRight
import Offside.Proofs.Bytes.Offset
import Offside.Proofs.Text.Ending

/-!
# Numbers of lines and bytes

A position is told from the bytes before it: its line counts the newlines among them, and
its column those behind the last one. That holds of every byte offset, also of one within
a character, since no byte of another character is a newline. So a position leads back to
its offset, later offsets have later positions, and the line is the one that the lines of
the text, cut on their own, give the byte to.

Results:
* `position_eq_ofOffset`: the search finds the position of every offset;
* `line_ofOffset`, `column_ofOffset`: the newlines before an offset, and the bytes behind
  the last of them;
* `offset_ofOffset`: the position of an offset leads back to it;
* `ofOffset_lt`: a later offset has a later position;
* `inLine_iff`: which line of a text a byte stands in;
* `ofOffset_exact`: all of it.
-/
namespace Offside

open Text

/-! ## Within characters -/

theorem exists_within (t : Text) (n : Nat) :
    ∃ a b m, t = a ++ b ∧ n = byteSize a + m ∧ ∀ c ∈ b.head?, m < c.utf8Size := by
  induction t generalizing n with
  | nil => exact ⟨[], [], n, rfl, by simp, nofun⟩
  | cons c t ih =>
    by_cases hn : n < c.utf8Size
    · exact ⟨[], c :: t, n, rfl, by simp, by simpa using hn⟩
    · obtain ⟨a, b, m, rfl, hm, hb⟩ := ih (n - c.utf8Size)
      exact ⟨c :: a, b, m, rfl, by rw [byteSize_cons]; omega, hb⟩

namespace Position

theorem forward_append (p : Place) (a b : Text) (n : Nat) :
    forward p.position (a ++ b) (byteSize a + n) = forward (p.advance a).position b n := by
  induction a generalizing p with
  | nil => simp
  | cons c a ih =>
    have hrest : byteSize (c :: a) + n - c.utf8Size = byteSize a + n := by
      rw [byteSize_cons]; omega
    have hle : ¬ byteSize (c :: a) + n < c.utf8Size := by rw [byteSize_cons]; omega
    rw [List.cons_append, forward, if_neg hle, hrest, Place.advance_cons, ← ih, Place.step]
    by_cases hc : c = '\n'
    · rw [if_pos hc, if_pos hc]
      rfl
    · rw [if_neg hc, if_neg hc]
      simp [Place.position, Nat.add_comm]

theorem ofOffset_within (a b : Text) {m : Nat} (h : ∀ c ∈ b.head?, m < c.utf8Size) :
    ofOffset (a ++ b) (byteSize a + m) =
      ⟨(Place.start.advance a).line, (Place.start.advance a).position.column + m⟩ := by
  have hforward := forward_append .start a b m
  rw [ofOffset, show (⟨1, 0⟩ : Position) = Place.start.position from rfl, hforward]
  cases b with
  | nil => rfl
  | cons c b => rw [forward, if_pos (h c rfl)]; rfl

/-- The search finds the position of every offset. -/
theorem position_eq_ofOffset (t : Text) (n : Nat) :
    Checked.position (Checked.lineStarts t) n = some (ofOffset t n) := by
  obtain ⟨a, b, m, rfl, rfl, hm⟩ := exists_within t n
  rw [Checked.position_within a b hm, ofOffset_within a b hm]

/-- The position of an offset leads back to it. -/
theorem offset_ofOffset (t : Text) (n : Nat) : (ofOffset t n).offset t = n := by
  obtain ⟨a, b, m, rfl, rfl, hm⟩ := exists_within t n
  rw [ofOffset_within a b hm]
  exact Place.offset_forward a b m

end Position

/-! ## Newlines among bytes -/

namespace Text

theorem newline_not_mem_bytes {t : Text} (h : '\n' ∉ t) : '\n'.toUInt8 ∉ t.bytes := by
  intro hmem
  obtain ⟨c, hc, hb⟩ := List.mem_flatMap.1 hmem
  exact Checked.newline_not_mem_encode (fun e => h (e ▸ hc)) hb

theorem count_bytes (t : Text) : t.bytes.count '\n'.toUInt8 = t.count '\n' := by
  induction t with
  | nil => rfl
  | cons c t ih =>
    rw [bytes_cons, List.count_append, ih]
    by_cases hc : c = '\n'
    · have hone : (String.utf8EncodeChar c).count '\n'.toUInt8 = 1 := by rw [hc]; decide
      rw [hone, hc, List.count_cons_self, Nat.add_comm]
    · rw [List.count_eq_zero_of_not_mem (Checked.newline_not_mem_encode hc),
        List.count_cons_of_ne hc, Nat.zero_add]

theorem take_bytes_within {a b : Text} {m : Nat} (h : ∀ c ∈ b.head?, m < c.utf8Size) :
    (a ++ b).bytes.take (byteSize a + m) = a.bytes ++ b.bytes.take m ∧
      '\n'.toUInt8 ∉ b.bytes.take m := by
  refine ⟨by rw [bytes_append, ← length_bytes, List.take_length_add_append], ?_⟩
  cases b with
  | nil => simp
  | cons c b =>
    have hm : m < c.utf8Size := h c rfl
    rw [bytes_cons, List.take_append_of_le_length (by rw [String.length_utf8EncodeChar]; omega)]
    by_cases hc : c = '\n'
    · have hzero : m = 0 := by
        have hone : c.utf8Size = 1 := by rw [hc]; decide
        omega
      rw [hzero, List.take_zero]
      exact List.not_mem_nil
    · exact fun hmem => Checked.newline_not_mem_encode hc (List.mem_of_mem_take hmem)

/-- The bytes behind the last newline. -/
def openBytes (bs : List UInt8) : List UInt8 := bs.rtakeWhile (· ≠ '\n'.toUInt8)

theorem openBytes_append {bs cs : List UInt8} (h : '\n'.toUInt8 ∉ cs) :
    openBytes (bs ++ cs) = openBytes bs ++ cs := by
  have hall : ∀ b ∈ cs.reverse, decide (b ≠ '\n'.toUInt8) = true := fun b hb =>
    decide_eq_true fun e => h (e ▸ List.mem_reverse.1 hb)
  rw [openBytes, List.rtakeWhile, List.reverse_append, List.takeWhile_append_of_pos hall,
    List.reverse_append, List.reverse_reverse]
  rfl

theorem openBytes_newline (bs : List UInt8) : openBytes (bs ++ ['\n'.toUInt8]) = [] :=
  List.rtakeWhile_concat_neg _ _ _ (by simp)

theorem length_openBytes (t : Text) :
    (openBytes t.bytes).length = byteSize (Place.start.advance t).behind := by
  induction t using List.reverseRecOn with
  | nil => rfl
  | append_singleton a c ih =>
    have hbytes : bytes [c] = String.utf8EncodeChar c := by simp
    rw [bytes_append, hbytes, Place.advance_append, Place.advance_cons, Place.advance_nil, Place.step]
    by_cases hc : c = '\n'
    · rw [if_pos hc, hc]
      exact congrArg List.length (openBytes_newline (bytes a))
    · rw [if_neg hc, openBytes_append (Checked.newline_not_mem_encode hc), List.length_append, ih,
        String.length_utf8EncodeChar, byteSize_cons, Nat.add_comm]

end Text

namespace Position

/-- The line of an offset counts the newlines before it. -/
theorem line_ofOffset (t : Text) (n : Nat) :
    (ofOffset t n).line = 1 + (t.bytes.take n).count '\n'.toUInt8 := by
  obtain ⟨a, b, m, rfl, rfl, hm⟩ := exists_within t n
  obtain ⟨htake, hfree⟩ := take_bytes_within (a := a) hm
  rw [ofOffset_within a b hm, htake, List.count_append, List.count_eq_zero_of_not_mem hfree,
    count_bytes]
  exact Place.line_advance .start a

/-- The column of an offset counts the bytes before it that stand behind the last newline. -/
theorem column_ofOffset {t : Text} {n : Nat} (h : n ≤ byteSize t) :
    (ofOffset t n).column = (openBytes (t.bytes.take n)).length := by
  obtain ⟨a, b, m, rfl, rfl, hm⟩ := exists_within t n
  obtain ⟨htake, hfree⟩ := take_bytes_within (a := a) hm
  have hlen : (b.bytes.take m).length = m := by
    rw [byteSize_append] at h
    rw [List.length_take, length_bytes]
    omega
  rw [ofOffset_within a b hm, htake, openBytes_append hfree, List.length_append, length_openBytes,
    hlen]
  rfl

/-- A later offset has a later position. -/
theorem ofOffset_lt (t : Text) {m n : Nat} (h : m < n) :
    (ofOffset t m).line < (ofOffset t n).line ∨
      (ofOffset t m).line = (ofOffset t n).line ∧ (ofOffset t m).column < (ofOffset t n).column := by
  have hline : (ofOffset t m).line ≤ (ofOffset t n).line := by
    rw [line_ofOffset, line_ofOffset]
    have hsub := (List.take_sublist_take_left (l := t.bytes) (Nat.le_of_lt h)).count_le '\n'.toUInt8
    omega
  rcases Nat.lt_or_eq_of_le hline with hlt | heq
  · exact Or.inl hlt
  · have hm := offset_ofOffset t m
    have hn := offset_ofOffset t n
    rw [offset, heq] at hm
    rw [offset] at hn
    exact Or.inr ⟨heq, by omega⟩

end Position

/-! ## Lines of the text -/

namespace Text

/-- A text around its line `k`, counted from one: what stands before it, what it holds, what
ends it and what follows. A newline ends it, alone or behind a carriage return, or nothing
ends it and nothing follows. -/
structure AroundLine (t : Text) (k : Nat) (before line ending after : Text) : Prop where
  text : t = before ++ (line ++ ending) ++ after
  ended : Ended before
  lines : t.lines = before.lines ++ line :: after.lines
  number : before.lines.length + 1 = k
  ending : ending = ['\n'] ∨ ending = ['\r', '\n'] ∨ ending = [] ∧ after = []

/-- Byte `n` of a text stands in its line `k`: in what the line holds or in what ends it. -/
def InLine (t : Text) (k n : Nat) : Prop :=
  ∃ before line ending after, AroundLine t k before line ending after ∧
    byteSize before ≤ n ∧ n < byteSize before + byteSize (line ++ ending)

theorem byteSize_line (a b : Text) : byteSize (a ++ '\n' :: b) = byteSize a + 1 + byteSize b := by
  rw [byteSize_append, byteSize_cons, Nat.add_assoc]
  rfl

theorem newline_not_mem_take {l e : Text} (hl : '\n' ∉ l) {n : Nat} (hn : n < byteSize (l ++ e))
    (he : e = ['\n'] ∨ e = ['\r', '\n'] ∨ e = []) : '\n'.toUInt8 ∉ (l ++ e).bytes.take n := by
  have hopen : ∀ x : Text, '\n' ∉ x → '\n'.toUInt8 ∉ x.bytes.take n := fun x hx hmem =>
    newline_not_mem_bytes hx (List.mem_of_mem_take hmem)
  have hended : ∀ x : Text, '\n' ∉ x → n < byteSize (x ++ ['\n']) →
      '\n'.toUInt8 ∉ (x ++ ['\n']).bytes.take n := fun x hx hlt => by
    have hle : n ≤ x.bytes.length := by
      rw [byteSize_line, byteSize_nil] at hlt
      rw [length_bytes]
      omega
    rw [bytes_append, List.take_append_of_le_length hle]
    exact hopen x hx
  rcases he with rfl | rfl | rfl
  · exact hended l hl hn
  · have hreturn : l ++ ['\r', '\n'] = l ++ ['\r'] ++ ['\n'] := by simp
    rw [hreturn] at hn ⊢
    exact hended _ (by simp [hl]) hn
  · rw [List.append_nil]
    exact hopen l hl

theorem InLine.line_eq {t : Text} {k n : Nat} (h : InLine t k n) :
    (Position.ofOffset t n).line = k := by
  obtain ⟨before, line, ending, after, haround, hle, hlt⟩ := h
  obtain ⟨m, rfl⟩ := Nat.exists_eq_add_of_le hle
  have hm : m < byteSize (line ++ ending) := by omega
  have hmem : line ∈ t.lines := by
    rw [haround.lines]
    simp
  have hfree := newline_not_mem_take (not_newline_mem_of_mem_lines hmem) hm
    (haround.ending.imp_right (·.imp_right (·.1)))
  have htake : t.bytes.take (byteSize before + m) =
      before.bytes ++ (line ++ ending).bytes.take m := by
    rw [haround.text, List.append_assoc, bytes_append, bytes_append, ← length_bytes before,
      List.take_length_add_append, List.take_append_of_le_length]
    rw [length_bytes]
    exact Nat.le_of_lt hm
  rw [Position.line_ofOffset, htake, List.count_append, List.count_eq_zero_of_not_mem hfree,
    count_bytes, ← length_lines_of_ended haround.ended, Nat.add_zero, Nat.add_comm, haround.number]

theorem exists_aroundLine {a : Text} (ha : '\n' ∉ a) (b : Text) :
    ∃ e, trimReturn a ++ e = a ++ ['\n'] ∧
      AroundLine (a ++ '\n' :: b) 1 [] (trimReturn a) e b := by
  have hfirst : ∀ e, trimReturn a ++ e = a ++ ['\n'] → (e = ['\n'] ∨ e = ['\r', '\n']) →
      AroundLine (a ++ '\n' :: b) 1 [] (trimReturn a) e b := fun e htext he =>
    ⟨by rw [htext]; simp, ended_nil, lines_line ha b, rfl, he.imp_right Or.inl⟩
  by_cases h : a.getLast? = some '\r'
  · have htext : trimReturn a ++ ['\r', '\n'] = a ++ ['\n'] := by
      rw [← List.dropLast_append_getLast? _ h, trimReturn_snoc]
      simp
    exact ⟨_, htext, hfirst _ htext (Or.inr rfl)⟩
  · have htext : trimReturn a ++ ['\n'] = a ++ ['\n'] := by rw [trimReturn_of_ne h]
    exact ⟨_, htext, hfirst _ htext (Or.inl rfl)⟩

theorem aroundLine_open {t : Text} (h : '\n' ∉ t) (hne : t ≠ []) : AroundLine t 1 [] t [] [] :=
  ⟨by simp, ended_nil, lines_of_no_newline h hne, rfl, Or.inr (Or.inr ⟨rfl, rfl⟩)⟩

theorem AroundLine.behind {t a before line ending after : Text} {k : Nat}
    (h : AroundLine t k before line ending after) (ha : '\n' ∉ a) :
    AroundLine (a ++ '\n' :: t) (k + 1) (a ++ '\n' :: before) line ending after where
  text := by simp [h.text]
  ended := by simpa using (ended_snoc a).append h.ended
  lines := by rw [lines_line ha, lines_line ha, h.lines, List.cons_append]
  number := by rw [lines_line ha, List.length_cons, h.number]
  ending := h.ending

theorem exists_inLine {t : Text} {n : Nat} (h : n < byteSize t) : ∃ k, InLine t k n := by
  induction hlen : t.length using Nat.strongRecOn generalizing t n with
  | ind len ih =>
    by_cases hm : '\n' ∈ t
    · obtain ⟨a, b, rfl, ha⟩ := List.eq_append_cons_of_mem hm
      rw [byteSize_line] at h
      by_cases hn : n < byteSize a + 1
      · obtain ⟨e, he, hfirst⟩ := exists_aroundLine ha b
        refine ⟨1, _, _, _, _, hfirst, Nat.zero_le n, ?_⟩
        rw [he, byteSize_line, byteSize_nil]
        omega
      · obtain ⟨m, rfl⟩ := Nat.exists_eq_add_of_le (Nat.le_of_not_lt hn)
        have hshorter : b.length < len := by
          rw [← hlen, List.length_append, List.length_cons]
          omega
        obtain ⟨k, before, line, ending, after, hrest, hle, hlt⟩ :=
          ih b.length hshorter (t := b) (n := m) (by omega) rfl
        refine ⟨k + 1, _, _, _, _, hrest.behind ha, ?_, ?_⟩ <;> rw [byteSize_line] <;> omega
    · have hne : t ≠ [] := by
        rintro rfl
        exact Nat.not_lt_zero n h
      refine ⟨1, _, _, _, _, aroundLine_open hm hne, Nat.zero_le n, ?_⟩
      rwa [List.append_nil, byteSize_nil, Nat.zero_add]

/-- A byte stands in the line of its position, and in no other. -/
theorem inLine_iff {t : Text} {k n : Nat} :
    InLine t k n ↔ n < byteSize t ∧ (Position.ofOffset t n).line = k := by
  refine ⟨fun h => ⟨?_, h.line_eq⟩, fun ⟨hn, hk⟩ => ?_⟩
  · obtain ⟨before, line, ending, after, haround, -, hlt⟩ := h
    rw [haround.text, byteSize_append, byteSize_append]
    omega
  · obtain ⟨j, hj⟩ := exists_inLine hn
    rw [← hk, hj.line_eq]
    exact hj

end Text

namespace Position

/-- Positions are exact. For each offset of a text the search comes out, and in the position
the line counts the newlines before the offset, the column the bytes behind the last of them,
and the start of the line with the column is the offset. A later offset has a later position,
and the line is that of the lines of the text in which the byte stands. -/
theorem ofOffset_exact (t : Text) :
    (∀ n ≤ byteSize t, Checked.position (Checked.lineStarts t) n = some (ofOffset t n) ∧
      (ofOffset t n).line = 1 + (t.bytes.take n).count '\n'.toUInt8 ∧
      (ofOffset t n).column = (openBytes (t.bytes.take n)).length ∧
      (ofOffset t n).offset t = n) ∧
    (∀ m n, m < n → (ofOffset t m).line < (ofOffset t n).line ∨
      (ofOffset t m).line = (ofOffset t n).line ∧ (ofOffset t m).column < (ofOffset t n).column) ∧
    ∀ k n, InLine t k n ↔ n < byteSize t ∧ (ofOffset t n).line = k :=
  ⟨fun n hn => ⟨position_eq_ofOffset t n, line_ofOffset t n, column_ofOffset hn,
    offset_ofOffset t n⟩, fun _ _ => ofOffset_lt t, fun _ _ => inLine_iff⟩

/-- Within a character, and on both sides of a newline. -/
theorem ofOffset_exact_within :
    1 ≤ byteSize ['ä', '\r', '\n', 'b'] ∧
      Checked.position (Checked.lineStarts ['ä', '\r', '\n', 'b']) 1 = some ⟨1, 1⟩ ∧
      (openBytes ((bytes ['ä', '\r', '\n', 'b']).take 1)).length = 1 ∧
      offset ['ä', '\r', '\n', 'b'] ⟨1, 1⟩ = 1 ∧ 3 < 4 ∧
      (ofOffset ['ä', '\r', '\n', 'b'] 3).line < (ofOffset ['ä', '\r', '\n', 'b'] 4).line ∧
      InLine ['ä', '\r', '\n', 'b'] 1 3 ∧ InLine ['ä', '\r', '\n', 'b'] 2 4 := by
  obtain ⟨hexact, hlater, hlines⟩ := ofOffset_exact ['ä', '\r', '\n', 'b']
  have hone : ofOffset ['ä', '\r', '\n', 'b'] 1 = ⟨1, 1⟩ := by decide
  obtain ⟨hsearch, -, hcolumn, hback⟩ := hexact 1 (by decide)
  rw [hone] at hsearch hcolumn hback
  have hnext := (hlater 3 4 (by decide)).resolve_right (by decide)
  exact ⟨by decide, hsearch, hcolumn.symm, hback, by decide, hnext, (hlines 1 3).2 (by decide),
    (hlines 2 4).2 (by decide)⟩

end Position

end Offside
