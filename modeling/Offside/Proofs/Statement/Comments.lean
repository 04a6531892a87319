import Offside.Proofs.Layout.Insert
import Offside.Proofs.Layout.Within
import Offside.Proofs.Statement.Concat

/-!
# Comments put in

A comment on a line of its own changes nothing of what a program means, wherever between
two lines it stands and however far it is indented: within a block or where some end,
within brackets, before a clause. The machine does not measure it, and is the same behind
it as before.

Results:
* `read_comment`: a comment leaves the machine as it was;
* `tokenize_insert_comment`: all other tokens stay, those behind it one line lower;
* `outline_insert_comment`: so do the statements.
-/
namespace Offside

open Lexeme Text Layout

/-! ## The row of a comment -/

/-- The row of a line of nothing but a comment. -/
def Row.comment (w c : Text) (hw : ∀ x ∈ w, isSpace x = true)
    (hc : ∀ x ∈ c, isCommentChar x = true) : Row where
  core := Exit.gap w ++ [⟨.comment, '#' :: c⟩]
  trail := []
  exit := .newline
  inner := by
    unfold Exit.gap
    split <;> simp [Kind.isInner]
  spaces := nofun
  fits := by simp [Exit.Fits]
  cut := by
    refine cut_append.2 ⟨Exit.cut_gap hw (by simp [isSpace]) (by simp), ⟨c, rfl, hc⟩, ?_, trivial⟩
    simp [Clear, Exit.glyph, Exit.stop, isCommentChar]

section comment

variable {r : Ruler} {m : Layout} {w c : Text} (hw : ∀ x ∈ w, isSpace x = true)
  (hc : ∀ x ∈ c, isCommentChar x = true)

theorem Row.comment_text : (Row.comment w c hw hc).text = w ++ '#' :: c ++ ['\n'] := by
  simp [Row.text, Row.comment, Exit.glyph, Exit.stop]

theorem Row.comment_length : (Row.comment w c hw hc).lines.length = 1 := by
  have hnone : '\n' ∉ w ++ '#' :: c := by
    simp only [List.mem_append, List.mem_cons, not_or]
    exact ⟨Row.newline_not_mem_spaces hw, by decide, fun h => by simpa [isCommentChar] using hc _ h⟩
  rw [Row.lines, Row.comment_text, lines_line hnone]
  rfl

theorem endLine_break (hh : m.lineHeld = false) (hb : m.codeSeen = true → m.brackets ≠ [])
    (q : Piece) : endLine { m with lineHeld := true } q = .emit m [lineEnd q .lineBreak] := by
  have hopen : ¬ (m.brackets.isEmpty && m.codeSeen) = true := by
    rw [Bool.and_eq_true, List.isEmpty_iff]
    exact fun h => hb h.2 h.1
  rw [endLine, if_pos rfl, if_neg hopen, ← hh]

/-- A comment on a line of its own leaves the machine as it was, unless it ends a logical
line that a line before has begun. -/
theorem read_comment (hu : m.unplaced = m) (hh : m.lineHeld = false) (hj : m.joined? = none)
    (hb : m.codeSeen = true → m.brackets ≠ []) : ∃ t u, t.kind = .comment ∧ u.kind = .lineBreak ∧
      (Row.comment w c hw hc).read r m = some ([t, u], m) := by
  let p : Piece := ⟨.comment, Place.advance ⟨0, []⟩ w, '#' :: c, '#'⟩
  let q : Piece := Exit.newline.piece [] (Row.comment w c hw hc).turn
  have hheld : { m with lineHeld := true, joined? := none }.unplaced = { m with lineHeld := true } := by
    rw [← hj]
    exact congrArg (fun s : Layout => { s with lineHeld := true }) hu
  have hcore : reads r m (Row.comment w c hw hc).pieces =
      some ([p.token .comment], { m with lineHeld := true }) := by
    rw [← hheld]
    exact reads_gap.trans (reads_singleton.2 ⟨rfl, rfl, rfl⟩)
  have hend : step r { m with lineHeld := true } q = .emit m [lineEnd q .lineBreak] := by
    have hexit := @step_exit r { m with lineHeld := true } (Row.comment w c hw hc)
    rw [if_neg Exit.noConfusion, endLine_break hh hb] at hexit
    exact hexit
  refine ⟨p.token .comment, lineEnd q .lineBreak, rfl, rfl, read_eq_some.2 ⟨_, _, hcore, ?_⟩⟩
  change (step r _ q).fault? = none ∧ _ = _ ++ (step r _ q).emitted ∧ m = (step r _ q).next.unplaced
  rw [hend]
  exact ⟨rfl, rfl, hu.symm⟩

end comment

/-! ## One line more -/

/-- The line numbers, where one more line stands before line `n`. -/
def lowered (n k : Nat) : Nat := if n ≤ k then k + 1 else k

theorem monotone_lowered (n : Nat) : Monotone (lowered n) := by
  intro j k hle
  unfold lowered
  split <;> split <;> omega

theorem recount_lowered {n : Nat} {ts us : List Token}
    (hts : ∀ t ∈ ts, t.start.line < n ∧ t.stop.line < n)
    (hus : ∀ t ∈ us, n ≤ t.start.line ∧ n ≤ t.stop.line) :
    (ts ++ us).map (Token.recount (lowered n)) = ts ++ us.map (Token.down 1) := by
  have hstay : ∀ t ∈ ts, t.recount (lowered n) = t := fun t ht => by
    obtain ⟨h1, h2⟩ := hts t ht
    simp [Token.recount, Position.recount, lowered, Nat.not_le.2 h1, Nat.not_le.2 h2]
  have hmove : ∀ t ∈ us, t.recount (lowered n) = t.down 1 := fun t ht => by
    obtain ⟨h1, h2⟩ := hus t ht
    simp [Token.recount, Position.recount, lowered, h1, h2, Token.down, Position.down]
  rw [List.map_append, List.map_congr_left hstay, List.map_congr_left hmove, List.map_id']

theorem closing_down (s : Layout) (p : Position) (k : Nat) :
    closing s (p.down k) = (closing s p).map (Token.down k) := by
  simp [closing, Token.mark, Token.down]

/-- A comment on a line of its own is two tokens more, and those behind it stand one line
lower. -/
theorem tokenize_insert_comment {s w c : Text} {p : Nat} {ts : List Token}
    (hp : p = 0 ∨ p ∈ newlineEnds s) (hw : ∀ x ∈ w, isSpace x = true)
    (hc : ∀ x ∈ c, isCommentChar x = true) (hts : tokenize s = .ok ts) :
    ∃ n before after t u, Place.ofOffset s p = ⟨n, []⟩ ∧ ts = before ++ after ∧
      (∀ x ∈ before, x.start.line < n ∧ x.stop.line < n) ∧
      (∀ x ∈ after, n ≤ x.start.line ∧ n ≤ x.stop.line) ∧
      t.kind = .comment ∧ u.kind = .lineBreak ∧
      tokenize (takeBytes p s ++ (w ++ '#' :: c ++ ['\n']) ++ dropBytes p s) =
        .ok (before ++ t :: u :: after.map (Token.down 1)) := by
  obtain ⟨es, last, h, rfl⟩ := exists_log hts
  obtain ⟨ds, fs, rfl, hx, htake, hdrop, hplace⟩ := h.split hp
  obtain ⟨m, hds, hfs⟩ := h.reads.split
  obtain ⟨hplaces, hheld, hjoined⟩ := hds.settled hx
  have hwithin : m.codeSeen = true → m.brackets ≠ [] := fun hseen =>
    (hds.goesOn nofun hseen).resolve_right (by simp [hheld, hjoined])
  obtain ⟨t, u, ht, hu, hread⟩ := read_comment hw hc hplaces hheld hjoined hwithin
  have htext := Row.comment_text hw hc
  have hne : (Row.comment w c hw hc).text ≠ [] := by simp [htext]
  have hlog := h.insert_row hds hfs hx hne Exit.noConfusion hread
  rw [htext, ← htake, ← hdrop] at hlog
  have hrows := h.text_ne_nil
  rw [List.map_append] at hrows
  obtain ⟨habove, -⟩ := lay_between hds (fun row hr => hrows row (by simp [hr])) 1
  obtain ⟨hbelow, -⟩ := lay_between hfs (fun row hr => hrows row (by simp [hr])) (1 + height ds)
  have hheight : height (ds ++ fs) = height ds + height fs := by simp [height]
  refine ⟨1 + height ds, lay 1 ds, lay (1 + height ds) fs ++ closing last (Place.start.advance s).pastEnd,
    t.down (1 + height ds), u.down (1 + height ds), hplace, ?_, fun x hx => ?_, fun x hx => ?_,
    ht, hu, ?_⟩
  · rw [lay_append, List.append_assoc]
  · obtain ⟨h1, h2, h3⟩ := habove x hx
    exact ⟨by omega, h3⟩
  · rcases List.mem_append.1 hx with hx | hx
    · obtain ⟨h1, h2, -⟩ := hbelow x hx
      exact ⟨h1, by omega⟩
    · rw [h.pastEnd_eq, hheight] at hx
      rcases mem_closing hx with rfl | rfl <;> simp [Token.mark]
  · have hlower : (Place.start.advance (takeBytes p s ++ (w ++ '#' :: c ++ ['\n']) ++
        dropBytes p s)).pastEnd = (Place.start.advance s).pastEnd.down 1 := by
      rw [hlog.pastEnd_eq, h.pastEnd_eq, hheight]
      simp [height, Row.comment_length, Position.down]
      omega
    rw [hlog.tokenize, hlower, closing_down, lay_append, lay, Row.comment_length, lay_down,
      List.map_append]
    simp

/-- The significant tokens stay, and so do the statements; what stands behind the comment
stands one line lower. -/
theorem outline_insert_comment {s w c : Text} {p : Nat} {ts : List Token} {nodes : List Node}
    (hp : p = 0 ∨ p ∈ newlineEnds s) (hw : ∀ x ∈ w, x = ' ' ∨ x = '\t' ∨ x = '\x0c')
    (hc : ∀ x ∈ c, x ≠ '\r' ∧ x ≠ '\n') (hts : tokenize s = .ok ts)
    (hnodes : outline ts = .ok nodes) :
    ∃ us n, (Place.ofOffset s p).position = ⟨n, 0⟩ ∧
      (∀ x, (Place.ofOffset s p).position.Before x ↔ n ≤ x.line) ∧
      tokenize (takeBytes p s ++ (w ++ '#' :: c ++ ['\n']) ++ dropBytes p s) = .ok us ∧
      Token.significant us = (Token.significant ts).map (Token.recount (lowered n)) ∧
      outline us = .ok (nodes.map (Node.recount (lowered n))) := by
  have hspaces : ∀ x ∈ w, isSpace x = true := fun x hx => by
    rcases hw x hx with rfl | rfl | rfl <;> rfl
  have hcomment : ∀ x ∈ c, isCommentChar x = true := fun x hx => by
    simpa [isCommentChar] using hc x hx
  obtain ⟨n, before, after, t, u, hplace, rfl, hbefore, hafter, ht, hu, hus⟩ :=
    tokenize_insert_comment hp hspaces hcomment hts
  have hsignificant : Token.significant (before ++ t :: u :: after.map (Token.down 1)) =
      (Token.significant (before ++ after)).map (Token.recount (lowered n)) := by
    rw [← significant_recount, recount_lowered hbefore hafter]
    simp [Token.significant, ht, hu, Token.Kind.isSignificant]
  have hposition : (Place.ofOffset s p).position = ⟨n, 0⟩ := by rw [hplace]; rfl
  refine ⟨_, n, hposition, fun x => ?_, hus, hsignificant,
    outline_recount (monotone_lowered n) ?_ hnodes⟩
  · rw [hposition]
    show n < x.line ∨ n = x.line ∧ 0 ≤ x.column ↔ n ≤ x.line
    omega
  rw [hsignificant, List.forall₂_map_right_iff]
  exact List.forall₂_same.2 fun _ _ => Or.inl rfl

/-- A comment between a suite and the clause behind it, deeper than either. -/
theorem outline_insert_comment_clause : ∃ ts us nodes,
    tokenize "if a:\n  b\nelse:\n  (c,\nd)\n".toList = .ok ts ∧ outline ts = .ok nodes ∧
      nodes = [⟨⟨1, 0⟩, 5, [⟨⟨2, 2⟩, 2, []⟩, ⟨⟨4, 2⟩, 5, []⟩]⟩] ∧
      10 ∈ newlineEnds "if a:\n  b\nelse:\n  (c,\nd)\n".toList ∧
      tokenize "if a:\n  b\n\t # x\nelse:\n  (c,\nd)\n".toList = .ok us ∧
      outline us = .ok [⟨⟨1, 0⟩, 6, [⟨⟨2, 2⟩, 2, []⟩, ⟨⟨5, 2⟩, 6, []⟩]⟩] := by
  have hp : 10 ∈ newlineEnds "if a:\n  b\nelse:\n  (c,\nd)\n".toList := by
    simp only [newlineEnds, scan_eq_scanIn]
    decide +kernel
  have h : (tokenize "if a:\n  b\nelse:\n  (c,\nd)\n".toList).map outline =
      .ok (.ok [⟨⟨1, 0⟩, 5, [⟨⟨2, 2⟩, 2, []⟩, ⟨⟨4, 2⟩, 5, []⟩]⟩]) := by
    simp only [tokenize, tokenizeWith, scan_eq_scanIn]
    rfl
  cases hts : tokenize "if a:\n  b\nelse:\n  (c,\nd)\n".toList with
  | error e => rw [hts] at h; cases h
  | ok ts =>
    rw [hts] at h
    have hnodes := Except.ok.inj h
    obtain ⟨us, n, hn, -, hus, -, houtline⟩ := outline_insert_comment (w := ['\t', ' '])
      (c := [' ', 'x']) (Or.inr hp) (by simp) (by simp) hts hnodes
    obtain rfl : 3 = n := congrArg Position.line hn
    refine ⟨ts, us, _, rfl, hnodes, rfl, hp, hus, ?_⟩
    simpa [Node.recount, Position.recount, lowered] using houtline

end Offside
