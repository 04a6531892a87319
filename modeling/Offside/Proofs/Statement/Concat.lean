import Offside.Proofs.Layout.Cleaned
import Offside.Proofs.Layout.Raise
import Offside.Proofs.Lexeme.Evaluate
import Offside.Proofs.Statement.Recount

/-!
# Programs one behind the other

Nothing joins two programs where one begins behind the other, if the first ends with
a newline or is empty. What closes the levels of the first closes them before the
first code of the second, and all else stands as many lines lower as the first has.

Results:
* `Logged.tokenize_append`: the significant tokens of both;
* `outline_concat`: the statements of both.
-/
namespace Offside

open Lexeme Text Layout

theorem significant_closing (s : Layout) (p : Position) :
    Token.significant (closing s p) = s.levels.map fun _ => .mark .dedent p := by
  rw [closing, significant_append, significant_dedents]
  exact List.append_nil _

namespace Logged

variable {a b : Text} {es fs : List Entry} {last last' : Layout}

theorem reads_spelled (h : Logged a es last) (n : Nat) :
    Layout.reads .standard .start (Piece.placed ⟨n, []⟩ ((es.map (·.row)).flatMap Row.spelled)) =
      some (lay n es, last) :=
  (reads_rows h.sheet rfl).2 ⟨es, rfl, h.reads, rfl⟩

theorem last_eq (h : Logged a es last) : last = { Layout.start with levels := last.levels } := by
  obtain ⟨⟨-, hheld⟩, -⟩ := h.reads.sound sound_start rfl
  have hseen : last.codeSeen = false := by
    by_contra hc
    rcases h.reads.goesOn nofun (by simpa using hc) with hb | hl | hj
    · exact hb h.rest.brackets
    · rw [hheld] at hl
      cases hl
    · exact hj h.rest.joined
  obtain ⟨levels, brackets, lineHeld, codeSeen, joined?⟩ := last
  obtain ⟨hb, hj⟩ := h.rest
  dsimp only at hheld hseen hb hj
  subst hheld hseen hb hj
  rfl

theorem grounded (h : Logged a es last) : ∀ d ∈ last.levels, 0 < d.column :=
  grounded_start.reads (h.reads_spelled 1)

theorem ended_rows (h : Logged a es last) (ha : Ended a) :
    ∀ row ∈ es.map (·.row), row.exit ≠ .last := by
  rcases sheet_cases h.sheet with ⟨hx, -, -⟩ | ⟨-, hne, hopen⟩
  · exact hx
  · rw [h.source] at hne hopen
    rw [List.getLast?_eq_some_getLast hne] at hopen
    exact absurd (congrArg some (ha _ (List.getLast?_eq_some_getLast hne))) hopen

/-- The significant tokens of two texts one behind the other: what closes the levels
of the first stands before what the second has. -/
theorem tokenize_append (h : Logged a es last) (h' : Logged b fs last') (ha : Ended a)
    (hn : ∀ t ∈ (Token.significant (lay (1 + height es) fs)).head?, t.kind ≠ .indent) :
    ∃ vs p q, Offside.tokenize (a ++ b) = .ok vs ∧
      Token.significant vs = (Token.significant (lay 1 es) ++
        last.levels.map fun _ => .mark .dedent p) ++
          (Token.significant (lay (1 + height es) fs) ++
            last'.levels.map fun _ => .mark .dedent q) := by
  have hended := h.ended_rows ha
  have hsheet := h.sheet.append hended h'.sheet
  have htext : sheetText (es.map (·.row) ++ fs.map (·.row)) = a ++ b := by
    rw [sheetText, List.flatMap_append]
    exact congrArg₂ (· ++ ·) h.source h'.source
  -- the second text is read from the state behind the first, where only levels are open
  have hplace : Place.advance ⟨1, []⟩ (textOf ((es.map (·.row)).flatMap Row.spelled)) =
      ⟨1 + height es, []⟩ := by
    have hspelled : textOf ((es.map (·.row)).flatMap Row.spelled) = a := by
      rw [← h.source]
      generalize es.map (·.row) = rows
      induction rows with
      | nil => rfl
      | cons row rows ih =>
        rw [List.flatMap_cons, Lexeme.textOf_append, row.textOf_spelled, ih]
        rfl
    rw [hspelled, advance_of_ended ha, h.height_eq]
  have hbehind : ∀ us m, Layout.reads .standard last (Piece.placed ⟨1 + height es, []⟩
      ((fs.map (·.row)).flatMap Row.spelled)) = some (us, m) → AtRest m →
      ∃ vs, Offside.tokenize (a ++ b) = .ok vs ∧ Token.significant vs = Token.significant (lay 1 es) ++
        (Token.significant us ++
          m.levels.map fun _ => .mark .dedent (Place.start.advance (a ++ b)).pastEnd) := by
    intro us m hr hm
    obtain ⟨gs, hrows, hreads, hlay⟩ := (reads_rows hsheet rfl).1 (by
      rw [List.flatMap_append, Piece.placed_append, hplace]
      exact reads_append.2 ⟨_, last, us, h.reads_spelled 1, hr, rfl⟩)
    have htok := (tokenize_sheet hsheet).2 ⟨gs, m, hrows, hreads, hm, rfl⟩
    rw [htext] at htok
    refine ⟨_, htok, ?_⟩
    rw [← hlay, significant_append, significant_append, significant_closing, List.append_assoc]
  rcases reads_above last.levels h.grounded rfl rfl (h'.reads_spelled (1 + height es)) hn with
    ⟨hnone, hlevels, hr⟩ | ⟨us, p, hr, hus⟩ <;> rw [← h.last_eq] at hr
  · obtain ⟨vs, hvs, hsig⟩ := hbehind _ _ hr ⟨h'.rest.brackets, h'.rest.joined⟩
    refine ⟨vs, (Place.start.advance (a ++ b)).pastEnd, ⟨0, 0⟩, hvs, hsig.trans ?_⟩
    rw [hnone, hlevels, List.nil_append, List.map_nil, List.append_nil, List.append_nil]
  · obtain ⟨vs, hvs, hsig⟩ := hbehind _ _ hr h'.rest
    rw [hus, List.append_assoc, ← List.append_assoc] at hsig
    exact ⟨vs, p, _, hvs, hsig⟩

end Logged

/-! ## Statements -/

theorem Node.recount_id (n : Node) : n.recount id = n := by
  obtain ⟨start, endLine, body⟩ := n
  have hbody : body.map (Node.recount id) = body :=
    (List.map_congr_left fun m _ => m.recount_id).trans (List.map_id body)
  rw [Node.recount, hbody]
  rfl

theorem significant_recount (f : Nat → Nat) (ts : List Token) :
    Token.significant (ts.map (Token.recount f)) = (Token.significant ts).map (Token.recount f) :=
  List.filter_map

theorem outline_moved {f : Nat → Nat} (hf : Monotone f) {ts : List Token} {last : Layout}
    {p : Position} {nodes : List Node} (h : outline (ts ++ closing last p) = .ok nodes)
    (q : Position) : outline (ts.map (Token.recount f) ++ last.levels.map fun _ => .mark .dedent q) =
      .ok (nodes.map (Node.recount f)) := by
  refine outline_recount hf ?_ h
  rw [significant_append, significant_closing, significant_append, significant_dedents,
    significant_recount]
  refine List.rel_append ?_ ?_
  · rw [List.forall₂_map_right_iff]
    exact List.forall₂_same.2 fun t _ => Or.inl rfl
  · rw [List.forall₂_map_left_iff, List.forall₂_map_right_iff]
    exact List.forall₂_same.2 fun _ _ => Or.inr ⟨rfl, rfl⟩

theorem not_indent_of_outline {ts : List Token} {nodes : List Node} (h : outline ts = .ok nodes) :
    ∀ t ∈ (Token.significant ts).head?, t.kind ≠ .indent := by
  obtain ⟨n, hr, -⟩ := outline_eq_ok.1 h
  intro t ht hk
  obtain ⟨rest, hrest⟩ := List.head?_eq_some_iff.1 ht
  rw [hrest] at hr
  obtain ⟨m, hs, -⟩ := Outliner.run_cons.1 hr
  simp [Outliner.step, Outliner.start, Outliner.openSuite, Level.empty, hk] at hs

/-- The statements of a program behind another are those of the other and its own,
as many lines lower as the other has. -/
theorem outline_concat {a b : Text} {ts us : List Token} {ns ms : List Node} (ha : Ended a)
    (hts : tokenize a = .ok ts) (hns : outline ts = .ok ns)
    (hus : tokenize b = .ok us) (hms : outline us = .ok ms) :
    ∃ vs, tokenize (a ++ b) = .ok vs ∧
      outline vs = .ok (ns ++ ms.map (Node.recount (· + a.count '\n'))) := by
  obtain ⟨es, last, h, rfl⟩ := exists_log hts
  obtain ⟨fs, last', h', rfl⟩ := exists_log hus
  have hlower : lay (1 + height es) fs = (lay 1 fs).map (Token.recount (· + a.count '\n')) := by
    rw [lay_down, h.height_eq, length_lines_of_ended ha]
    rfl
  have hfirst : ∀ t ∈ (Token.significant (lay (1 + height es) fs)).head?, t.kind ≠ .indent := by
    intro t ht
    rw [hlower, significant_recount, List.head?_map] at ht
    obtain ⟨u, hu, rfl⟩ := Option.map_eq_some_iff.1 ht
    refine not_indent_of_outline hms u ?_
    rw [significant_append, List.head?_append, hu]
    rfl
  obtain ⟨vs, p, q, hvs, hsig⟩ := h.tokenize_append h' ha hfirst
  have hleft := outline_moved monotone_id hns p
  have hright := outline_moved (f := (· + a.count '\n'))
    (fun _ _ hle => Nat.add_le_add_right hle _) hms q
  have hself : (lay 1 es).map (Token.recount id) = lay 1 es := List.map_id _
  have hnodes : ns.map (Node.recount id) = ns :=
    (List.map_congr_left fun n _ => n.recount_id).trans (List.map_id ns)
  rw [hself, hnodes] at hleft
  rw [← hlower] at hright
  refine ⟨vs, hvs, outline_append ?_ hleft hright⟩
  rw [hsig, significant_append, significant_append, significant_dedents, significant_dedents]

/-- A level that the first program leaves open, and a comment before the second. -/
theorem outline_concat_blocks : ∃ ts us vs ns ms,
    tokenize "if a:\n  b\n".toList = .ok ts ∧ outline ts = .ok ns ∧
      tokenize "# c\nwhile d:\n\te".toList = .ok us ∧ outline us = .ok ms ∧
      ns = [⟨⟨1, 0⟩, 2, [⟨⟨2, 2⟩, 2, []⟩]⟩] ∧ ms = [⟨⟨2, 0⟩, 3, [⟨⟨3, 1⟩, 3, []⟩]⟩] ∧
      tokenize ("if a:\n  b\n".toList ++ "# c\nwhile d:\n\te".toList) = .ok vs ∧
      outline vs = .ok (ns ++ ms.map (Node.recount (· + 2))) := by
  have hts : tokenize "if a:\n  b\n".toList = .ok [⟨.code, ⟨1, 0⟩, ⟨1, 2⟩, "if".toList⟩,
      ⟨.code, ⟨1, 3⟩, ⟨1, 4⟩, ['a']⟩, ⟨.code, ⟨1, 4⟩, ⟨1, 5⟩, [':']⟩,
      ⟨.newline, ⟨1, 5⟩, ⟨1, 6⟩, ['\n']⟩, ⟨.indent, ⟨2, 0⟩, ⟨2, 2⟩, [' ', ' ']⟩,
      ⟨.code, ⟨2, 2⟩, ⟨2, 3⟩, ['b']⟩, ⟨.newline, ⟨2, 3⟩, ⟨2, 4⟩, ['\n']⟩,
      ⟨.dedent, ⟨3, 0⟩, ⟨3, 0⟩, []⟩, ⟨.endMarker, ⟨3, 0⟩, ⟨3, 0⟩, []⟩] := by
    simp only [tokenize, tokenizeWith, scan_eq_scanIn]
    decide +kernel
  have hus : tokenize "# c\nwhile d:\n\te".toList = .ok [⟨.comment, ⟨1, 0⟩, ⟨1, 3⟩, "# c".toList⟩,
      ⟨.lineBreak, ⟨1, 3⟩, ⟨1, 4⟩, ['\n']⟩, ⟨.code, ⟨2, 0⟩, ⟨2, 5⟩, "while".toList⟩,
      ⟨.code, ⟨2, 6⟩, ⟨2, 7⟩, ['d']⟩, ⟨.code, ⟨2, 7⟩, ⟨2, 8⟩, [':']⟩,
      ⟨.newline, ⟨2, 8⟩, ⟨2, 9⟩, ['\n']⟩, ⟨.indent, ⟨3, 0⟩, ⟨3, 1⟩, ['\t']⟩,
      ⟨.code, ⟨3, 1⟩, ⟨3, 2⟩, ['e']⟩, ⟨.newline, ⟨3, 2⟩, ⟨3, 2⟩, []⟩,
      ⟨.dedent, ⟨4, 0⟩, ⟨4, 0⟩, []⟩, ⟨.endMarker, ⟨4, 0⟩, ⟨4, 0⟩, []⟩] := by
    simp only [tokenize, tokenizeWith, scan_eq_scanIn]
    decide +kernel
  have ha : Ended "if a:\n  b\n".toList := fun c hc => (Option.some.inj hc).symm
  obtain ⟨vs, hvs, ho⟩ := outline_concat ha hts rfl hus rfl
  exact ⟨_, _, vs, _, _, hts, rfl, hus, rfl, rfl, rfl, hvs, ho⟩

end Offside
