import Offside.Proofs.Layout.Moves
import Offside.Proofs.Layout.Recast
import Offside.Proofs.Statement.Head

/-!
# Reading a row

The machine reads a row from the state that the row before it left. The tokens
are placed as if the row began on line zero; `Token.down` puts them where they
belong. A last row that no newline ends is read as if one of no characters did.

Results:
* `read_recast`: a row written anew gives the tokens of lines that are ended
  otherwise, and leaves the same state;
* `read_blank`: a blank row gives one blank line and changes nothing;
* `read_solid`: any other row gives none;
* `read_heads`: a row holds at most one head, on its first line and right behind
  comments on that line and the closing of levels.
-/
namespace Offside

open Lexeme Text Layout

namespace Exit

/-- The newline that ends an open last row. -/
def phantom : Exit → List Lexeme
  | .last => [⟨.newline, []⟩]
  | .newline | .joined => []

/-- The end of a row as a piece, where the core of the row ends at `p` and `w`
is the white space at its end. -/
def piece (w : Text) (p : Place) : Exit → Piece
  | .newline =>
    if w = ['\r'] then ⟨.newline, p, ['\r', '\n'], '\r'⟩ else ⟨.newline, p.advance w, ['\n'], '\n'⟩
  | .joined => ⟨.continuation, p, '\\' :: (w ++ ['\n']), '\\'⟩
  | .last => ⟨.newline, p.advance w, [], '\x00'⟩

end Exit

/-- What the machine makes of a row, and the state it leaves. -/
def Row.read (r : Ruler) (s : Layout) (row : Row) : Option (List Token × Layout) :=
  reads r s (Piece.placed ⟨0, []⟩ (row.lexemes ++ row.exit.phantom))

section read

variable {r : Ruler} {s last : Layout} {ts : List Token}

theorem reads_gap {w : Text} {p : Place} {ls : List Lexeme} :
    reads r s (Piece.placed p (Exit.gap w ++ ls)) = reads r s (Piece.placed (p.advance w) ls) := by
  unfold Exit.gap
  split
  · next hw => subst hw; rfl
  · exact reads_space

theorem reads_exit {x : Exit} {w : Text} {p : Place} :
    reads r s (Piece.placed p (x.lexemes w ++ x.phantom)) = reads r s [x.piece w p] := by
  cases x with
  | newline =>
    by_cases hw : w = ['\r']
    · simp [Exit.lexemes, Exit.phantom, Exit.piece, hw, Piece.placed, Piece.leadOf]
    · simp only [Exit.lexemes, Exit.phantom, Exit.piece, hw, if_false, List.append_nil]
      exact reads_gap
  | joined => simp [Exit.lexemes, Exit.phantom, Exit.piece, Piece.placed, Piece.leadOf]
  | last => exact reads_gap

theorem reads_singleton {p : Piece} :
    reads r s [p] = some (ts, last) ↔
      (step r s p).fault? = none ∧ ts = (step r s p).emitted ∧ last = (step r s p).next.unplaced := by
  rw [reads_cons]
  constructor
  · intro hex
    obtain ⟨hf, us, hr, rfl⟩ := hex
    obtain ⟨rfl, rfl⟩ := reads_nil.1 hr
    exact ⟨hf, by simp, rfl⟩
  · intro hex
    obtain ⟨hf, rfl, rfl⟩ := hex
    exact ⟨hf, [], reads_nil.2 ⟨rfl, rfl⟩, by simp⟩

/-- The core of a row as pieces. -/
def Row.pieces (row : Row) : List Piece := Piece.placed ⟨0, []⟩ row.core

/-- Where the core of a row ends. -/
def Row.turn (row : Row) : Place := Place.advance ⟨0, []⟩ (textOf row.core)

theorem read_eq_some {row : Row} :
    row.read r s = some (ts, last) ↔ ∃ us m,
      reads r s row.pieces = some (us, m) ∧
        (step r m (row.exit.piece row.trail row.turn)).fault? = none ∧
        ts = us ++ (step r m (row.exit.piece row.trail row.turn)).emitted ∧
        last = (step r m (row.exit.piece row.trail row.turn)).next.unplaced := by
  rw [Row.read, Row.lexemes, List.append_assoc, Piece.placed_append, reads_append]
  constructor
  · intro hex
    obtain ⟨us, m, vs, hp, hq, rfl⟩ := hex
    rw [reads_exit] at hq
    obtain ⟨hf, rfl, hl⟩ := reads_singleton.1 hq
    exact ⟨us, m, hp, hf, rfl, hl⟩
  · intro hex
    obtain ⟨us, m, hp, hf, rfl, hl⟩ := hex
    refine ⟨us, m, _, hp, ?_, rfl⟩
    rw [reads_exit]
    exact reads_singleton.2 ⟨hf, rfl, hl⟩

theorem placed_inner {ls : List Lexeme} (h : ∀ l ∈ ls, l.kind.isInner = true) (p : Place) :
    ∀ q ∈ Piece.placed p ls, q.kind.isInner = true := by
  induction ls generalizing p with
  | nil => simp [Piece.placed]
  | cons l ls ih =>
    intro q hq
    rcases List.mem_cons.1 hq with rfl | hq
    · exact h l (by simp)
    · exact ih (fun k hk => h k (by simp [hk])) _ q hq

theorem Row.pieces_inner (row : Row) : ∀ p ∈ row.pieces, p.kind.isInner = true :=
  placed_inner row.inner _

/-! ## Rows written anew -/

theorem newline_not_mem_behind {p : Place} (h : '\n' ∉ p.behind) (t : Text) :
    '\n' ∉ (p.advance t).behind := by
  induction t generalizing p with
  | nil => exact h
  | cons c t ih =>
    refine ih ?_
    unfold Place.step
    split
    · simp
    · next hc => simp [h, Ne.symm hc]

theorem placed_reline {after : Text} {ls : List Lexeme} (e : LineEnding) (h : Cut after ls)
    (hi : ∀ l ∈ ls, l.kind.isInner = true) {p : Place} (hp : '\n' ∉ p.behind) :
    List.Forall₂ (Piece.Recast e) (Piece.placed p ls)
      (Piece.placed p (ls.map (Lexeme.reline e))) := by
  induction ls generalizing p with
  | nil => exact .nil
  | cons l ls ih =>
    have hplace : p.advance (l.reline e).text = p.advance l.text := advance_reline e p l.text
    rw [List.map_cons, Piece.placed, Piece.placed, hplace]
    refine .cons ⟨rfl, rfl, hplace.symm, rfl, ?_, hp⟩
      (ih h.2.2 (fun k hk => hi k (by simp [hk])) (newline_not_mem_behind hp _))
    obtain ⟨c, t, u, ht, hu, -⟩ := h.1.head_reline e (hi l (by simp))
    rw [Lexeme.reline_text, hu, ht]
    rfl

theorem advance_textOf_reline {after : Text} {ls : List Lexeme} (e : LineEnding) (h : Cut after ls)
    (hi : ∀ l ∈ ls, l.kind.isInner = true) (p : Place) :
    p.advance (textOf (ls.map (Lexeme.reline e))) = p.advance (textOf ls) := by
  rw [← reline_textOf e h hi, advance_reline]

theorem turn_recast (row : Row) (e : LineEnding) (closed : Bool) :
    (row.recast e closed).turn = row.turn := advance_textOf_reline e row.cut row.inner _

theorem line_advance_spaces {w : Text} (h : ∀ c ∈ w, isSpace c = true) (p : Place) :
    (p.advance w).line = p.line := by
  rw [advance_of_no_newline (Row.newline_not_mem_spaces h)]

theorem line_piece {x : Exit} {w : Text} (h : ∀ c ∈ w, isSpace c = true) (p : Place) :
    (x.piece w p).start.line = p.line := by
  cases x with
  | newline =>
    by_cases hw : w = ['\r']
    · rw [Exit.piece, if_pos hw]
    · rw [Exit.piece, if_neg hw]
      exact line_advance_spaces h p
  | joined => rfl
  | last => exact line_advance_spaces h p

theorem kind_piece {x : Exit} (w : Text) (p : Place) :
    (x.piece w p).kind = if x = .joined then .continuation else .newline := by
  cases x with
  | newline => by_cases hw : w = ['\r'] <;> simp [Exit.piece, hw]
  | joined | last => rfl

theorem step_exit_recast {e : LineEnding} {x y : Exit} {w v : Text} {p : Place}
    (hw : ∀ c ∈ w, isSpace c = true) (hv : ∀ c ∈ v, isSpace c = true)
    (hxy : x = .joined ↔ y = .joined) :
    (step r s (x.piece w p)).Recast e (step r s (y.piece v p)) := by
  have hline : (x.piece w p).start.line = (y.piece v p).start.line := by
    rw [line_piece hw, line_piece hv]
  have hk := kind_piece (x := x) w p
  have hk' := kind_piece (x := y) v p
  unfold step
  by_cases hx : x = .joined
  · rw [if_pos hx] at hk
    rw [if_pos (hxy.1 hx)] at hk'
    rw [hk, hk', hline]
    exact emit_recast .nil
  · rw [if_neg hx] at hk
    rw [if_neg (fun hy => hx (hxy.2 hy))] at hk'
    rw [hk, hk']
    exact endLine_recast hline

theorem recast_joined (x : Exit) (closed : Bool) : x = .joined ↔ x.recast closed = .joined := by
  cases x <;> cases closed <;> simp [Exit.recast]

/-- A row written anew gives the tokens of lines that are ended otherwise, and
leaves the same state. -/
theorem read_recast {row : Row} (e : LineEnding) (closed : Bool)
    (h : row.read r s = some (ts, last)) :
    ∃ us, (row.recast e closed).read r s = some (us, last) ∧
      List.Forall₂ (Token.Recast e) ts us := by
  obtain ⟨us, m, hp, hf, rfl, rfl⟩ := read_eq_some.1 h
  obtain ⟨vs, hq, hall⟩ :=
    reads_recast (placed_reline e row.cut row.inner (by simp)) row.pieces_inner hp
  have hstep := step_exit_recast (r := r) (s := m) (e := e) (p := row.turn) row.spaces
    (row.recast e closed).spaces (recast_joined row.exit closed)
  refine ⟨_, read_eq_some.2 ⟨vs, m, hq, ?_, rfl, ?_⟩, List.rel_append hall ?_⟩ <;>
    rw [turn_recast]
  · exact hstep.fault.symm.trans hf
  · exact congrArg unplaced hstep.next
  · exact hstep.emitted

/-! ## What a line can come to -/

theorem reads_kinds {ps : List Piece} (hi : ∀ p ∈ ps, p.kind.isInner = true)
    (h : reads r s ps = some (ts, last)) :
    ∀ t ∈ ts, t.kind = .comment ∨ t.kind = .code ∨
      s.codeSeen = false ∧ (t.kind = .indent ∨ t.kind = .dedent) := by
  induction ps generalizing s ts with
  | nil => obtain ⟨rfl, -⟩ := reads_nil.1 h; simp
  | cons p ps ih =>
    obtain ⟨hf, us, hr, rfl⟩ := reads_cons.1 h
    have hrest := ih (fun q hq => hi q (by simp [hq])) hr
    intro t ht
    rcases step_inner (hi p (by simp)) hf with ⟨-, he, hn⟩ | ⟨-, he, hn⟩ |
      ⟨-, margin, levels, brackets, he, hm, hc, hn⟩ <;> rw [he] at ht <;> rw [hn] at hrest
    · exact hrest t (by simpa using ht)
    · rcases List.mem_append.1 ht with ht | ht
      · rw [List.mem_singleton.1 ht]
        exact Or.inl rfl
      · exact hrest t ht
    · rcases List.mem_append.1 ht with ht | ht
      · rcases List.mem_append.1 ht with ht | ht
        · have hs : s.codeSeen = false := by
            cases hs : s.codeSeen with
            | false => rfl
            | true => rw [hc hs] at ht; cases ht
          refine Or.inr (Or.inr ⟨hs, ?_⟩)
          rcases hm with ⟨u, rfl, hu⟩ | hm
          · rw [List.mem_singleton.1 ht]; exact Or.inl hu
          · exact Or.inr (hm t ht)
        · rw [List.mem_singleton.1 ht]
          exact Or.inr (Or.inl rfl)
      · rcases hrest t ht with h | h | ⟨h, -⟩
        · exact Or.inl h
        · exact Or.inr (Or.inl h)
        · cases h

theorem reads_seen {ps : List Piece} (hi : ∀ p ∈ ps, p.kind.isInner = true)
    (hs : s.codeSeen = true) (h : reads r s ps = some (ts, last)) :
    last.codeSeen = true ∧ heads false ts = [] ∧ freeAfter false ts = false := by
  refine ⟨?_, heads_within fun t ht => ?_⟩
  · induction ps generalizing s ts with
    | nil => obtain ⟨-, rfl⟩ := reads_nil.1 h; exact hs
    | cons p ps ih =>
      obtain ⟨hf, us, hr, rfl⟩ := reads_cons.1 h
      refine ih (fun q hq => hi q (by simp [hq])) ?_ hr
      rcases step_inner (hi p (by simp)) hf with ⟨-, -, hn⟩ | ⟨-, -, hn⟩ | ⟨-, _, _, _, -, -, -, hn⟩ <;>
        rw [hn]
      · exact hs
      · exact hs
  · rcases reads_kinds hi h t ht with h | h | ⟨h, -⟩
    · exact Or.inl h
    · exact Or.inr h
    · rw [hs] at h; cases h

theorem reads_held {ps : List Piece} (hi : ∀ p ∈ ps, p.kind.isInner = true)
    (hh : s.lineHeld = true ∨ ∃ p ∈ ps, p.kind ≠ .space) (h : reads r s ps = some (ts, last)) :
    last.lineHeld = true := by
  induction ps generalizing s ts with
  | nil =>
    obtain ⟨-, rfl⟩ := reads_nil.1 h
    simpa using hh
  | cons p ps ih =>
    obtain ⟨hf, us, hr, rfl⟩ := reads_cons.1 h
    refine ih (fun q hq => hi q (by simp [hq])) ?_ hr
    rcases step_inner (hi p (by simp)) hf with ⟨hk, -, hn⟩ | ⟨-, -, hn⟩ | ⟨-, _, _, _, -, -, -, hn⟩ <;>
      rw [hn]
    · rcases hh with hh | ⟨q, hq, hqs⟩
      · exact Or.inl hh
      · rcases List.mem_cons.1 hq with rfl | hq
        · exact absurd hk hqs
        · exact Or.inr ⟨q, hq, hqs⟩
    · exact Or.inl rfl
    · exact Or.inl rfl

theorem reads_heads {after : Text} {ls : List Lexeme} {p : Place} (hcut : Cut after ls)
    (hi : ∀ l ∈ ls, l.kind.isInner = true) (h : reads r s (Piece.placed p ls) = some (ts, last)) :
    freeAfter (!s.codeSeen) ts = !last.codeSeen ∧
      (heads (!s.codeSeen) ts = [] ∨ ∃ before t rest, ts = before ++ t :: rest ∧
        heads (!s.codeSeen) ts = [t] ∧ s.codeSeen = false ∧ t.start.line = p.line ∧
        (∀ u ∈ before, u.kind = .comment ∧ u.start.line = p.line ∨ u.kind = .dedent) ∧
        ∃ l ∈ ls, l.kind.isCode = true) := by
  induction ls generalizing p s ts with
  | nil =>
    obtain ⟨rfl, rfl⟩ := reads_nil.1 h
    exact ⟨rfl, Or.inl rfl⟩
  | cons l ls ih =>
    have hil := hi l (by simp)
    have his : ∀ k ∈ ls, k.kind.isInner = true := fun k hk => hi k (by simp [hk])
    obtain ⟨hf, us, hr, rfl⟩ := reads_cons.1 h
    have hline : l.kind = .space ∨ l.kind = .comment → (p.advance l.text).line = p.line := by
      intro hk
      have hno : '\n' ∉ l.text := by
        apply hcut.1.no_newline hil
        intro style hs
        rw [hs] at hk
        rcases hk with hk | hk <;> cases hk
      rw [advance_of_no_newline hno]
    rcases step_inner hil hf with ⟨hk, he, hn⟩ | ⟨hk, he, hn⟩ |
      ⟨hk, margin, levels, brackets, he, hm, hc, hn⟩ <;> rw [he] <;> rw [hn] at hr
    · obtain ⟨hfree, hheads⟩ := ih hcut.2.2 his hr
      rw [hline (Or.inl hk)] at hheads
      refine ⟨hfree, ?_⟩
      rcases hheads with h0 | ⟨before, t, rest, rfl, h1, hs, h2, h3, k, hkm, hkc⟩
      · exact Or.inl h0
      · exact Or.inr ⟨before, t, rest, rfl, h1, hs, h2, h3, k, by simp [hkm], hkc⟩
    · obtain ⟨hfree, hheads⟩ := ih hcut.2.2 his hr
      rw [hline (Or.inr hk)] at hheads
      refine ⟨hfree, ?_⟩
      rw [List.singleton_append, heads_of_ne_code (by simp [Piece.token])]
      rcases hheads with h0 | ⟨before, t, rest, rfl, h1, hs, h2, h3, k, hkm, hkc⟩
      · exact Or.inl h0
      · refine Or.inr ⟨_ :: before, t, rest, rfl, h1, hs, h2, ?_, k, by simp [hkm], hkc⟩
        intro u hu
        rcases List.mem_cons.1 hu with rfl | hu
        · exact Or.inl ⟨rfl, rfl⟩
        · exact h3 u hu
    · obtain ⟨hseen, hnone, hstay⟩ := reads_seen (placed_inner his _) rfl hr
      rw [hseen, List.append_assoc, freeAfter_append, heads_append, List.singleton_append,
        heads_code rfl, hnone]
      refine ⟨hstay, ?_⟩
      cases hs : s.codeSeen with
      | true =>
        rw [hc hs]
        exact Or.inl rfl
      | false =>
        rcases hm with ⟨u, rfl, hu⟩ | hm
        · have hfu : freeAfter (!false) [u] = false := by simp [freeAfter, Token.frees, hu]
          rw [hfu]
          exact Or.inl (by simp [heads, hu])
        · obtain ⟨h1, h2⟩ := heads_of_dedents hm
          refine Or.inr ⟨margin, _, us, rfl, ?_, rfl, rfl, fun u hu => Or.inr (hm u hu), l,
            by simp, hk⟩
          rw [Bool.not_false, h1, h2]
          rfl

/-! ## What a row can come to -/

theorem step_exit {row : Row} :
    step r s (row.exit.piece row.trail row.turn) =
      if row.exit = .joined then
        .emit { s with lineHeld := false, joined? := some row.turn.line } []
      else endLine s (row.exit.piece row.trail row.turn) := by
  have hk := kind_piece (x := row.exit) row.trail row.turn
  unfold step
  rw [hk]
  by_cases hx : row.exit = .joined
  · rw [if_pos hx, if_pos hx, line_piece row.spaces]
  · rw [if_neg hx, if_neg hx]

theorem read_rested {row : Row} (h : row.read r s = some (ts, last)) : last.lineHeld = false := by
  obtain ⟨us, m, -, hf, -, rfl⟩ := read_eq_some.1 h
  rw [step_exit] at hf ⊢
  split at hf
  · next hx => rw [if_pos hx]; rfl
  · next hx =>
    rw [if_neg hx]
    rcases endLine_spec rfl hf with ⟨-, -, -, -, hn⟩ | ⟨-, -, -, hn⟩ | ⟨hh, -, -, hn⟩ <;> rw [hn]
    · rfl
    · rfl
    · exact hh

theorem Sound.read {row : Row} (hs : Sound s) (h : row.read r s = some (ts, last)) : Sound last :=
  hs.reads h

theorem joined_of_read {row : Row} (hx : row.exit = .joined) (h : row.read r s = some (ts, last)) :
    last.joined? ≠ none := by
  obtain ⟨us, m, -, -, -, rfl⟩ := read_eq_some.1 h
  rw [step_exit, if_pos hx, ne_eq, unplaced_joined_eq_none]
  simp [Step.emit]

/-- A blank row gives one blank line and changes nothing; behind a backslash it
cannot be read. -/
theorem read_blank {row : Row} (hb : row.isBlank = true) (hs : s.lineHeld = false) :
    row.read r s = some (ts, last) ↔ s.joined? = none ∧ last = s.unplaced ∧
      ts = [blankLine (row.exit.piece row.trail ⟨0, []⟩).start] := by
  rw [Row.isBlank, Bool.and_eq_true, List.isEmpty_iff, bne_iff_ne] at hb
  have hp : row.pieces = [] := by rw [Row.pieces, hb.1]; rfl
  have ht : row.turn = ⟨0, []⟩ := by rw [Row.turn, hb.1]; rfl
  rw [read_eq_some, hp, ht]
  have hend : ∀ m : Layout, m.lineHeld = false →
      step r m (row.exit.piece row.trail ⟨0, []⟩) = endLine m (row.exit.piece row.trail ⟨0, []⟩) := by
    intro m _
    rw [← ht, step_exit, if_neg hb.2]
  constructor
  · intro hex
    obtain ⟨us, m, hr, hf, rfl, rfl⟩ := hex
    obtain ⟨rfl, rfl⟩ := reads_nil.1 hr
    rw [hend s.unplaced hs] at hf ⊢
    rcases endLine_spec rfl hf with ⟨hh, -⟩ | ⟨hh, -⟩ | ⟨-, hj, he, hn⟩
    · rw [unplaced_lineHeld, hs] at hh; cases hh
    · rw [unplaced_lineHeld, hs] at hh; cases hh
    · rw [he, hn]
      exact ⟨unplaced_joined_eq_none.1 hj, by simp, rfl⟩
  · intro hex
    obtain ⟨hj, rfl, rfl⟩ := hex
    have hstep : endLine s.unplaced (row.exit.piece row.trail ⟨0, []⟩) =
        .emit s.unplaced [blankLine (row.exit.piece row.trail ⟨0, []⟩).start] := by
      unfold endLine
      rw [unplaced_lineHeld, hs, unplaced_joined_eq_none.2 hj]
      rfl
    refine ⟨[], s.unplaced, reads_nil.2 ⟨rfl, rfl⟩, ?_⟩
    rw [hend s.unplaced hs, hstep]
    exact ⟨rfl, rfl, by simp [Step.emit]⟩

theorem exists_core_not_space {row : Row} (hb : row.isBlank = false) (hx : row.exit ≠ .joined) :
    ∃ l ∈ row.core, l.kind ≠ .space := by
  have hne : row.core ≠ [] := by
    intro hc
    simp [Row.isBlank, hc, hx] at hb
  have hfits := row.fits
  have hlast : ∀ l ∈ row.core.getLast?, l.kind ≠ .space := by
    cases h : row.exit with
    | joined => exact absurd h hx
    | newline | last => rwa [h] at hfits
  exact ⟨_, List.getLast_mem hne, hlast _ (List.getLast?_eq_some_getLast hne)⟩

theorem exists_not_space {row : Row} (hb : row.isBlank = false) (hx : row.exit ≠ .joined) :
    ∃ p ∈ row.pieces, p.kind ≠ .space := by
  obtain ⟨l, hl, hne⟩ := exists_core_not_space hb hx
  have hkinds : row.pieces.map (·.kind) = row.core.map (·.kind) := by
    unfold Row.pieces
    generalize (⟨0, []⟩ : Place) = p
    generalize row.core = ls
    induction ls generalizing p with
    | nil => rfl
    | cons l ls ih => rw [Piece.placed, List.map_cons, ih, List.map_cons]
  have hmem : l.kind ∈ row.pieces.map (·.kind) := by
    rw [hkinds]
    exact List.mem_map_of_mem hl
  obtain ⟨p, hp, hk⟩ := List.mem_map.1 hmem
  exact ⟨p, hp, hk ▸ hne⟩

/-- A row that holds something gives no blank line; if it is not joined to the
next, it gives a token that ends its line. -/
theorem read_solid {row : Row} (hb : row.isBlank = false) (h : row.read r s = some (ts, last)) :
    (∀ t ∈ ts, t.kind ≠ .blankLine) ∧ (row.exit ≠ .joined →
      ∃ us t, ts = us ++ [t] ∧ (t.kind = .newline ∨ t.kind = .lineBreak)) := by
  obtain ⟨us, m, hp, hf, rfl, rfl⟩ := read_eq_some.1 h
  have hus : ∀ t ∈ us, t.kind ≠ .blankLine := by
    intro t ht hk
    have := reads_kinds row.pieces_inner hp t ht
    simp [hk] at this
  rw [step_exit] at hf ⊢
  by_cases hx : row.exit = .joined
  · rw [if_pos hx]
    refine ⟨fun t ht => ?_, fun h => absurd hx h⟩
    simp only [Step.emit, List.append_nil] at ht
    exact hus t ht
  · rw [if_neg hx] at hf ⊢
    have hheld := reads_held row.pieces_inner (Or.inr (exists_not_space hb hx)) hp
    have hend : ∃ t, (endLine m (row.exit.piece row.trail row.turn)).emitted = [t] ∧
        (t.kind = .newline ∨ t.kind = .lineBreak) := by
      rcases endLine_spec rfl hf with ⟨-, -, -, he, -⟩ | ⟨-, -, he, -⟩ | ⟨hh, -⟩
      · exact ⟨_, he, Or.inl rfl⟩
      · exact ⟨_, he, Or.inr rfl⟩
      · rw [hheld] at hh; cases hh
    obtain ⟨t, he, hk⟩ := hend
    rw [he]
    refine ⟨fun u hu => ?_, fun _ => ⟨us, t, rfl, hk⟩⟩
    rcases List.mem_append.1 hu with hu | hu
    · exact hus u hu
    · rw [List.mem_singleton.1 hu]
      rcases hk with hk | hk <;> rw [hk] <;> decide

/-- A row holds at most one head, on its first line and right behind comments
and the closing of levels. -/
theorem read_heads {row : Row} (h : row.read r s = some (ts, last)) :
    freeAfter (!s.codeSeen) ts = !last.codeSeen ∧
      (heads (!s.codeSeen) ts = [] ∨ ∃ before t rest, ts = before ++ t :: rest ∧
        heads (!s.codeSeen) ts = [t] ∧ s.codeSeen = false ∧ t.start.line = 0 ∧
        (∀ u ∈ before, u.kind = .comment ∧ u.start.line = 0 ∨ u.kind = .dedent) ∧
        ∃ l ∈ row.core, l.kind.isCode = true) := by
  obtain ⟨us, m, hp, hf, rfl, rfl⟩ := read_eq_some.1 h
  obtain ⟨hfree, hheads⟩ := reads_heads row.cut row.inner hp
  have hend : ∀ vs : List Token, heads (!m.codeSeen) vs = [] →
      heads (!s.codeSeen) (us ++ vs) = heads (!s.codeSeen) us := by
    intro vs hvs
    rw [heads_append, hfree, hvs, List.append_nil]
  have hcases : heads (!m.codeSeen) (step r m (row.exit.piece row.trail row.turn)).emitted = [] ∧
      freeAfter (!m.codeSeen) (step r m (row.exit.piece row.trail row.turn)).emitted =
        !(step r m (row.exit.piece row.trail row.turn)).next.codeSeen := by
    rw [step_exit] at hf ⊢
    split at hf
    · next hx => rw [if_pos hx]; exact ⟨rfl, rfl⟩
    · next hx =>
      rw [if_neg hx]
      rcases endLine_spec rfl hf with ⟨-, -, -, he, hn⟩ | ⟨-, -, he, hn⟩ | ⟨-, -, he, hn⟩ <;>
        rw [he, hn] <;>
        exact ⟨heads_of_ne_code (by simp [lineEnd, blankLine]) _ [], rfl⟩
  refine ⟨?_, ?_⟩
  · rw [freeAfter_append, hfree, hcases.2]
    rfl
  · rw [hend _ hcases.1]
    rcases hheads with h0 | ⟨before, t, rest, rfl, h1, h2, h3, hk⟩
    · exact Or.inl h0
    · exact Or.inr ⟨before, t, rest ++ _, List.append_assoc before (t :: rest) _, h1, h2, h3, hk⟩

end read

end Offside
