import Offside.Proofs.Layout.Log

/-!
# Where tokens stand

A row takes one line more than its core has newlines, and its tokens stand on
these lines.

Results:
* `Row.length_lines`: how many lines a row takes;
* `read_between`, `lay_between`: the tokens of rows stand on their lines, one before
  the other;
* `token_mem_reads`: each piece of code is a token.
-/
namespace Offside

open Lexeme Text Layout

/-! ## Lines that newlines count -/

theorem Place.line_le_advance (p : Place) (t : Text) : p.line ≤ (p.advance t).line := by
  rw [Place.line_advance]
  exact Nat.le_add_right _ _

theorem length_lines_of_open {t : Text} (hne : t ≠ []) (h : t.getLast? ≠ some '\n') :
    (lines t).length = t.count '\n' + 1 := by
  obtain ⟨a, b, rfl, ha, hb⟩ := exists_ended_append t
  have hbne : b ≠ [] := by
    rintro rfl
    rw [List.append_nil] at hne h
    rcases ha.eq_nil_or with rfl | ⟨a, rfl⟩
    · exact hne rfl
    · simp at h
  rw [lines_append ha, List.length_append, length_lines_of_ended ha, lines_of_no_newline hb hbne,
    List.count_append, List.count_eq_zero_of_not_mem hb]
  rfl

namespace Row

theorem line_turn (row : Row) : row.turn.line = (textOf row.core).count '\n' := by
  rw [turn, Place.line_advance, Nat.zero_add]

/-- A row takes one line more than its core has newlines. -/
theorem length_lines {row : Row} (hne : row.text ≠ []) :
    row.lines.length = row.turn.line + 1 := by
  have hspaces := List.count_eq_zero_of_not_mem (newline_not_mem_spaces row.spaces)
  rw [line_turn, lines]
  by_cases hx : row.exit = .last
  · rw [length_lines_of_open hne (getLast_text_ne_newline hx)]
    simp [text, hx, Exit.glyph, Exit.stop, hspaces]
  · rw [length_lines_of_ended (ended_text hx)]
    cases h : row.exit with
    | last => exact absurd h hx
    | newline | joined => simp [text, h, Exit.glyph, Exit.stop, hspaces]

end Row

/-! ## Tokens of a row -/

/-- The token begins and ends no lower than line `n`. -/
def Token.Within (n : Nat) (t : Token) : Prop := t.start.line ≤ n ∧ t.stop.line ≤ n

/-- The token stands on the lines from `m` to `n`. -/
structure Token.Between (m n : Nat) (t : Token) : Prop where
  first : m ≤ t.start.line
  order : t.start.line ≤ t.stop.line
  last : t.stop.line ≤ n

theorem Token.Between.mono {m n m' n' : Nat} {t : Token} (h : t.Between m n) (hm : m' ≤ m)
    (hn : n ≤ n') : t.Between m' n' :=
  ⟨Nat.le_trans hm h.first, h.order, Nat.le_trans h.last hn⟩

theorem Token.Between.within {m n k : Nat} {t : Token} (h : t.Between m n) (hk : n ≤ k) :
    t.Within k :=
  ⟨Nat.le_trans h.order (Nat.le_trans h.last hk), Nat.le_trans h.last hk⟩

theorem Token.Between.down {m n : Nat} {t : Token} (h : t.Between m n) (k : Nat) :
    (t.down k).Between (m + k) (n + k) :=
  ⟨Nat.add_le_add_right h.first k, Nat.add_le_add_right h.order k, Nat.add_le_add_right h.last k⟩

/-- The token `t` stands before `u`: it ends no lower than `u` begins, and higher if
it ends a logical line. -/
def Token.Precedes (t u : Token) : Prop :=
  t.stop.line ≤ u.start.line ∧ (t.kind = .newline → t.start.line < u.start.line)

section within

variable {r : Ruler} {s last : Layout} {ts : List Token}

theorem margin_between {p : Place} :
    ∀ t ∈ (beginCode r s p).emitted, t.Between p.line p.line ∧ t.kind ≠ .newline := by
  intro t ht
  rcases mem_beginCode ht with rfl | rfl <;>
    exact ⟨⟨Nat.le_refl _, Nat.le_refl _, Nat.le_refl _⟩, by simp [Token.mark]⟩

theorem step_between {p : Piece} (hi : p.kind.isInner = true) (hf : (step r s p).fault? = none) :
    (∀ t ∈ (step r s p).emitted, t.Between p.start.line p.stop.line ∧ t.kind ≠ .newline) ∧
      (step r s p).emitted.Pairwise Token.Precedes := by
  have hline : p.start.line ≤ p.stop.line := Place.line_le_advance p.start p.text
  have htoken : ∀ kind, (p.token kind).Between p.start.line p.stop.line := fun _ =>
    ⟨Nat.le_refl _, hline, Nat.le_refl _⟩
  have hcode : ∀ {f : Layout → Step}, ((beginCode r s p.start).andThen f).fault? = none →
      (∀ m, (f m).fault? = none → (f m).emitted = [p.token .code]) →
      (∀ t ∈ ((beginCode r s p.start).andThen f).emitted,
          t.Between p.start.line p.stop.line ∧ t.kind ≠ .newline) ∧
        ((beginCode r s p.start).andThen f).emitted.Pairwise Token.Precedes := by
    intro f hf he
    obtain ⟨-, hfm, hemit, -⟩ := andThen_spec hf
    rw [hemit, he _ hfm]
    have hmargin := margin_between (r := r) (s := s) (p := p.start)
    have hbefore : ∀ t ∈ (beginCode r s p.start).emitted, ∀ u : Token,
        p.start.line ≤ u.start.line → t.Precedes u := fun t ht u hu =>
      ⟨Nat.le_trans (hmargin t ht).1.last hu, fun hk => absurd hk (hmargin t ht).2⟩
    constructor
    · intro t ht
      rcases List.mem_append.1 ht with ht | ht
      · exact ⟨(hmargin t ht).1.mono (Nat.le_refl _) hline, (hmargin t ht).2⟩
      · rw [List.mem_singleton.1 ht]
        exact ⟨htoken _, by simp [Piece.token]⟩
    · refine List.pairwise_append.2 ⟨?_, List.pairwise_singleton _ _, fun t ht u hu => ?_⟩
      · exact List.pairwise_iff_forall_sublist.2 fun {t u} h =>
          hbefore t (h.subset (by simp)) u (hmargin u (h.subset (by simp))).1.first
      · rw [List.mem_singleton.1 hu]
        exact hbefore t ht _ (Nat.le_refl _)
  unfold step at hf ⊢
  cases hk : p.kind with
  | newline | continuation => rw [hk] at hi; cases hi
  | space => exact ⟨fun t ht => absurd ht List.not_mem_nil, .nil⟩
  | comment =>
    refine ⟨fun t ht => ?_, List.pairwise_singleton _ _⟩
    rw [List.mem_singleton.1 ht]
    exact ⟨htoken _, by simp [Piece.token]⟩
  | opener | literal style | word | punct =>
    simp only [hk] at hf
    exact hcode hf fun m _ => rfl
  | closer =>
    simp only [hk] at hf
    exact hcode hf fun m hm => (closeBracket_spec rfl hm).1

theorem reads_between {ls : List Lexeme} {p : Place} (hi : ∀ l ∈ ls, l.kind.isInner = true)
    (h : reads r s (Piece.placed p ls) = some (ts, last)) :
    (∀ t ∈ ts, t.Between p.line (p.advance (textOf ls)).line ∧ t.kind ≠ .newline) ∧
      ts.Pairwise Token.Precedes := by
  induction ls generalizing s ts p with
  | nil =>
    obtain ⟨rfl, -⟩ := reads_nil.1 h
    exact ⟨nofun, .nil⟩
  | cons l ls ih =>
    obtain ⟨hf, us, hr, rfl⟩ := reads_cons.1 h
    obtain ⟨hhere, hpair⟩ := step_between (hi l (by simp)) hf
    obtain ⟨hbelow, hrest⟩ := ih (fun k hk => hi k (by simp [hk])) hr
    rw [textOf_cons, Place.advance_append]
    constructor
    · intro t ht
      rcases List.mem_append.1 ht with ht | ht
      · exact ⟨(hhere t ht).1.mono (Nat.le_refl _) (Place.line_le_advance _ _), (hhere t ht).2⟩
      · exact ⟨(hbelow t ht).1.mono (Place.line_le_advance _ _) (Nat.le_refl _), (hbelow t ht).2⟩
    · refine List.pairwise_append.2 ⟨hpair, hrest, fun t ht u hu => ⟨?_, fun hk => ?_⟩⟩
      · exact Nat.le_trans (hhere t ht).1.last (hbelow u hu).1.first
      · exact absurd hk (hhere t ht).2

/-- The tokens of a row stand on its lines, one before the other. -/
theorem read_between {row : Row} (h : row.read r s = some (ts, last)) :
    (∀ t ∈ ts, t.Between 0 row.turn.line) ∧ ts.Pairwise Token.Precedes := by
  obtain ⟨us, m, hp, hf, rfl, -⟩ := read_eq_some.1 h
  obtain ⟨hcore, hpair⟩ := reads_between row.inner hp
  have hline := line_piece (x := row.exit) row.spaces row.turn
  have hend : (step r m (row.exit.piece row.trail row.turn)).emitted = [] ∨
      ∃ t, (step r m (row.exit.piece row.trail row.turn)).emitted = [t] ∧
        t.Between row.turn.line row.turn.line := by
    rw [step_exit] at hf ⊢
    split at hf
    · next hx => exact Or.inl (by rw [if_pos hx]; rfl)
    · next hx =>
      rw [if_neg hx]
      refine Or.inr ?_
      rcases endLine_spec rfl hf with ⟨-, -, -, he, -⟩ | ⟨-, -, he, -⟩ | ⟨-, -, he, -⟩ <;>
        exact ⟨_, he, Nat.le_of_eq hline.symm, Nat.le_refl _, Nat.le_of_eq hline⟩
  rcases hend with he | ⟨t, he, ht⟩ <;> rw [he]
  · rw [List.append_nil]
    exact ⟨fun t ht => (hcore t ht).1, hpair⟩
  · constructor
    · exact List.forall_mem_append.2 ⟨fun u hu => (hcore u hu).1,
        List.forall_mem_singleton.2 (ht.mono (Nat.zero_le _) (Nat.le_refl _))⟩
    · refine List.pairwise_append.2 ⟨hpair, List.pairwise_singleton _ _, fun u hu v hv => ?_⟩
      rw [List.mem_singleton.1 hv]
      exact ⟨Nat.le_trans (hcore u hu).1.last ht.first, fun hk => absurd hk (hcore u hu).2⟩

/-- The tokens of rows stand on their lines, one before the other. -/
theorem lay_between {es : List Entry} (h : Reads r s es last)
    (hne : ∀ row ∈ es.map (·.row), row.text ≠ []) (n : Nat) :
    (∀ t ∈ lay n es, n ≤ t.start.line ∧ t.start.line ≤ t.stop.line ∧
      t.stop.line < n + height es) ∧ (lay n es).Pairwise Token.Precedes := by
  induction h generalizing n with
  | nil => exact ⟨nofun, .nil⟩
  | @cons s m last row ts es hr _ ih =>
    obtain ⟨hrow, hpair⟩ := read_between hr
    have hlen := Row.length_lines (hne row (by simp))
    obtain ⟨hbelow, hrest⟩ := ih (fun q hq => hne q (by simp [hq])) (n + row.lines.length)
    have hhere : ∀ t ∈ ts.map (Token.down n), t.Between n (n + row.turn.line) := by
      intro t ht
      obtain ⟨u, hu, rfl⟩ := List.mem_map.1 ht
      exact ((hrow u hu).down n).mono (by omega) (by omega)
    rw [lay, height_cons]
    dsimp only
    constructor
    · intro t ht
      rcases List.mem_append.1 ht with ht | ht
      · obtain ⟨h1, h2, h3⟩ := hhere t ht
        exact ⟨h1, h2, by omega⟩
      · obtain ⟨h1, h2, h3⟩ := hbelow t ht
        exact ⟨by omega, h2, by omega⟩
    · refine List.pairwise_append.2 ⟨?_, hrest, fun t ht u hu => ?_⟩
      · refine List.pairwise_map.2 (hpair.imp fun h => ⟨?_, fun hk => ?_⟩)
        · exact Nat.add_le_add_right h.1 n
        · exact Nat.add_lt_add_right (h.2 hk) n
      · -- rows share no line
        obtain ⟨h1, h2, h3⟩ := hhere t ht
        obtain ⟨h4, -, -⟩ := hbelow u hu
        exact ⟨by omega, fun _ => by omega⟩

theorem stop_placed (p : Place) (ls : List Lexeme) :
    ∀ q ∈ Piece.placed p ls, q.stop.line ≤ (p.advance (textOf ls)).line := by
  induction ls generalizing p with
  | nil => simp [Piece.placed]
  | cons l ls ih =>
    rw [textOf_cons, Place.advance_append]
    intro q hq
    rcases List.mem_cons.1 hq with rfl | hq
    · exact Place.line_le_advance _ _
    · exact ih _ q hq

/-- Each piece of code is a token. -/
theorem token_mem_reads {ps : List Piece} (hi : ∀ p ∈ ps, p.kind.isInner = true)
    (h : reads r s ps = some (ts, last)) {p : Piece} (hp : p ∈ ps) (hk : p.kind.isCode = true) :
    p.token .code ∈ ts := by
  induction ps generalizing s ts with
  | nil => cases hp
  | cons q ps ih =>
    obtain ⟨hf, us, hr, rfl⟩ := reads_cons.1 h
    rcases List.mem_cons.1 hp with rfl | hp
    · rcases step_inner (hi p (by simp)) hf with ⟨hs, -⟩ | ⟨hc, -⟩ | ⟨-, _, _, _, he, -⟩
      · rw [hs] at hk; cases hk
      · rw [hc] at hk; cases hk
      · rw [he]
        simp
    · exact List.mem_append_right _ (ih (fun q hq => hi q (by simp [hq])) hr hp)

end within

end Offside
