import Offside.Proofs.Layout.Cleaned
import Offside.Proofs.Layout.Within
import Offside.Proofs.Lexeme.Evaluate

/-!
# Tokens of a text without its blank lines

The text that is left without its blank lines has the tokens that it had, and no
others. Each stands as many lines higher as blank lines stood above it.

Results:
* `retold_lay`: the tokens of a log without its blank rows;
* `exists_retold`, `retokenize`: the same for whole texts.
-/
namespace Offside

open Lexeme Text Layout

/-! ## Lines that are counted anew -/

/-- How many blank lines stand above line `l`. -/
def blankAbove (ts : List Token) (l : Nat) : Nat :=
  ts.countP fun t => t.kind == .blankLine && decide (t.start.line < l)

/-- The number of line `l` when the blank lines are taken out. -/
def lineWithout (ts : List Token) (l : Nat) : Nat := l - blankAbove ts l

/-- The same token of the text without its blank lines, where `f` counts the lines
anew: the text has its newlines without a carriage return before them. -/
structure Token.Retold (f : Nat → Nat) (t u : Token) : Prop where
  kind : u.kind = t.kind
  startLine : u.start.line = f t.start.line
  stopLine : u.stop.line = f t.stop.line
  columns : t.kind ≠ .newline → t.kind ≠ .lineBreak →
    u.start.column = t.start.column ∧ u.stop.column = t.stop.column
  text : t.kind ≠ .newline → t.kind ≠ .lineBreak → u.text = reline ['\n'] t.text

theorem kinds_retold {f : Nat → Nat} {ts us : List Token}
    (h : List.Forall₂ (Token.Retold f) ts us) : us.map (·.kind) = ts.map (·.kind) := by
  induction h with
  | nil => rfl
  | cons h _ ih => rw [List.map_cons, List.map_cons, h.kind, ih]

theorem Token.Recast.retold {f : Nat → Nat} {t u : Token} {n m : Nat} (h : t.Recast .lf u)
    (hk : t.kind ≠ .blankLine) (hstart : f (t.start.line + n) = t.start.line + m)
    (hstop : f (t.stop.line + n) = t.stop.line + m) : (t.down n).Retold f (u.down m) := by
  have hcontent : t.kind ≠ .newline → t.kind ≠ .lineBreak → t.kind.endsLine = false := by
    intro h1 h2
    cases hkind : t.kind <;> simp_all [Token.Kind.endsLine]
  refine ⟨h.kind.symm, ?_, ?_, fun h1 h2 => ?_, fun h1 h2 => (h.content (hcontent h1 h2)).2.2⟩
  · rw [down_start, down_start, Position.down_line, Position.down_line, hstart, h.startLine]
  · exact (congrArg (· + m) h.stopLine.symm).trans hstop.symm
  · obtain ⟨h3, h4, -⟩ := h.content (hcontent h1 h2)
    exact ⟨by simp [Token.down, Position.down, h3], by simp [Token.down, Position.down, h4]⟩

section log

variable {r : Ruler} {s last : Layout} {es : List Entry} {f : Nat → Nat}

theorem blankAbove_lay (h : Reads r s es last) (hh : s.lineHeld = false) (n l : Nat) :
    blankAbove (lay n es) l = (blankLines n (es.map (·.row))).countP fun k => decide (k < l) := by
  rw [← blankMarkers_lay h hh n, List.countP_map, List.countP_filter, blankAbove]
  refine List.countP_congr fun t ht => ?_
  rw [isBlankLineMarker_lay h hh n t ht, Bool.and_comm]
  rfl

theorem retold_closing {p q : Position} (hl : q.line = f p.line) (hc : q.column = p.column) :
    List.Forall₂ (Token.Retold f) (closing last p) (closing last q) := by
  have hmark : ∀ kind, (Token.mark kind p).Retold f (.mark kind q) := fun kind =>
    ⟨rfl, hl, hl, fun _ _ => ⟨hc, hc⟩, fun _ _ => rfl⟩
  refine List.rel_append ?_ (.cons (hmark _) .nil)
  induction last.levels with
  | nil => exact .nil
  | cons _ _ ih => exact .cons (hmark _) ih

theorem retold_strip {ts us : List Token} {n m height : Nat}
    (hkind : ∀ t ∈ ts, t.kind ≠ .blankLine) (hwithin : ∀ t ∈ ts, t.Within height)
    (hall : List.Forall₂ (Token.Recast .lf) ts us)
    (hf : ∀ k, k ≤ height → f (k + n) = k + m) :
    List.Forall₂ (Token.Retold f) ((ts.map (Token.down n)).filter fun t => t.kind ≠ .blankLine)
      (us.map (Token.down m)) := by
  have hkeep : (ts.map (Token.down n)).filter (fun t => t.kind ≠ .blankLine) =
      ts.map (Token.down n) := by
    refine List.filter_eq_self.2 fun t ht => ?_
    obtain ⟨u, hu, rfl⟩ := List.mem_map.1 ht
    exact decide_eq_true (hkind u hu)
  rw [hkeep, List.forall₂_map_left_iff, List.forall₂_map_right_iff]
  have hmem : ∀ t ∈ ts, t.kind ≠ .blankLine ∧ t.Within height := fun t ht =>
    ⟨hkind t ht, hwithin t ht⟩
  refine ((List.forall₂_and_left _ _).2 ⟨hmem, hall⟩).imp fun t u htu => ?_
  obtain ⟨⟨hk, hstart, hstop⟩, hrecast⟩ := htu
  exact hrecast.retold hk (hf _ hstart) (hf _ hstop)

/-- The tokens of a log without its blank rows, where `c` blank lines stand above
it. -/
theorem retold_lay {es' : List Entry} {n c : Nat} (h : Reads r s es last)
    (hh : s.lineHeld = false) (hne : ∀ row ∈ es.map (·.row), row.text ≠ [])
    (hall : List.Forall₂ (Entry.Recast .lf) (es.filter Entry.isSolid) es')
    (hlen : es'.map (·.row.lines.length) = (es.filter Entry.isSolid).map (·.row.lines.length))
    (hc : c ≤ n) (hf : ∀ l, n ≤ l → f l = l -
      (c + (blankLines n (es.map (·.row))).countP fun k => decide (k < l))) :
    List.Forall₂ (Token.Retold f) ((lay n es).filter fun t => t.kind ≠ .blankLine)
        (lay (n - c) es') ∧ f (n + height es) = n - c + height es' := by
  induction h generalizing n c es' with
  | nil =>
    obtain rfl := List.forall₂_nil_left_iff.1 hall
    refine ⟨.nil, ?_⟩
    have := hf n (Nat.le_refl n)
    simpa [blankLines, height] using this
  | @cons s m last row ts es hr hrest ih =>
    have hne' : ∀ q ∈ es.map (·.row), q.text ≠ [] := fun q hq => hne q (by simp [hq])
    have hspec := strip_spec (.cons hr (.nil m)) hh ⟨s, row, ts⟩ (by simp)
    rw [List.map_cons] at hf
    rw [lay, List.filter_append, height_cons, ← Nat.add_assoc]
    dsimp only at hspec hf ⊢
    by_cases hb : row.isBlank = true
    · -- the row is one line, and counts for all that stand below it
      obtain ⟨l, hl, -⟩ := lines_of_blank hb (hne row (by simp))
      have hone : row.lines.length = 1 := by rw [hl]; rfl
      rw [List.filter_cons_of_neg (by simp [Entry.isSolid, Row.isSolid, hb])] at hall hlen
      rw [if_pos hb] at hspec
      have hnone : (ts.map (Token.down n)).filter (fun t => t.kind ≠ .blankLine) = [] := by
        rw [hspec.2]
        rfl
      have hf' : ∀ l, n + 1 ≤ l → f l = l - (c + 1 +
          (blankLines (n + 1) (es.map (·.row))).countP fun k => decide (k < l)) := by
        intro l hl
        have hlt : decide (n < l) = true := decide_eq_true hl
        rw [hf l (by omega), blankLines, if_pos hb, hone, List.countP_append, List.countP_singleton,
          if_pos hlt, Nat.add_assoc]
      obtain ⟨h1, h2⟩ := ih (read_rested hr) hne' hall hlen (Nat.add_le_add_right hc 1) hf'
      rw [Nat.add_sub_add_right] at h1 h2
      rw [hnone, hone]
      exact ⟨h1, h2⟩
    · -- the row is kept, and none of the blank lines below it stands above its end
      rw [List.filter_cons_of_pos (by simp [Entry.isSolid, Row.isSolid, hb])] at hall hlen
      rw [if_neg hb] at hspec
      simp only [blankLines, if_neg hb, List.nil_append] at hf
      obtain ⟨e', es', he, hall', rfl⟩ := List.forall₂_cons_left_iff.1 hall
      obtain ⟨hrow, hlen'⟩ := List.cons.inj hlen
      have hrow : e'.row.lines.length = row.lines.length := hrow
      obtain ⟨h1, h2⟩ := ih (read_rested hr) hne' hall' hlen' (Nat.le_add_right_of_le hc)
        fun l hl => hf l (by omega)
      have hself : ∀ k, k ≤ row.lines.length → f (k + n) = k + (n - c) := by
        intro k hk
        have hnone : (blankLines (n + row.lines.length) (es.map (·.row))).countP
            (fun j => decide (j < k + n)) = 0 := by
          refine List.countP_eq_zero.2 fun j hj => ?_
          have := le_of_mem_blankLines hj
          simp only [decide_eq_true_eq]
          omega
        rw [hf (k + n) (by omega), hnone]
        omega
      have hplace : n + row.lines.length - c = n - c + e'.row.lines.length := by omega
      rw [hplace] at h1 h2
      have hwithin : ∀ t ∈ ts, t.Within row.lines.length := by
        intro t ht
        rw [Row.length_lines (hne row (by simp))]
        exact ((read_between hr).1 t ht).within (Nat.le_succ _)
      rw [lay, height_cons, ← Nat.add_assoc]
      exact ⟨List.rel_append (retold_strip hspec hwithin he.strip hself) h1, h2⟩

end log

/-- The tokens of a text without its blank lines, told by those that it had. -/
theorem exists_retold {s : Text} {ts : List Token} (h : tokenize s = .ok ts) :
    ∃ us, tokenize (joinLines (removeBlankLines s.lines ts)) = .ok us ∧
      List.Forall₂ (Token.Retold (lineWithout ts)) (ts.filter fun t => t.kind ≠ .blankLine) us := by
  obtain ⟨es, last, hlog, rfl⟩ := exists_log h
  obtain ⟨es', hlog', hrows, hall⟩ := hlog.exists_cleaned
  have htok := hlog'.tokenize
  rw [hlog.removeBlankLines, hlog.pastEnd_eq]
  rw [hlog'.pastEnd_eq] at htok
  have hclosing := blankLine_not_mem_closing (s := last) ⟨1 + height es, 0⟩
  have hf : ∀ l, 1 ≤ l → lineWithout (lay 1 es ++ closing last ⟨1 + height es, 0⟩) l =
      l - (0 + (blankLines 1 (es.map (·.row))).countP fun k => decide (k < l)) := by
    intro l _
    have hnone : blankAbove (closing last ⟨1 + height es, 0⟩) l = 0 :=
      List.countP_eq_zero.2 fun t ht => by simp [hclosing t ht]
    rw [lineWithout, blankAbove, List.countP_append, ← blankAbove, ← blankAbove, hnone,
      blankAbove_lay hlog.reads rfl, Nat.zero_add, Nat.add_zero]
  obtain ⟨h1, h2⟩ := retold_lay hlog.reads rfl hlog.text_ne_nil hall
    (hlog.lengths_of_cleaned hrows) (Nat.zero_le 1) hf
  have hkeep : (closing last ⟨1 + height es, 0⟩).filter (fun t => t.kind ≠ .blankLine) =
      closing last ⟨1 + height es, 0⟩ :=
    List.filter_eq_self.2 fun t ht => decide_eq_true (hclosing t ht)
  refine ⟨_, htok, ?_⟩
  rw [List.filter_append, hkeep]
  exact List.rel_append h1 (retold_closing h2.symm rfl)

/-- Without its blank lines a text has tokens again: those that it had, but for the
blank lines, each as many lines higher as blank lines stood above it. -/
theorem retokenize {s : Text} {ts : List Token} (h : tokenize s = .ok ts) :
    ∃ us, tokenize (joinLines (removeBlankLines s.lines ts)) = .ok us ∧
      (∀ u ∈ us, u.kind ≠ .blankLine) ∧
      List.Forall₂ (Token.Retold (lineWithout ts)) (ts.filter fun t => t.kind ≠ .blankLine) us := by
  obtain ⟨us, hus, hretold⟩ := exists_retold h
  refine ⟨us, hus, fun u hu hk => ?_, hretold⟩
  have hmem : Token.Kind.blankLine ∈ us.map (·.kind) := List.mem_map.2 ⟨u, hu, hk⟩
  rw [kinds_retold hretold] at hmem
  obtain ⟨t, ht, htk⟩ := List.mem_map.1 hmem
  exact of_decide_eq_true (List.mem_filter.1 ht).2 htk

/-- Blank lines in a block, in a bracket and at the end, and one that is part of a
literal. -/
theorem retokenize_literal :
    ∃ ts us, tokenize "if a:\r\n\n  (b\n\n\'\'\'\r\n\r\n\'\'\')\n\n".toList = .ok ts ∧
      joinLines (removeBlankLines (Text.lines "if a:\r\n\n  (b\n\n\'\'\'\r\n\r\n\'\'\')\n\n".toList) ts) =
        "if a:\n  (b\n\'\'\'\n\n\'\'\')".toList ∧
      tokenize "if a:\n  (b\n\'\'\'\n\n\'\'\')".toList = .ok us ∧ (∀ u ∈ us, u.kind ≠ .blankLine) ∧
      List.Forall₂ (Token.Retold (lineWithout ts)) (ts.filter fun t => t.kind ≠ .blankLine) us := by
  have h : (tokenize "if a:\r\n\n  (b\n\n\'\'\'\r\n\r\n\'\'\')\n\n".toList).map (fun ts => joinLines
      (removeBlankLines (Text.lines "if a:\r\n\n  (b\n\n\'\'\'\r\n\r\n\'\'\')\n\n".toList) ts)) =
      .ok "if a:\n  (b\n\'\'\'\n\n\'\'\')".toList := by
    simp only [tokenize, tokenizeWith, scan_eq_scanIn]
    decide +kernel
  cases hts : tokenize "if a:\r\n\n  (b\n\n\'\'\'\r\n\r\n\'\'\')\n\n".toList with
  | error e => rw [hts] at h; cases h
  | ok ts =>
    rw [hts] at h
    have hclean : joinLines (removeBlankLines (Text.lines
        "if a:\r\n\n  (b\n\n\'\'\'\r\n\r\n\'\'\')\n\n".toList) ts) = _ := Except.ok.inj h
    obtain ⟨us, hus, hkinds, hall⟩ := retokenize hts
    rw [hclean] at hus
    exact ⟨ts, us, rfl, hclean, hus, hkinds, hall⟩

end Offside
