import Offside.Proofs.Lexeme.Evaluate
import Offside.Proofs.Normalize.Pass
import Offside.Proofs.Statement.Extent

/-!
# Ranges part a program

The ranges of a program take every line from that of its first code to the last,
each line once, and none of them cuts a statement, a literal or a bracket.

Results:
* `tokens_between`: the tokens of a text stand one before the other;
* `statementRanges_partition`: the ranges of a text part it;
* `analyse_partition`: so do those of an analysis.
-/
namespace Offside

open Lexeme Text Layout Grammar

/-- The ranges part the lines of a program of these tokens and statements, which
has `count` lines, from its first code on. -/
structure Partition (merge : Bool) (ts : List Token) (nodes : List Node) (count : Nat)
    (ranges : List LineRange) : Prop where
  empty : ranges = [] ↔ ∀ t ∈ ts, t.kind ≠ .code
  first : ranges.head?.map (·.first) = (ts.find? fun t => t.kind = .code).map (·.start.line)
  proper : ∀ r ∈ ranges, 1 ≤ r.first ∧ r.first ≤ r.last ∧ r.isSingle = (r.first == r.last)
  next : ranges.IsChain fun r r' => r'.first = r.last + 1
  last : ∀ r ∈ ranges.getLast?, r.last = count
  code : ∀ t ∈ ts, t.kind = .code → ∃ r ∈ ranges, r.first ≤ t.start.line ∧
    t.start.line ≤ t.stop.line ∧ t.stop.line ≤ r.last
  nodes : merge = false → List.Forall₂ (fun n r => r.first ≤ n.start.line ∧
    n.start.line ≤ n.endLine ∧ n.endLine ≤ r.last) nodes ranges

/-- The tokens of a text stand one before the other, and what does not close it
stands on its lines. -/
theorem tokens_between {s : Text} {ts : List Token} (h : tokenize s = .ok ts) :
    ts.Pairwise Token.Precedes ∧ ∀ t ∈ ts, 1 ≤ t.start.line ∧ t.start.line ≤ t.stop.line ∧
      (t.kind ≠ .dedent → t.kind ≠ .endMarker → t.stop.line ≤ s.lines.length) := by
  obtain ⟨es, last, hlog, rfl⟩ := exists_log h
  obtain ⟨hlay, hpair⟩ := lay_between hlog.reads hlog.text_ne_nil 1
  have hclosing : ∀ t ∈ closing last (Place.start.advance s).pastEnd,
      (t.kind = .dedent ∨ t.kind = .endMarker) ∧ t.start = ⟨1 + height es, 0⟩ ∧
        t.stop = ⟨1 + height es, 0⟩ := by
    intro t ht
    rw [hlog.pastEnd_eq] at ht
    rcases mem_closing ht with rfl | rfl
    · exact ⟨Or.inl rfl, rfl, rfl⟩
    · exact ⟨Or.inr rfl, rfl, rfl⟩
  rw [← hlog.height_eq]
  constructor
  · refine List.pairwise_append.2 ⟨hpair, ?_, fun t ht u hu => ?_⟩
    · refine List.pairwise_iff_forall_sublist.2 fun {t u} hsub => ?_
      obtain ⟨hk, -, hstop⟩ := hclosing t (hsub.subset (by simp))
      obtain ⟨-, hstart, -⟩ := hclosing u (hsub.subset (by simp))
      refine ⟨by rw [hstop, hstart], fun hn => ?_⟩
      rcases hk with hk | hk <;> rw [hk] at hn <;> cases hn
    · obtain ⟨-, horder, hlast⟩ := hlay t ht
      obtain ⟨-, hstart, -⟩ := hclosing u hu
      rw [Token.Precedes, hstart]
      dsimp only
      exact ⟨by omega, fun _ => by omega⟩
  · intro t ht
    rcases List.mem_append.1 ht with ht | ht
    · obtain ⟨hfirst, horder, hlast⟩ := hlay t ht
      exact ⟨hfirst, horder, fun _ _ => by omega⟩
    · obtain ⟨hk, hstart, hstop⟩ := hclosing t ht
      rw [hstart, hstop]
      refine ⟨Nat.le_add_right _ _, Nat.le_refl _, fun h1 h2 => ?_⟩
      exact absurd hk (by simp [h1, h2])

section

variable {merge : Bool} {s : Text} {ts : List Token} {ranges : List LineRange}

theorem Grammar.Derives.mem {ss : List Statement} (h : Derives ss (Token.significant ts)) {t : Token}
    (ht : t ∈ ts) (hk : t.kind = .code) : ∃ q ∈ ss, t ∈ q.tokens := by
  have hmem : t ∈ ss.flatMap (·.tokens) := by
    rw [h.spells]
    exact List.mem_filter.2 ⟨ht, by rw [hk]; rfl⟩
  exact List.mem_flatMap.1 hmem

theorem Grammar.Derives.find {q : Statement} {ss : List Statement}
    (h : Derives (q :: ss) (Token.significant ts)) :
    (ts.find? fun t => t.kind = .code).map (·.start) = some q.node.start := by
  obtain ⟨t, rest, ht, hk, hstart⟩ := Statement.exists_head (h.valid q (by simp))
  have hfind : (Token.significant ts).find? (fun t => t.kind = .code) = some t := by
    rw [← h.spells, List.flatMap_cons, ht]
    simp [hk]
  have hcode : (fun t : Token => decide (t.kind.isSignificant = true ∧ decide (t.kind = .code) = true)) =
      fun t => decide (t.kind = .code) := by
    funext u
    cases u.kind <;> rfl
  rw [Token.significant, List.find?_filter, hcode] at hfind
  rw [hfind, Option.map_some, hstart]

theorem exists_of_forall₂ {α β : Type} {R : α → β → Prop} {l : List α} {m : List β}
    (h : List.Forall₂ R l m) {x : α} (hx : x ∈ l) : ∃ y ∈ m, R x y := by
  induction h with
  | nil => cases hx
  | @cons _ y _ _ hxy _ ih =>
    rcases List.mem_cons.1 hx with rfl | hx
    · exact ⟨y, List.mem_cons_self, hxy⟩
    · obtain ⟨y, hy, hxy⟩ := ih hx
      exact ⟨y, List.mem_cons_of_mem _ hy, hxy⟩

theorem partition_nil (h : ∀ t ∈ ts, t.kind ≠ .code) (count : Nat) :
    Partition merge ts [] count [] where
  empty := iff_of_true rfl h
  first := by
    rw [List.find?_eq_none.2 fun t ht => by simpa using h t ht]
    rfl
  proper := nofun
  next := .nil
  last := nofun
  code := fun t ht hk => absurd hk (h t ht)
  nodes := fun _ => .nil

theorem partition_of_tiles {q : Statement} {ss : List Statement} {count : Nat} {rs : List LineRange}
    (hder : Derives (q :: ss) (Token.significant ts))
    (hplace : ∀ t ∈ ts, 1 ≤ t.start.line ∧ t.start.line ≤ t.stop.line)
    (hhold : List.Forall₂ Statement.Holds (q :: ss) rs)
    (htiles : LineRange.Tiles q.node.start.line count ranges)
    (hparts : ∀ r ∈ rs, ∃ r' ∈ ranges, r'.first ≤ r.first ∧ r.last ≤ r'.last)
    (hsame : merge = false → ranges = rs) :
    Partition merge ts ((q :: ss).map (·.node)) count ranges := by
  obtain ⟨t, rest, ht, hk, hstart⟩ := Statement.exists_head (hder.valid q (by simp))
  have hmem : t ∈ ts := by
    have hsig : t ∈ Token.significant ts := by
      rw [← hder.spells, List.flatMap_cons, ht]
      simp
    exact (List.mem_filter.1 hsig).1
  have hone : 1 ≤ q.node.start.line := hstart ▸ (hplace t hmem).1
  refine ⟨iff_of_false htiles.ne_nil fun hno => hno t hmem hk, ?_, fun r hr => ?_,
    htiles.isChain, fun r hr => ?_, fun u hu huk => ?_, fun hm => ?_⟩
  · have hfind := congrArg (Option.map Position.line) hder.find
    rw [Option.map_map] at hfind
    exact htiles.head.trans hfind.symm
  · obtain ⟨h1, h2, -, h3⟩ := htiles.proper r hr
    exact ⟨Nat.le_trans hone h1, h2, h3⟩
  · have hlast := htiles.getLast
    rw [Option.mem_def.1 hr] at hlast
    exact Option.some.inj hlast
  · obtain ⟨p, hp, hup⟩ := hder.mem hu huk
    obtain ⟨r, hr, hpr⟩ := exists_of_forall₂ hhold hp
    obtain ⟨r', hr', h1, h2⟩ := hparts r hr
    obtain ⟨h3, h4⟩ := hpr.code u hup huk
    exact ⟨r', hr', Nat.le_trans h1 h3, (hplace u hu).2, Nat.le_trans h4 h2⟩
  · rw [hsame hm, List.forall₂_map_left_iff]
    exact hhold.imp fun p r h => ⟨Nat.le_of_eq h.first, h.order, h.last⟩

theorem starts_of_tokenize {nodes : List Node} (h : tokenize s = .ok ts)
    (ho : outline ts = .ok nodes) : (nodes.map (·.start.line)).Pairwise (· < ·) ∧
      ∀ n ∈ nodes.map (·.start.line), n ≤ s.lines.length := by
  obtain ⟨es, last, hlog, rfl⟩ := exists_log h
  have hsub := outline_lines hlog.reads ho
  refine ⟨(pairwise_rowStarts hlog.text_ne_nil 1).sublist hsub, fun n hn => ?_⟩
  have hlt := rowStarts_lt hlog.text_ne_nil (hsub.subset hn)
  rw [List.flatMap_map, ← height, hlog.height_eq] at hlt
  omega

/-- The ranges of a text part it. -/
theorem statementRanges_partition (h : tokenize s = .ok ts)
    (hr : statementRanges merge ts s.lines.length = .ok ranges) :
    ∃ nodes, outline ts = .ok nodes ∧ Partition merge ts nodes s.lines.length ranges := by
  obtain ⟨hpair, hplace⟩ := tokens_between h
  unfold statementRanges at hr
  split at hr
  · cases hr
  next nodes ho =>
  obtain ⟨ss, hder, rfl⟩ := derives_of_outline ho
  refine ⟨_, ho, ?_⟩
  have hstarts := starts_of_tokenize h ho
  rw [List.map_map] at hstarts
  have hlines : LineRange.startLines (ss.map (·.node)) = ss.map (·.node.start.line) := by
    rw [LineRange.startLines, List.map_map]
    exact ascending_of_pairwise hstarts.1
  have hsub : ∀ t ∈ ss.flatMap (·.tokens), t ∈ ts := by
    rw [hder.spells]
    exact fun t ht => (List.mem_filter.1 ht).1
  have hhold : List.Forall₂ Statement.Holds ss
      (LineRange.ofStarts s.lines.length (ss.map (·.node.start.line))) := by
    refine ranges_hold hder.valid (hder.spells ▸ hpair.filter _)
      (fun t ht => (hplace t (hsub t ht)).2.1) fun t ht hk => ?_
    obtain ⟨-, h1, h2⟩ := hplace t (hsub t ht)
    exact Nat.le_trans h1 (h2 (by simp [hk]) (by simp [hk]))
  cases hr
  rw [hlines]
  cases ss with
  | nil =>
    have hno : ∀ t ∈ ts, t.kind ≠ .code := by
      intro t ht hk
      obtain ⟨q, hq, -⟩ := hder.mem ht hk
      cases hq
    cases merge <;> exact partition_nil hno _
  | cons q ss =>
    have htiles := LineRange.tiles_ofStarts hstarts.1 hstarts.2
    have hplace' : ∀ t ∈ ts, 1 ≤ t.start.line ∧ t.start.line ≤ t.stop.line := fun t ht =>
      ⟨(hplace t ht).1, (hplace t ht).2.1⟩
    cases merge with
    | false =>
      exact partition_of_tiles hder hplace' hhold htiles
        (fun r hr => ⟨r, hr, Nat.le_refl _, Nat.le_refl _⟩) fun _ => rfl
    | true =>
      exact partition_of_tiles hder hplace' hhold htiles.mergeRuns.1 htiles.mergeRuns.2
        (by simp)

end

/-- The ranges of an analysis part the text that it was made of: the program without
its blank lines. -/
theorem analyse_partition {merge : Bool} {s : Text} {a : Analysis} (h : analyse merge s = .ok a) :
    ∃ us nodes, tokenize (joinLines a.lines) = .ok us ∧ outline us = .ok nodes ∧
      Partition merge us nodes a.lines.length a.ranges := by
  obtain ⟨ts, us, hts, hlines, -, hus, hranges⟩ := analyse_eq_ok.1 h
  have hcount : a.lines.length = (Text.lines (joinLines a.lines)).length := by
    obtain ⟨es, last, hlog, rfl⟩ := exists_log hts
    rw [hlog.removeBlankLines] at hlines
    obtain ⟨es', hlog', hrows, -⟩ := hlog.exists_cleaned
    rw [hlines, ← hlog'.height_eq, height_congr (hlog.lengths_of_cleaned hrows), height, solidRows,
      List.flatMap_map]
  rw [hcount] at hranges ⊢
  obtain ⟨nodes, ho, hpart⟩ := statementRanges_partition hus hranges
  exact ⟨us, nodes, hus, ho, hpart⟩

/-- A comment above all code is in no range, one behind a statement in its range;
two statements of a single line each are one range. -/
theorem analyse_partition_runs : ∃ a us nodes,
    analyse true "# a\n@b\nif c:\n  \'\'\'\n\n\'\'\'\n# d\n\ne\nf\n".toList = .ok a ∧
      a.ranges = [⟨2, 7, false⟩, ⟨8, 9, false⟩] ∧
      tokenize (joinLines a.lines) = .ok us ∧ outline us = .ok nodes ∧
      Partition true us nodes a.lines.length a.ranges := by
  have ha : analyse true "# a\n@b\nif c:\n  \'\'\'\n\n\'\'\'\n# d\n\ne\nf\n".toList = .ok
      ⟨["# a", "@b", "if c:", "  \'\'\'", "", "\'\'\'", "# d", "e", "f"].map (·.toList),
        [⟨2, 7, false⟩, ⟨8, 9, false⟩], true⟩ := by
    simp only [analyse, clean, tokensOf, tokenize, tokenizeWith, scan_eq_scanIn]
    decide +kernel
  obtain ⟨us, nodes, hus, ho, hpart⟩ := analyse_partition ha
  exact ⟨_, us, nodes, ha, rfl, hus, ho, hpart⟩

end Offside
