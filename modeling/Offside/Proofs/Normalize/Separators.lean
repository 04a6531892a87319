import Offside.Proofs.Layout.Nesting
import Offside.Proofs.Lexeme.Evaluate
import Offside.Proofs.Normalize.Output
import Offside.Proofs.Statement.Align

/-!
# Where separators stand

Every blank line of a normalized program is a separator, and a separator stands
where a statement of the outermost level ends and the next begins. The second
statement was found in the cleaned text; that the same token begins a statement
in the text that comes out is shown by reading both side by side.

A separator behind a backslash is left out: the text that comes out has tokens exactly if
there is none (`tokenize_output_iff`), and `normalize_again_ne` shows such a text.

Results:
* `Pass.behind_separator`: the row behind a separator, in the text that comes out
  and in the cleaned text;
* `Pass.separates`: what a blank line of the text that comes out is;
* `separates_of_normalize`: what every blank line of a normalized program is.
-/
namespace Offside

open Lexeme Text Layout

/-- What a blank line of a program is that was put in to end a statement: an
empty line behind the first, alone, with no bracket open, and before the first
token of a statement of the outermost level that is not the first. The margin
between them closes levels; comments in it share the line of that token. -/
structure Separates (nodes : List Node) (before : List Token) (b : Token) (after : List Token) :
    Prop where
  text : b.text = []
  line : 1 < b.start.line
  above : ∀ t ∈ before.getLast?, t.kind ≠ .blankLine
  below : ∀ t ∈ after.head?, t.kind ≠ .blankLine
  outside : nesting [] before = []
  followed : ∃ margin head rest, after = margin ++ head :: rest ∧
    (∀ t ∈ margin, t.kind = .comment ∧ t.start.line = head.start.line ∨ t.kind = .dedent) ∧
    head.kind = .code ∧ head.start ∈ nodes.tail.map (·.start)

theorem first_ne_blankLine {b head : Token} {after margin rest : List Token} {n : Nat}
    (h : b :: after = margin ++ head :: rest)
    (hm : ∀ t ∈ margin, t.kind = .comment ∧ t.start.line = n ∨ t.kind = .dedent)
    (hh : head.kind = .code) : b.kind ≠ .blankLine := by
  intro hb
  cases margin with
  | nil =>
    obtain ⟨rfl, -⟩ := List.cons.inj h
    rw [hh] at hb
    cases hb
  | cons m margin =>
    obtain ⟨rfl, -⟩ := List.cons.inj h
    rcases hm b (by simp) with ⟨hk, -⟩ | hk <;> rw [hk] at hb <;> cases hb

theorem nesting_before {r : Ruler} {last : Layout} {ds gs : List Entry} {f : Entry}
    (h : Reads r .start (ds ++ f :: gs) last) (hs : f.before.codeSeen = false) :
    nesting [] (lay 1 ds) = [] := by
  obtain ⟨k, hds, hf⟩ := h.split
  obtain ⟨⟨hsound, -⟩, -⟩ := hds.sound sound_start rfl
  have hk : k = f.before := by cases hf; rfl
  have hopened : k.opened = [] := by
    rw [Layout.opened, List.map_eq_nil_iff]
    by_contra hne
    have hseen := hsound.within hne
    rw [hk, hs] at hseen
    cases hseen
  have hnest : nesting [] (lay 1 ds) = k.opened := hds.nesting 1
  rw [hnest, hopened]

theorem separator_spec {e : LineEnding} {a : Analysis} {es fs : List Entry} {m : Layout} {f : Entry}
    {x : Token} (hr : Reads .standard .start fs m) (hrows : fs.map (·.row) = outputRows e a es)
    (hf : f ∈ fs) (hs : f.isSolid = false) (hx : f.strip = [x]) : x.text = [] ∧ x.start.line = 0 := by
  have hb : f.row.isBlank = true := by simpa [Entry.isSolid, Row.isSolid] using hs
  have hmem : f.row ∈ outputRows e a es := hrows ▸ List.mem_map_of_mem hf
  obtain ⟨q, hq, d, hd⟩ := mem_rewrite hmem
  have hqb : q.isBlank = true := by rw [hd, Row.recast_isBlank] at hb; exact hb
  have hempty : q = Row.empty := by
    have hcases : q = Row.empty ∨ q ∈ solidRows es := by
      unfold separatedRows at hq
      split at hq
      · exact Or.inl (List.mem_singleton.1 hq)
      · exact mem_separate hq
    apply hcases.resolve_right
    intro hsolid
    obtain ⟨k, hk, rfl⟩ := List.mem_map.1 hsolid
    have hes := (List.mem_filter.1 hk).2
    simp [Entry.isSolid, Row.isSolid, hqb] at hes
  have hspec := strip_spec hr rfl f hf
  rw [if_pos hb, hx, hd, hempty] at hspec
  obtain rfl := List.singleton_inj.1 hspec.2
  cases e <;> cases d <;> decide

namespace Pass

variable {o : Options} {s t : Text} {es : List Entry} {last : Layout} {a : Analysis}

theorem separatedLog_eq (h : Pass o s t es last a) (ht : t ≠ o.lineEnding.text) :
    separatedLog a es = separateLog a.separated 1 (es.filter Entry.isSolid) := by
  refine if_neg fun hc => ht ?_
  rw [← h.text_eq, outputRows, separatedRows, if_pos hc, hc.2]
  cases o.lineEnding <;> decide

theorem height_prefix (h : Pass o s t es last a) {es' ds ds' gs gs' : List Entry} {g g' : Entry}
    (hrows : es'.map (·.row) = Offside.rewrite .lf false (solidRows es))
    (hes : es.filter Entry.isSolid = ds ++ g :: gs) (hes' : es' = ds' ++ g' :: gs')
    (hlen : ds.length = ds'.length) : height ds = height ds' := by
  have hlines : es'.map (·.row.lines.length) =
      (es.filter Entry.isSolid).map (·.row.lines.length) := by
    have hheights : (Offside.rewrite .lf false (solidRows es)).map (·.lines.length) =
        (solidRows es).map (·.lines.length) :=
      lengths_rewrite h.text_ne_nil fun _ => h.getLast_solid
    rw [← hrows, solidRows, List.map_map, List.map_map] at hheights
    exact hheights
  rw [hes, hes', List.map_append, List.map_append] at hlines
  exact (height_congr (List.append_inj hlines (by simp [hlen])).1).symm

/-- The row behind a separator, in the log of the text that comes out and in
that of the cleaned text. -/
theorem behind_separator (h : Pass o s t es last a) {es' ds gs : List Entry} {f : Entry}
    (hrows : es'.map (·.row) = Offside.rewrite .lf false (solidRows es))
    (hall' : List.Forall₂ Entry.Alike (es.filter Entry.isSolid) es')
    (hall : List.Forall₂ Entry.Alike (separateLog a.separated 1 (es.filter Entry.isSolid))
      (ds ++ f :: gs)) (hf : f.isSolid = false) :
    ∃ cs' g' gs' g rest, es' = cs' ++ g' :: gs' ∧ gs = g :: rest ∧ ds ≠ [] ∧
      gists (lay 1 cs') = gists (lay 1 ds) ∧ gists g'.strip = gists g.strip ∧
      g'.before = g.before ∧ f.before = g.before ∧ 1 + height cs' ∈ a.separated := by
  have hsolid : ∀ e ∈ es.filter Entry.isSolid, e.isSolid = true := fun e he =>
    (List.mem_filter.1 he).2
  obtain ⟨p, sep, q, hlog, hp, hsep, hq⟩ := forall₂_split hall
  obtain ⟨cs, k, ks, qs, hes, rfl, rfl, hbefore, hmem⟩ :=
    separateLog_split hsolid (hsep.solid.trans hf) hlog
  obtain ⟨g, rest, hkg, -, rfl⟩ := List.forall₂_cons_left_iff.1 hq
  have hflip : List.Forall₂ (flip Entry.Alike) es' (cs ++ k :: ks) := by
    rw [← hes]
    exact hall'.flip
  obtain ⟨cs', g', gs', rfl, hcs, hkg', -⟩ := forall₂_split hflip
  have hcsolid : ∀ e ∈ cs, e.isSolid = true := fun e he => hsolid e (by simp [hes, he])
  refine ⟨cs', g', gs', g, rest, rfl, rfl, ?_, gists_separateLog hcsolid hcs.flip hp, ?_, ?_, ?_, ?_⟩
  · intro heq; subst heq
    have hone := h.one_lt_separated _ hmem
    cases cs with
    | nil => exact absurd hone (by simp [height])
    | cons c cs =>
      have hnil := List.forall₂_nil_right_iff.1 hp
      rw [separateLog] at hnil
      exact absurd hnil (by simp)
  · rw [← gists_alike (Entry.Alike.strip hkg'), gists_alike hkg.strip]
  · rw [← Entry.Alike.before hkg', hkg.before]
  · rw [← hsep.before, hbefore, hkg.before]
  · rwa [← h.height_prefix hrows hes rfl hcs.length_eq.symm]

theorem follows_separator (h : Pass o s t es last a) {es' ds gs : List Entry} {f : Entry}
    {p q : Position} {pairs : List (Token × Token)} {end' : List Token}
    (hrows : es'.map (·.row) = Offside.rewrite .lf false (solidRows es))
    (hall' : List.Forall₂ Entry.Alike (es.filter Entry.isSolid) es')
    (hall : List.Forall₂ Entry.Alike (separateLog a.separated 1 (es.filter Entry.isSolid))
      (ds ++ f :: gs)) (hr' : Reads .standard .start es' last)
    (hr : Reads .standard .start (ds ++ f :: gs) last) (hf : f.isSolid = false)
    (hne : ∀ row ∈ (ds ++ f :: gs).map (·.row), row.text ≠ [])
    (hpairs : List.Sublist pairs ((heads true (lay 1 es' ++ closing last p)).zip
      (heads true (lay 1 (ds ++ f :: gs) ++ closing last q))))
    (hsub : ∀ n ∈ a.separated, n ∈ (pairs.map (·.1.start.line)).tail) :
    0 < height ds ∧ f.before.codeSeen = false ∧ ∃ margin head rest,
      lay (1 + height ds + f.row.lines.length) gs ++ end' = margin ++ head :: rest ∧
      (∀ u ∈ margin, u.kind = .comment ∧ u.start.line = head.start.line ∨ u.kind = .dedent) ∧
      head.kind = .code ∧ head.start ∈ (pairs.map (·.2.start)).tail := by
  have hsheet' : Sheet (es'.map (·.row)) := hrows ▸ h.sheet_cleaned
  obtain ⟨cs', g', gs', g, rest, rfl, rfl, hds, hgds, hg, hbefore, hfbefore, hmem⟩ :=
    h.behind_separator hrows hall' hall hf
  have hpos : 0 < height ds := by
    obtain ⟨d, ds, rfl⟩ := List.exists_cons_of_ne_nil hds
    have := List.length_pos_iff.2 (Row.lines_ne_nil (hne d.row (by simp)))
    rw [height_cons]
    omega
  have hlay : gists (lay 1 cs') = gists (lay 1 (ds ++ [f])) := by
    have hblank := gists_blank hr rfl f (by simp) hf
    rw [hgds, gists_lay, gists_lay, List.flatMap_append, List.flatMap_singleton, hblank,
      List.append_nil]
  have hplace : 1 + height (ds ++ [f]) = 1 + height ds + f.row.lines.length := by
    simp [height, Nat.add_assoc]
  -- the separator goes with the rows before it, which say the same without it
  have hlog : ds ++ f :: g :: rest = (ds ++ [f]) ++ g :: rest := by simp
  rw [hlog] at hr hpairs hne
  obtain ⟨hseen, margin, y, ys, hys, hmargin, hy, hstart⟩ :=
    head_follows hr' hr (sheet_text_ne_nil hsheet') hne hlay hg hbefore hpairs (hsub _ hmem)
  rw [hplace] at hstart
  have hafter : ∀ k c, lay k (g :: rest) ++ c = margin.map (Token.down k) ++
      y.down k :: (ys.map (Token.down k) ++ (lay (k + g.row.lines.length) rest ++ c)) := by
    intro k c
    rw [lay, hys]
    simp
  refine ⟨hpos, hfbefore ▸ hseen, _, _, _, hafter _ _, ?_, hy, hstart⟩
  intro u hu
  obtain ⟨v, hv, rfl⟩ := List.mem_map.1 hu
  refine (hmargin v hv).imp_left fun hc => ⟨hc.1, ?_⟩
  simp [hc.2]

/-- What every blank line is that comes out. -/
theorem separates (h : Pass o s t es last a)
    (hfree : ∀ n ∈ a.separated, n ∉ joinedLines (joinLines a.lines)) (ht : t ≠ o.lineEnding.text) :
    ∃ ts nodes, tokenize t = .ok ts ∧ outline ts = .ok nodes ∧ ∀ before b after,
      ts = before ++ b :: after → b.kind = .blankLine → Separates nodes before b after := by
  obtain ⟨fs, hrows, hr, hall, htok⟩ := h.exists_output hfree
  rw [h.separatedLog_eq ht] at hall
  obtain ⟨es', nodes', hrows', hr', hall', ho, hsub, -⟩ := h.cleaned_tokens
  have hsolid : ∀ e ∈ es.filter Entry.isSolid, e.isSolid = true := fun e he =>
    (List.mem_filter.1 he).2
  have hgists : gists (lay 1 es' ++ closing last (Place.start.advance (joinLines a.lines)).pastEnd) =
      gists (lay 1 fs ++ closing last (Place.start.advance t).pastEnd) := by
    rw [gists_append, gists_append, gists_separateLog hsolid hall' hall,
      gists_closing last _ (Place.start.advance t).pastEnd]
  obtain ⟨nodes, pairs, hnodes, hpairs, hstarts', hstarts⟩ :=
    outline_starts_twin (akin_of_gists hgists) ho
  have hsheet : Sheet (fs.map (·.row)) := hrows ▸ h.sheet_output o.lineEnding
  have hlines : ∀ n ∈ a.separated, n ∈ (pairs.map (·.1.start.line)).tail := by
    intro n hn
    have hline := hsub.subset hn
    have heq := congrArg (List.map Position.line) hstarts'
    rw [List.map_map, List.map_map] at heq
    show n ∈ (pairs.map (Position.line ∘ fun q => q.1.start)).tail
    rw [← heq]
    exact hline
  have hcore : ∀ before b after,
      lay 1 fs ++ closing last (Place.start.advance t).pastEnd = before ++ b :: after →
      b.kind = .blankLine → b.text = [] ∧ 1 < b.start.line ∧ nesting [] before = [] ∧
        ∃ margin head rest, after = margin ++ head :: rest ∧
          (∀ t ∈ margin, t.kind = .comment ∧ t.start.line = head.start.line ∨ t.kind = .dedent) ∧
          head.kind = .code ∧ head.start ∈ nodes.tail.map (·.start) := by
    intro before b after hsplit hb
    have hspec : ∀ f ∈ fs, (f.isSolid = false ∧ ∃ x, f.strip = [x]) ∨
        ∀ x ∈ f.strip, x.kind ≠ .blankLine := by
      intro f hf
      have hf' := strip_spec hr rfl f hf
      split at hf'
      · next hfb => exact Or.inl ⟨by simp [Entry.isSolid, Row.isSolid, hfb], _, hf'.2⟩
      · exact Or.inr hf'
    obtain ⟨ds, f, gs, x, rfl, hf, hx, rfl, rfl, rfl⟩ :=
      lay_split hspec (blankLine_not_mem_closing _) hb hsplit
    obtain ⟨hxt, hxl⟩ := separator_spec hr hrows (by simp) hf hx
    obtain ⟨hpos, hseen, hfollowed⟩ := h.follows_separator hrows' hall' hall hr' hr hf
      (sheet_text_ne_nil hsheet) hpairs hlines
    rw [← hstarts, ← List.map_tail] at hfollowed
    refine ⟨hxt, ?_, nesting_before hr hseen, hfollowed⟩
    rw [Token.down_start, Position.down_line, hxl]
    omega
  refine ⟨_, nodes, htok, hnodes, fun before b after hsplit hb => ?_⟩
  obtain ⟨htext, hline, houtside, hfollowed⟩ := hcore before b after hsplit hb
  refine ⟨htext, hline, fun u hu hub => ?_, fun u hu => ?_, houtside, hfollowed⟩
  · rw [← List.dropLast_append_getLast? u hu, List.append_assoc, List.singleton_append] at hsplit
    obtain ⟨-, -, -, margin, head, rest, heq, hmargin, hhead, -⟩ := hcore _ u _ hsplit hub
    exact first_ne_blankLine heq hmargin hhead hb
  · obtain ⟨margin, head, rest, heq, hmargin, hhead, -⟩ := hfollowed
    obtain ⟨after', rfl⟩ : ∃ after', after = u :: after' := by
      cases after with
      | nil => cases hu
      | cons v after =>
        cases hu
        exact ⟨after, rfl⟩
    exact first_ne_blankLine heq hmargin hhead

end Pass

/-- Unless nothing but a line ending comes out or a separator is put behind a
backslash, a normalized program has tokens and statements, and each of its blank
lines ends a statement of the outermost level. -/
theorem separates_of_normalize {o : Options} {s t : Text} {a : Analysis}
    (h : normalize o s = .ok t) (ha : analyse o.mergeRuns s = .ok a)
    (hfree : ∀ r ∈ a.ranges.tail, r.first ∉ joinedLines (joinLines a.lines))
    (ht : t ≠ o.lineEnding.text) :
    ∃ ts nodes, tokenize t = .ok ts ∧ outline ts = .ok nodes ∧ ∀ before b after,
      ts = before ++ b :: after → b.kind = .blankLine → Separates nodes before b after := by
  obtain ⟨es, last, b, hp⟩ := exists_pass h
  obtain rfl : a = b := Except.ok.inj (ha.symm.trans hp.analysed)
  exact hp.separates (Analysis.forall_separated.2 hfree) ht

theorem separates_of_suite :
    normalize ⟨.lf, true⟩ "if a:\n  b\nc\n".toList = .ok "if a:\n  b\n\nc\n".toList ∧
      ∃ ts nodes, tokenize "if a:\n  b\n\nc\n".toList = .ok ts ∧ outline ts = .ok nodes ∧
        ∀ before b after, ts = before ++ b :: after → b.kind = .blankLine →
          Separates nodes before b after := by
  have h : normalize ⟨.lf, true⟩ "if a:\n  b\nc\n".toList = .ok "if a:\n  b\n\nc\n".toList := by
    simp only [normalize, analyse, clean, tokensOf, tokenize, tokenizeWith, scan_eq_scanIn]
    decide +kernel
  have ha : analyse true "if a:\n  b\nc\n".toList =
      .ok ⟨["if a:".toList, "  b".toList, "c".toList], [.between 1 2, .between 3 3], true⟩ := by
    simp only [analyse, clean, tokensOf, tokenize, tokenizeWith, scan_eq_scanIn]
    decide +kernel
  have hfree : ∀ r ∈ [LineRange.between 3 3],
      r.first ∉ joinedLines (joinLines ["if a:".toList, "  b".toList, "c".toList]) := by
    simp only [joinedLines, scan_eq_scanIn]
    decide +kernel
  exact ⟨h, separates_of_normalize h ha hfree (by decide)⟩

/-- A program of one empty line keeps it, and no statement stands behind it. A
comment that a carriage return ends can stand between a separator and the code
behind it, whose depth a form feed has set back to nothing. -/
theorem blankLine_elsewhere :
    (normalize ⟨.lf, true⟩ "\n".toList = .ok "\n".toList ∧
      ∃ b after, tokenize "\n".toList = .ok (b :: after) ∧ b.kind = .blankLine ∧
        b.start.line = 1 ∧ ∀ u ∈ after, u.kind ≠ .code) ∧
    normalize ⟨.lf, false⟩ "a\n# c\r\x0cb\n".toList = .ok "a\n\n# c\r\x0cb\n".toList ∧
      ∃ before b c after, tokenize "a\n\n# c\r\x0cb\n".toList = .ok (before ++ b :: c :: after) ∧
        b.kind = .blankLine ∧ c.kind = .comment := by
  refine ⟨⟨?_, ⟨.blankLine, ⟨1, 0⟩, ⟨1, 0⟩, []⟩, [⟨.endMarker, ⟨2, 0⟩, ⟨2, 0⟩, []⟩], ?_, rfl, rfl, ?_⟩,
    ?_, [⟨.code, ⟨1, 0⟩, ⟨1, 1⟩, ['a']⟩, ⟨.newline, ⟨1, 1⟩, ⟨1, 2⟩, ['\n']⟩],
    ⟨.blankLine, ⟨2, 0⟩, ⟨2, 0⟩, []⟩, ⟨.comment, ⟨3, 0⟩, ⟨3, 3⟩, "# c".toList⟩,
    [⟨.code, ⟨3, 5⟩, ⟨3, 6⟩, ['b']⟩, ⟨.newline, ⟨3, 6⟩, ⟨3, 7⟩, ['\n']⟩,
      ⟨.endMarker, ⟨4, 0⟩, ⟨4, 0⟩, []⟩], ?_, rfl, rfl⟩
  · simp only [normalize, analyse, clean, tokensOf, tokenize, tokenizeWith, scan_eq_scanIn]
    decide +kernel
  · simp only [tokenize, tokenizeWith, scan_eq_scanIn]
    decide +kernel
  · decide
  · simp only [normalize, analyse, clean, tokensOf, tokenize, tokenizeWith, scan_eq_scanIn]
    decide +kernel
  · simp only [tokenize, tokenizeWith, scan_eq_scanIn]
    decide +kernel

end Offside
