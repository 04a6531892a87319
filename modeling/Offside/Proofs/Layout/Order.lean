import Offside.Proofs.Layout.Blank
import Offside.Proofs.Layout.Margin

/-!
# The order of tokens

A token stands where its lexeme does, and the mark of the end of a line behind it.
The marks of a blank line and of a level that opens begin where their line does,
whatever stands there. Only white space can stand before the end of a line that
holds nothing. Before the first code of a logical line a comment can stand too, one
that a carriage return ends and not its line: the mark of a level then begins above
the end of that comment, and takes it in.

Results:
* `step_gives`: the tokens that a move can give;
* `Layout.Stands.step`, `Layout.Stands.reads`: what stands on a line before the place
  that was reached;
* `tokenize_order`: tokens follow one another, but for a comment and the mark of a
  level on its line.
-/
namespace Offside

open Lexeme Text Layout

/-! ## What a move can give -/

/-- The tokens that a move on a piece can give. -/
inductive Piece.Gives (p : Piece) : Token → Prop
  | indent : p.kind.isCode = true →
    p.Gives ⟨.indent, p.start.lineStart, p.start.position, p.start.margin⟩
  | dedent : p.kind.isCode = true → p.Gives (.mark .dedent p.start.position)
  | code : p.kind.isCode = true → p.Gives (p.token .code)
  | comment : p.kind = .comment → p.Gives (p.token .comment)
  | newline : p.kind = .newline → p.Gives (lineEnd p .newline)
  | lineBreak : p.kind = .newline → p.Gives (lineEnd p .lineBreak)
  | blankLine : p.kind = .newline → p.Gives (Layout.blankLine p.start)

namespace Layout

variable {r : Ruler} {s last : Layout} {p : Piece} {t : Token}

theorem mem_andThen {a : Step} {f : Layout → Step} (h : t ∈ (a.andThen f).emitted) :
    t ∈ a.emitted ∨ ∃ m, t ∈ (f m).emitted := by
  unfold Step.andThen at h
  split at h
  · exact Or.inl h
  · exact (List.mem_append.1 h).imp_right fun hf => ⟨_, hf⟩

theorem mem_closeBracket (h : t ∈ (closeBracket s p).emitted) : t = p.token .code := by
  unfold closeBracket at h
  dsimp only at h
  split at h
  · split at h
    · exact List.mem_singleton.1 h
    · cases h
  · cases h

theorem code_gives (hk : p.kind.isCode = true) {f : Layout → Step}
    (hf : ∀ m, ∀ u ∈ (f m).emitted, u = p.token .code)
    (h : t ∈ ((beginCode r s p.start).andThen f).emitted) : p.Gives t := by
  rcases mem_andThen h with h | ⟨m, h⟩
  · rcases mem_beginCode h with rfl | rfl
    · exact .indent hk
    · exact .dedent hk
  · rw [hf m t h]
    exact .code hk

theorem endLine_gives (hk : p.kind = .newline) (h : t ∈ (endLine s p).emitted) : p.Gives t := by
  unfold endLine at h
  split at h
  · split at h <;> rw [List.mem_singleton.1 h]
    · exact .newline hk
    · exact .lineBreak hk
  · split at h
    · cases h
    · rw [List.mem_singleton.1 h]
      exact .blankLine hk

/-- The tokens that a move can give. -/
theorem step_gives (h : t ∈ (step r s p).emitted) : p.Gives t := by
  unfold step at h
  cases hk : p.kind with
  | space | continuation => rw [hk] at h; cases h
  | comment =>
    rw [hk] at h
    rw [List.mem_singleton.1 h]
    exact .comment hk
  | newline =>
    rw [hk] at h
    exact endLine_gives hk h
  | opener | literal style | word | punct =>
    simp only [hk] at h
    exact code_gives (by rw [hk]; rfl) (fun m u hu => List.mem_singleton.1 hu) h
  | closer =>
    simp only [hk] at h
    exact code_gives (by rw [hk]; rfl) (fun m u hu => mem_closeBracket hu) h

theorem step_margin {margin : List Token} (h : (step r s p).emitted = margin ++ [p.token .code])
    (hm : IsMargin margin) :
    margin = [⟨.indent, p.start.lineStart, p.start.position, p.start.margin⟩] ∨
      ∀ u ∈ margin, u = .mark .dedent p.start.position := by
  have hgives : ∀ u ∈ margin, p.Gives u := fun u hu => step_gives (by rw [h]; simp [hu])
  rcases hm with ⟨u, rfl, hu⟩ | hm
  · refine Or.inl ?_
    cases hgives u (by simp) with
    | indent => rfl
    | dedent | code | comment | newline | lineBreak | blankLine => cases hu
  · refine Or.inr fun u hu => ?_
    have hk := hm u hu
    cases hgives u hu with
    | dedent => rfl
    | indent | code | comment | newline | lineBreak | blankLine => cases hk

end Layout

/-! ## Positions -/

theorem Position.Before.trans {p q r : Position} (h : p.Before q) (h' : q.Before r) :
    p.Before r := by
  unfold Position.Before at h h' ⊢
  omega

theorem Position.Before.line_le {p q : Position} (h : p.Before q) : p.line ≤ q.line := by
  unfold Position.Before at h
  omega

theorem Position.before_refl (p : Position) : p.Before p := Or.inr ⟨rfl, Nat.le_refl _⟩

theorem Place.before_advance (q : Place) (t : Text) : q.position.Before (q.advance t).position := by
  induction t generalizing q with
  | nil => exact Position.before_refl _
  | cons c t ih =>
    refine Position.Before.trans ?_ (ih (q.step c))
    unfold Place.step
    split
    · exact Or.inl (Nat.lt_succ_self q.line)
    · exact Or.inr ⟨rfl, by simp [Place.position]⟩

theorem Place.before_pastEnd (q : Place) : q.position.Before q.pastEnd := by
  unfold Place.pastEnd
  split
  · next h => exact Or.inr ⟨rfl, by simp [Place.position, List.isEmpty_iff.1 h]⟩
  · exact Or.inl (Nat.lt_succ_self q.line)

theorem Place.advance_lineEnd {l : Lexeme} (h : Valid l)
    (hk : l.kind = .newline ∨ l.kind = .continuation) (q : Place) :
    q.advance l.text = ⟨q.line + 1, []⟩ := by
  obtain ⟨kind, text⟩ := l
  rcases hk with rfl | rfl <;> rcases h with rfl | rfl <;> rfl

/-! ## Tokens behind tokens -/

/-- The comment `t` stands on the line on which the token `u` opens a level. -/
def Token.Overlaps (t u : Token) : Prop :=
  t.kind = .comment ∧ u.kind = .indent ∧ t.stop.line = u.start.line

instance (t u : Token) : Decidable (t.Overlaps u) := inferInstanceAs (Decidable (_ ∧ _ ∧ _))

/-- How the token `u` stands behind the token `t?` before it, if there is one. -/
structure Token.Behind (t? : Option Token) (u : Token) : Prop where
  order : ∀ t ∈ t?, t.stop.Before u.start ↔ ¬ t.Overlaps u
  indent : u.kind = .indent → (Vacant u.text ↔ ∀ t ∈ t?, ¬ t.Overlaps u)
  blank : u.kind = .blankLine → Vacant u.text

/-- Tokens behind `t?`, each as it stands behind the one before it. -/
def Arrayed : Option Token → List Token → Prop
  | _, [] => True
  | t?, u :: us => u.Behind t? ∧ Arrayed (some u) us

section arrayed

variable {t? : Option Token} {us vs : List Token} {u : Token}

theorem arrayed_append :
    Arrayed t? (us ++ vs) ↔ Arrayed t? us ∧ Arrayed (us.getLast?.or t?) vs := by
  induction us generalizing t? with
  | nil => simp [Arrayed]
  | cons u us ih =>
    have hlast : us.getLast?.or (some u) = (u :: us).getLast?.or t? := by
      cases us <;> simp [List.getLast?_cons]
    rw [List.cons_append, Arrayed, Arrayed, ih, hlast, and_assoc]

theorem forall_mem_some {P : Token → Prop} (h : P u) : ∀ t ∈ some u, P t := by
  intro t ht
  obtain rfl := Option.some.inj ht
  exact h

theorem arrayed_singleton : Arrayed t? [u] ↔ u.Behind t? := and_iff_left trivial

theorem Token.behind_of_before (hi : u.kind ≠ .indent) (hb : u.kind ≠ .blankLine)
    (h : ∀ t ∈ t?, t.stop.Before u.start) : u.Behind t? :=
  ⟨fun t ht => iff_of_true (h t ht) fun ho => hi ho.2.1, fun hk => absurd hk hi,
    fun hk => absurd hk hb⟩

theorem arrayed_marks {q : Position} (hu : ∀ u ∈ us, u = .mark .dedent q)
    (h : ∀ t ∈ t?, t.stop.Before q) :
    Arrayed t? us ∧ ∀ t ∈ us.getLast?.or t?, t.stop.Before q := by
  induction us generalizing t? with
  | nil => exact ⟨trivial, h⟩
  | cons u us ih =>
    obtain ⟨rfl, hus⟩ := List.forall_mem_cons.1 hu
    have hmark : ∀ t ∈ some (Token.mark .dedent q), t.stop.Before q :=
      forall_mem_some (Position.before_refl q)
    obtain ⟨h1, h2⟩ := ih hus hmark
    refine ⟨⟨Token.behind_of_before nofun nofun h, h1⟩, fun t ht => h2 t ?_⟩
    cases us <;> simpa [List.getLast?_cons] using ht

end arrayed

/-! ## What stands before the place that was reached -/

/-- How the machine stands at a place, `t?` being the last token before it. While the
line holds nothing, only white space stands on it. When it holds something but the
logical line no code, that is a comment, and nothing came behind it. -/
structure Layout.Stands (s : Layout) (q : Place) (t? : Option Token) : Prop where
  behind : ∀ t ∈ t?, t.stop.Before q.position
  vacant : s.lineHeld = false → Vacant q.margin ∧ ∀ t ∈ t?, t.stop.line < q.line
  comment : s.lineHeld = true → s.codeSeen = false → ¬ Vacant q.margin ∧
    ∃ t ∈ t?, t.kind = .comment ∧ t.stop.line = q.line ∧ 0 < t.stop.column

namespace Layout.Stands

variable {r : Ruler} {s last : Layout} {p : Piece} {q : Place} {t? : Option Token}

theorem start : Layout.start.Stands .start none :=
  ⟨nofun, fun _ => ⟨by simp [Vacant, Place.margin, Place.start], nofun⟩, nofun⟩

theorem unplaced (h : s.Stands q t?) : s.unplaced.Stands q t? := ⟨h.behind, h.vacant, h.comment⟩

theorem fresh {n : Nat} (hs : s.lineHeld = false) (h : ∀ t ∈ t?, t.stop.line < n) :
    s.Stands ⟨n, []⟩ t? :=
  ⟨fun t ht => Or.inl (h t ht), fun _ => ⟨by simp [Vacant, Place.margin], h⟩,
    fun hh => by rw [hs] at hh; cases hh⟩

theorem seen {t : Token} (hh : s.lineHeld = true) (hc : s.codeSeen = true)
    (h : t.stop.Before q.position) : s.Stands q (some t) := by
  refine ⟨forall_mem_some h, fun hf => ?_, fun _ hf => ?_⟩
  · rw [hh] at hf; cases hf
  · rw [hc] at hf; cases hf

theorem space (h : s.Stands q t?) {w : Text} (hw : ∀ c ∈ w, isSpace c = true) :
    s.Stands (q.advance w) t? := by
  have hno : '\n' ∉ w := newline_not_mem_of_all rfl hw
  have hmargin : (q.advance w).margin = q.margin ++ w := by
    simp [advance_of_no_newline hno, Place.margin]
  have hvacant : Vacant (q.advance w).margin ↔ Vacant q.margin := by
    rw [hmargin, Vacant, List.forall_mem_append]
    exact and_iff_left hw
  have hline : (q.advance w).line = q.line := by rw [advance_of_no_newline hno]
  refine ⟨fun t ht => (h.behind t ht).trans (q.before_advance w), ?_, ?_⟩
  · rw [hvacant, hline]
    exact h.vacant
  · rw [hvacant, hline]
    exact h.comment

theorem indent (h : s.Stands q t?) (hc : s.codeSeen = false) :
    Token.Behind t? ⟨.indent, q.lineStart, q.position, q.margin⟩ := by
  cases hh : s.lineHeld with
  | false =>
    obtain ⟨hvacant, habove⟩ := h.vacant hh
    have hnone : ∀ t ∈ t?, ¬ t.Overlaps ⟨.indent, q.lineStart, q.position, q.margin⟩ :=
      fun t ht ho => Nat.ne_of_lt (habove t ht) ho.2.2
    exact ⟨fun t ht => iff_of_true (Or.inl (habove t ht)) (hnone t ht),
      fun _ => iff_of_true hvacant hnone, nofun⟩
  | true =>
    obtain ⟨hvacant, t, ht, hk, hline, hcolumn⟩ := h.comment hh hc
    obtain rfl := Option.mem_def.1 ht
    have ho : t.Overlaps ⟨.indent, q.lineStart, q.position, q.margin⟩ := ⟨hk, rfl, hline⟩
    refine ⟨forall_mem_some ?_, fun _ => ?_, nofun⟩
    · refine iff_of_false (fun hb => ?_) (not_not.2 ho)
      simp only [Position.Before, Place.lineStart] at hb
      omega
    · exact iff_of_false hvacant fun hnone => hnone t rfl ho

theorem blankLine (h : s.Stands q t?) (hh : s.lineHeld = false) :
    Token.Behind t? (Layout.blankLine q) := by
  obtain ⟨hvacant, habove⟩ := h.vacant hh
  refine ⟨fun t ht => ?_, nofun, fun _ => hvacant⟩
  exact iff_of_true (Or.inl (habove t ht)) fun ho => by cases ho.2.1

theorem step_comment (h : s.Stands p.start t?) (hv : Valid ⟨p.kind, p.text⟩)
    (hk : p.kind = .comment) :
    Arrayed t? [p.token .comment] ∧
      Layout.Stands { s with lineHeld := true, joined? := none } p.stop (some (p.token .comment)) := by
  have hno := newline_not_mem_of_valid hv (Or.inr hk)
  have hstop : p.stop = ⟨p.start.line, p.text.reverse ++ p.start.behind⟩ := advance_of_no_newline hno _
  rw [hk] at hv
  obtain ⟨text, htext, -⟩ : ∃ text, p.text = '#' :: text ∧ _ := hv
  refine ⟨arrayed_singleton.2 (Token.behind_of_before nofun nofun h.behind),
    forall_mem_some (Position.before_refl _), nofun, fun _ _ => ?_⟩
  refine ⟨fun hvacant => ?_, p.token .comment, rfl, rfl, rfl, ?_⟩
  · have hmark := hvacant '#' (by simp [hstop, htext, Place.margin])
    cases hmark
  · have hpos := Char.utf8Size_pos '#'
    simp only [Piece.token, Place.position, hstop, htext, byteSize_append, byteSize_reverse,
      byteSize_cons]
    omega

theorem step_code (h : s.Stands p.start t?) {margin : List Token}
    (he : (step r s p).emitted = margin ++ [p.token .code]) (hm : IsMargin margin)
    (hc : s.codeSeen = true → margin = []) :
    Arrayed t? (margin ++ [p.token .code]) := by
  have hcode : ∀ {u? : Option Token}, (∀ u ∈ u?, u.stop.Before p.start.position) →
      Arrayed u? [p.token .code] := fun hu =>
    arrayed_singleton.2 (Token.behind_of_before nofun nofun hu)
  rw [arrayed_append]
  rcases step_margin he hm with rfl | hm
  · have hfirst : s.codeSeen = false := by
      by_contra hseen
      simpa using hc (by simpa using hseen)
    exact ⟨arrayed_singleton.2 (h.indent hfirst), hcode (forall_mem_some (Position.before_refl _))⟩
  · obtain ⟨h1, h2⟩ := arrayed_marks hm h.behind
    exact ⟨h1, hcode h2⟩

theorem step_newline (h : s.Stands p.start t?) (hv : Valid ⟨p.kind, p.text⟩)
    (hk : p.kind = .newline) (hf : (endLine s p).fault? = none) :
    Arrayed t? (endLine s p).emitted ∧
      (endLine s p).next.Stands p.stop ((endLine s p).emitted.getLast?.or t?) := by
  have hstop : p.stop = ⟨p.start.line + 1, []⟩ := Place.advance_lineEnd hv (Or.inl hk) p.start
  have hend : ∀ kind, kind ≠ .indent → kind ≠ .blankLine → Arrayed t? [lineEnd p kind] :=
    fun kind hi hb => arrayed_singleton.2 (Token.behind_of_before hi hb h.behind)
  have hbelow : ∀ t : Token, t.stop.line = p.start.line → ∀ u ∈ [t].getLast?.or t?,
      u.stop.line < p.start.line + 1 := fun t ht =>
    forall_mem_some (Nat.lt_succ_of_le (Nat.le_of_eq ht))
  rw [hstop]
  rcases endLine_spec rfl hf with ⟨-, -, -, he, hn⟩ | ⟨-, -, he, hn⟩ | ⟨hh, -, he, hn⟩ <;> rw [he, hn]
  · exact ⟨hend _ nofun nofun, fresh rfl (hbelow _ rfl)⟩
  · exact ⟨hend _ nofun nofun, fresh rfl (hbelow _ rfl)⟩
  · exact ⟨arrayed_singleton.2 (h.blankLine hh), fresh hh (hbelow _ rfl)⟩

/-- What a move gives stands behind the token before it, and the machine stands behind
what it gave. -/
theorem step (h : s.Stands p.start t?) (hv : Valid ⟨p.kind, p.text⟩)
    (hf : (Layout.step r s p).fault? = none) :
    Arrayed t? (Layout.step r s p).emitted ∧
      (Layout.step r s p).next.Stands p.stop ((Layout.step r s p).emitted.getLast?.or t?) := by
  cases hi : p.kind.isInner with
  | true =>
    rcases step_inner hi hf with ⟨hk, he, hn⟩ | ⟨hk, he, hn⟩ |
      ⟨-, margin, levels, brackets, he, hm, hc, hn⟩
    · rw [he, hn]
      rw [hk] at hv
      exact ⟨trivial, h.space hv.2⟩
    · rw [he, hn]
      exact h.step_comment hv hk
    · have harrayed := h.step_code he hm hc
      rw [he, hn]
      refine ⟨harrayed, ?_⟩
      rw [List.getLast?_append, List.getLast?_singleton]
      exact seen rfl rfl (Position.before_refl _)
  | false =>
    cases hk : p.kind with
    | newline =>
      have hstep : Layout.step r s p = endLine s p := by rw [Layout.step, hk]
      rw [hstep] at hf ⊢
      exact h.step_newline hv hk hf
    | continuation =>
      have hstop : p.stop = ⟨p.start.line + 1, []⟩ := Place.advance_lineEnd hv (Or.inr hk) p.start
      rw [hstop, Layout.step, hk]
      exact ⟨trivial, fresh rfl fun t ht => Nat.lt_succ_of_le (h.behind t ht).line_le⟩
    | space | comment | opener | closer | literal | word | punct => rw [hk] at hi; cases hi

/-- So for all moves on lexemes that follow one another. -/
theorem reads {ls : List Lexeme} {ts : List Token} (h : s.Stands q t?) (hv : ∀ l ∈ ls, Valid l)
    (hr : Layout.reads r s (Piece.placed q ls) = some (ts, last)) :
    Arrayed t? ts ∧ last.Stands (q.advance (textOf ls)) (ts.getLast?.or t?) := by
  induction ls generalizing s q t? ts with
  | nil =>
    obtain ⟨rfl, rfl⟩ := reads_nil.1 hr
    exact ⟨trivial, h.unplaced⟩
  | cons l ls ih =>
    obtain ⟨hl, hls⟩ := List.forall_mem_cons.1 hv
    obtain ⟨hf, us, hrest, rfl⟩ := reads_cons.1 hr
    obtain ⟨hhere, hstands⟩ := h.step (p := ⟨l.kind, q, l.text, Piece.leadOf l.text⟩) hl hf
    obtain ⟨hbelow, hlast⟩ := ih hstands hls hrest
    refine ⟨arrayed_append.2 ⟨hhere, hbelow⟩, ?_⟩
    rw [textOf_cons, Place.advance_append, List.getLast?_append, Option.or_assoc]
    exact hlast

theorem closeLine (h : s.Stands q t?) : Arrayed t? (Layout.closeLine s q) ∧
    ∀ t ∈ (Layout.closeLine s q).getLast?.or t?, t.stop.Before q.pastEnd := by
  have hstop : ∀ t : Token, t.stop = q.position →
      ∀ u ∈ [t].getLast?.or t?, u.stop.Before q.pastEnd := fun t ht =>
    forall_mem_some (ht ▸ q.before_pastEnd)
  unfold Layout.closeLine
  split
  · refine ⟨arrayed_singleton.2 (Token.behind_of_before ?_ ?_ h.behind), hstop _ rfl⟩ <;>
      cases s.codeSeen <;> exact nofun
  · next hh =>
    split
    · exact ⟨trivial, fun t ht => (h.behind t ht).trans q.before_pastEnd⟩
    · exact ⟨arrayed_singleton.2 (h.blankLine (by simpa using hh)), hstop _ rfl⟩

end Layout.Stands

theorem arrayed_closing {last : Layout} {q : Position} {t? : Option Token}
    (h : ∀ t ∈ t?, t.stop.Before q) : Arrayed t? (closing last q) := by
  have hdedents : ∀ u ∈ last.levels.map fun _ => Token.mark .dedent q, u = .mark .dedent q :=
    fun u hu => by obtain ⟨-, -, rfl⟩ := List.mem_map.1 hu; rfl
  obtain ⟨hmarks, hbehind⟩ := arrayed_marks hdedents h
  exact arrayed_append.2 ⟨hmarks, arrayed_singleton.2 (Token.behind_of_before nofun nofun hbehind)⟩

/-! ## Token streams -/

theorem textOf_lexemes {r : Ruler} {s : Text} {ts : List Token} (h : tokenizeWith r s = .ok ts) :
    s = textOf (scan s).lexemes :=
  (scan_eq_iff.1 (congrArg (Scan.mk (scan s).lexemes) (stop_of_tokenizeWith h))).1

theorem arrayed_of_tokenizeWith {r : Ruler} {s : Text} {ts : List Token}
    (h : tokenizeWith r s = .ok ts) : Arrayed none ts := by
  have htext := textOf_lexemes h
  obtain ⟨us, m, hr, -, rfl⟩ := (tokenizeWith_eq_ok (stop_of_tokenizeWith h)).1 h
  obtain ⟨hus, hstands⟩ := Layout.Stands.start.reads (cut_scan s).valid hr
  rw [← htext] at hstands
  obtain ⟨hline, hpast⟩ := hstands.closeLine
  rw [arrayed_append, List.getLast?_append, Option.or_assoc, arrayed_append]
  exact ⟨⟨hus, hline⟩, arrayed_closing hpast⟩

/-- The order of tokens. A token ends no later than the next one begins, unless it is a
comment and the next one opens a level on its line. The mark of a level holds nothing
but white space unless a comment stands before it on its line, and the mark of a blank
line holds nothing else at all. -/
theorem tokenize_order {s : Text} {ts : List Token} (h : tokenize s = .ok ts) :
    (∀ as t u bs, ts = as ++ t :: u :: bs → (t.stop.Before u.start ↔ ¬ t.Overlaps u)) ∧
    (∀ as u bs, ts = as ++ u :: bs → u.kind = .indent →
      (Vacant u.text ↔ ∀ t ∈ as.getLast?, ¬ t.Overlaps u)) ∧
    ∀ t ∈ ts, t.kind = .blankLine → Vacant t.text := by
  have hbehind : ∀ as u bs, ts = as ++ u :: bs → u.Behind as.getLast? := by
    rintro as u bs rfl
    have hu := (arrayed_append.1 (arrayed_of_tokenizeWith h)).2.1
    rwa [Option.or_none] at hu
  refine ⟨fun as t u bs he => ?_, fun as u bs he => (hbehind as u bs he).indent, fun t ht => ?_⟩
  · have hu := hbehind (as ++ [t]) u bs (by simp [he])
    exact hu.order t (by simp)
  · obtain ⟨as, bs, he⟩ := List.append_of_mem ht
    exact (hbehind as t bs he).blank

/-- A comment that a carriage return ends, on the line of a block: the mark of the level
begins above its end and takes it in. -/
theorem tokenize_order_comment :
    ∃ as c i bs, tokenize "if a:\n#c\r b\n".toList = .ok (as ++ c :: i :: bs) ∧
      c = ⟨.comment, ⟨2, 0⟩, ⟨2, 2⟩, ['#', 'c']⟩ ∧
      i = ⟨.indent, ⟨2, 0⟩, ⟨2, 4⟩, ['#', 'c', '\r', ' ']⟩ ∧
      ¬ c.stop.Before i.start ∧ ¬ Vacant i.text ∧
      (c.stop.Before i.start ↔ ¬ c.Overlaps i) ∧
      (Vacant i.text ↔ ∀ t ∈ (as ++ [c]).getLast?, ¬ t.Overlaps i) := by
  let as : List Token := [⟨.code, ⟨1, 0⟩, ⟨1, 2⟩, ['i', 'f']⟩, ⟨.code, ⟨1, 3⟩, ⟨1, 4⟩, ['a']⟩,
    ⟨.code, ⟨1, 4⟩, ⟨1, 5⟩, [':']⟩, ⟨.newline, ⟨1, 5⟩, ⟨1, 6⟩, ['\n']⟩]
  let c : Token := ⟨.comment, ⟨2, 0⟩, ⟨2, 2⟩, ['#', 'c']⟩
  let i : Token := ⟨.indent, ⟨2, 0⟩, ⟨2, 4⟩, ['#', 'c', '\r', ' ']⟩
  let bs : List Token := [⟨.code, ⟨2, 4⟩, ⟨2, 5⟩, ['b']⟩, ⟨.newline, ⟨2, 5⟩, ⟨2, 6⟩, ['\n']⟩,
    .mark .dedent ⟨3, 0⟩, .mark .endMarker ⟨3, 0⟩]
  have hok : tokenize "if a:\n#c\r b\n".toList = .ok (as ++ c :: i :: bs) := by
    simp only [tokenize, tokenizeWith, scan_eq_scanIn]
    decide +kernel
  have hmark : ¬ Vacant i.text := fun hv => Bool.false_ne_true (hv '#' List.mem_cons_self)
  obtain ⟨horder, hindent, -⟩ := tokenize_order hok
  exact ⟨as, c, i, bs, hok, rfl, rfl, by decide, hmark, horder as c i bs rfl,
    hindent (as ++ [c]) i bs (by simp) rfl⟩

end Offside
