import Offside.Proofs.Layout.Shift
import Offside.Proofs.Lexeme.Reline
import Mathlib.Data.List.Forall2

/-!
# The moves of the machine

What a move within a line can come to, said once (`step_inner`), and what all
moves keep.

Results:
* `indentTo_forms`: what measuring a line can come to, also if it is refused;
* `indentTo_cases`: the lines that are accepted, and what each comes to;
* `Sound.step`: only a line that holds nothing waits behind a backslash, and
  brackets are open only within a logical line;
* `reads_recast`: lexemes of lines that are ended otherwise give the tokens of
  these lines.
-/
namespace Offside

open Lexeme Text

/-- The kinds whose characters are those of the program. -/
def Token.Kind.isContent : Token.Kind → Bool
  | .code | .comment | .indent => true
  | _ => false

/-- The same token, up to what ends a line: characters may differ in carriage
returns before newlines, and the marks of line ends in more than that. -/
structure Token.Alike (a b : Token) : Prop where
  kind : a.kind = b.kind
  line : a.start.line = b.start.line
  content : a.kind.isContent = true → a.start = b.start ∧ bare a.text = bare b.text

/-- The kinds that stand for the end of a line. -/
def Token.Kind.endsLine : Token.Kind → Bool
  | .newline | .lineBreak | .blankLine => true
  | _ => false

/-- The same token of a text whose lines are ended by `e`. What stands for the end
of a line is on the same line; any other token is at the same place. -/
structure Token.Recast (e : LineEnding) (a b : Token) : Prop where
  kind : a.kind = b.kind
  startLine : a.start.line = b.start.line
  stopLine : a.stop.line = b.stop.line
  content : a.kind.endsLine = false →
    a.start = b.start ∧ a.stop = b.stop ∧ b.text = reline e.text a.text

theorem Token.Recast.alike {e : LineEnding} {a b : Token} (h : a.Recast e b) : a.Alike b := by
  refine ⟨h.kind, h.startLine, fun hc => ?_⟩
  obtain ⟨hs, -, ht⟩ := h.content (by cases hk : a.kind <;> simp_all [Kind.isContent, Kind.endsLine])
  exact ⟨hs, by rw [ht, bare_reline]⟩

theorem Token.recast_self {e : LineEnding} {ts : List Token} (h : ∀ t ∈ ts, '\n' ∉ t.text) :
    List.Forall₂ (Token.Recast e) ts ts :=
  List.forall₂_same.2 fun t ht =>
    ⟨rfl, rfl, rfl, fun _ => ⟨rfl, rfl, (reline_of_no_newline (h t ht)).symm⟩⟩

/-- The same lexeme at the same place, where lines are ended by `e`. -/
structure Piece.Recast (e : LineEnding) (p q : Piece) : Prop where
  kind : p.kind = q.kind
  start : p.start = q.start
  stop : p.stop = q.stop
  text : q.text = reline e.text p.text
  lead : p.lead = q.lead
  behind : '\n' ∉ p.start.behind

theorem Piece.Recast.token {e : LineEnding} {p q : Piece} (h : p.Recast e q) (kind : Token.Kind) :
    (p.token kind).Recast e (q.token kind) := by
  refine ⟨rfl, ?_, ?_, fun _ => ⟨?_, ?_, h.text⟩⟩ <;> simp [Piece.token, h.start, h.stop]

namespace Layout

/-- Two moves that come to the same, where lines are ended by `e`. -/
structure Step.Recast (e : LineEnding) (a b : Step) : Prop where
  emitted : List.Forall₂ (Token.Recast e) a.emitted b.emitted
  next : a.next = b.next
  fault : a.fault? = b.fault?

section recast

variable {r : Ruler} {s : Layout} {e : LineEnding}

/-- What bringing the levels in line can come to, whether the line is accepted or refused:
nothing, one level more, or the levels that stay open at its depth. -/
theorem indentTo_forms (r : Ruler) (s : Layout) (p : Place) : ∃ fault?,
    (fault? = none ∨ fault? = some (.mixedIndentation p.line) ∨
      fault? = some (.inconsistentDedent p.line)) ∧
    (indentTo r s p = ⟨[], s, fault?⟩ ∨
      (innermost s.levels).Under (r.measure p.behind) ∧
        indentTo r s p = ⟨[⟨.indent, p.lineStart, p.position, p.margin⟩],
          { s with levels := r.measure p.behind :: s.levels }, fault?⟩ ∨
      indentTo r s p = ⟨dedents s.levels (r.measure p.behind) p.position,
        { s with levels := leave s.levels (r.measure p.behind) }, fault?⟩) := by
  unfold indentTo
  dsimp only
  split
  · split
    · exact ⟨none, Or.inl rfl, Or.inl rfl⟩
    · exact ⟨_, Or.inr (Or.inl rfl), Or.inl rfl⟩
  split
  · next hcolumn =>
    split
    · next hcheck => exact ⟨none, Or.inl rfl, Or.inr (Or.inl ⟨⟨hcolumn, hcheck⟩, rfl⟩)⟩
    · exact ⟨_, Or.inr (Or.inl rfl), Or.inl rfl⟩
  split
  · exact ⟨_, Or.inr (Or.inr rfl), Or.inr (Or.inr rfl)⟩
  split
  · exact ⟨_, Or.inr (Or.inl rfl), Or.inr (Or.inr rfl)⟩
  · exact ⟨none, Or.inl rfl, Or.inr (Or.inr rfl)⟩

theorem mem_indentTo {p : Place} {t : Token} (h : t ∈ (indentTo r s p).emitted) :
    t = ⟨.indent, p.lineStart, p.position, p.margin⟩ ∨ t = .mark .dedent p.position := by
  obtain ⟨_, -, hi | ⟨-, hi⟩ | hi⟩ := indentTo_forms r s p <;> rw [hi] at h
  · cases h
  · exact Or.inl (List.mem_singleton.1 h)
  · obtain ⟨_, -, rfl⟩ := List.mem_map.1 h
    exact Or.inr rfl

theorem mem_beginCode {p : Place} {t : Token} (h : t ∈ (beginCode r s p).emitted) :
    t = ⟨.indent, p.lineStart, p.position, p.margin⟩ ∨ t = .mark .dedent p.position := by
  unfold beginCode at h
  split at h
  · cases h
  · unfold Step.andThen at h
    cases hf : (indentTo r s p).fault? <;> simp only [hf] at h
    · rw [Step.emit, List.append_nil] at h
      exact mem_indentTo h
    · exact mem_indentTo h

theorem Step.Recast.andThen {a : Step} {f g : Layout → Step} (ha : ∀ t ∈ a.emitted, '\n' ∉ t.text)
    (h : ∀ s, (f s).Recast e (g s)) : (a.andThen f).Recast e (a.andThen g) := by
  unfold Step.andThen
  cases a.fault? with
  | some _ => exact ⟨Token.recast_self ha, rfl, rfl⟩
  | none =>
    have hn := h a.next
    exact ⟨List.rel_append (Token.recast_self ha) hn.emitted, hn.next, hn.fault⟩

theorem emit_recast {ts us : List Token} (h : List.Forall₂ (Token.Recast e) ts us) :
    (Step.emit s ts).Recast e (Step.emit s us) :=
  ⟨h, rfl, rfl⟩

theorem closeBracket_recast {p q : Piece} (h : p.Recast e q) :
    (closeBracket s p).Recast e (closeBracket s q) := by
  unfold closeBracket
  rw [h.lead, h.start]
  cases s.brackets.head? with
  | none => exact ⟨.nil, rfl, rfl⟩
  | some b =>
    simp only
    split
    · exact emit_recast (.cons (h.token _) .nil)
    · exact ⟨.nil, rfl, rfl⟩

theorem step_recast {p q : Piece} (h : p.Recast e q) (hi : p.kind.isInner = true) :
    (step r s p).Recast e (step r s q) := by
  have hbegin : ∀ t ∈ (beginCode r s p.start).emitted, '\n' ∉ t.text := by
    intro t ht
    rcases mem_beginCode ht with rfl | rfl
    · simpa [Place.margin] using h.behind
    · simp [Token.mark]
  unfold step
  rw [← h.kind, ← h.start, ← h.lead]
  cases hk : p.kind with
  | newline | continuation => rw [hk] at hi; cases hi
  | space => exact emit_recast .nil
  | comment => exact emit_recast (.cons (h.token _) .nil)
  | opener | literal style | word | punct =>
    exact Step.Recast.andThen hbegin fun s => emit_recast (.cons (h.token _) .nil)
  | closer => exact Step.Recast.andThen hbegin fun s => closeBracket_recast h

theorem endLine_recast {p q : Piece} (h : p.start.line = q.start.line) :
    (endLine s p).Recast e (endLine s q) := by
  have hend : ∀ kind, kind.endsLine = true →
      List.Forall₂ (Token.Recast e) [lineEnd p kind] [lineEnd q kind] := by
    intro kind hk
    refine .cons ⟨rfl, h, h, fun hc => ?_⟩ .nil
    exact absurd (hk.symm.trans hc) (by simp)
  unfold endLine
  split
  · split
    · exact emit_recast (hend _ rfl)
    · exact emit_recast (hend _ rfl)
  · split
    · exact ⟨.nil, rfl, rfl⟩
    · exact emit_recast (.cons ⟨rfl, h, h, fun hc => by cases hc⟩ .nil)

/-- Lexemes of lines that are ended otherwise give the tokens of these lines. -/
theorem reads_recast {ps qs : List Piece} {ts : List Token} {last : Layout}
    (h : List.Forall₂ (Piece.Recast e) ps qs) (hi : ∀ p ∈ ps, p.kind.isInner = true)
    (hr : reads r s ps = some (ts, last)) :
    ∃ us, reads r s qs = some (us, last) ∧ List.Forall₂ (Token.Recast e) ts us := by
  induction h generalizing s ts with
  | nil =>
    obtain ⟨rfl, rfl⟩ := reads_nil.1 hr
    exact ⟨[], hr, .nil⟩
  | @cons p q ps qs hp _ ih =>
    obtain ⟨hf, vs, hrest, rfl⟩ := reads_cons.1 hr
    obtain ⟨us, hus, hall⟩ := ih (fun p hp => hi p (by simp [hp])) hrest
    have hstep := step_recast (r := r) (s := s) hp (hi p (by simp))
    rw [hstep.next] at hus
    exact ⟨_, reads_cons.2 ⟨hstep.fault.symm.trans hf, us, hus, rfl⟩, List.rel_append hstep.emitted hall⟩

end recast

/-! ## What a move can come to -/

/-- What may come out before the first code of a logical line: one level opens,
or any number of them close. -/
def IsMargin (ts : List Token) : Prop :=
  (∃ t, ts = [t] ∧ t.kind = .indent) ∨ ∀ t ∈ ts, t.kind = .dedent

section levels

variable {r : Ruler} {s : Layout} {p : Place}

theorem indentTo_level (h : r.measure p.behind = innermost s.levels) :
    indentTo r s p = .emit s [] := by
  rw [indentTo, h]
  simp

theorem indentTo_deeper (h : (innermost s.levels).Under (r.measure p.behind)) :
    indentTo r s p = .emit { s with levels := r.measure p.behind :: s.levels }
      [⟨.indent, p.lineStart, p.position, p.margin⟩] := by
  obtain ⟨hcolumn, hcheck⟩ := h
  simp only [indentTo, if_neg (Nat.ne_of_gt hcolumn), if_pos hcolumn, if_pos hcheck]

theorem indentTo_shallower
    (h : (r.measure p.behind).column < (innermost s.levels).column)
    (hd : innermost (leave s.levels (r.measure p.behind)) = r.measure p.behind) :
    indentTo r s p = .emit { s with levels := leave s.levels (r.measure p.behind) }
      (dedents s.levels (r.measure p.behind) p.position) := by
  simp only [indentTo, if_neg (Nat.ne_of_lt h), if_neg (Nat.lt_asymm h), hd, ne_eq, not_true,
    if_false]

/-- The lines that are accepted. -/
theorem indentTo_cases (hf : (indentTo r s p).fault? = none) :
    r.measure p.behind = innermost s.levels ∨ (innermost s.levels).Under (r.measure p.behind) ∨
      (r.measure p.behind).column < (innermost s.levels).column ∧
        innermost (leave s.levels (r.measure p.behind)) = r.measure p.behind := by
  unfold indentTo at hf
  dsimp only at hf
  split at hf
  · next hcolumn =>
    split at hf
    · next hcheck => exact Or.inl (congrArg₂ Depth.mk hcolumn hcheck)
    · cases hf
  next hne =>
  split at hf
  · next hlt =>
    split at hf
    · next hcheck => exact Or.inr (Or.inl ⟨hlt, hcheck⟩)
    · cases hf
  next hge =>
  split at hf
  · cases hf
  next hcolumn =>
  split at hf
  · cases hf
  next hcheck =>
  rw [not_not] at hcolumn hcheck
  exact Or.inr (Or.inr ⟨by omega, (congrArg₂ Depth.mk hcolumn hcheck).symm⟩)

theorem indentTo_spec {a : Step} (h : indentTo r s p = a) (hf : a.fault? = none) :
    IsMargin a.emitted ∧ ∃ levels, a.next = { s with levels := levels } := by
  subst h
  rcases indentTo_cases hf with hd | hd | ⟨hlt, hd⟩
  · rw [indentTo_level hd]
    exact ⟨Or.inr (by simp [Step.emit]), s.levels, rfl⟩
  · rw [indentTo_deeper hd]
    exact ⟨Or.inl ⟨_, rfl, rfl⟩, _, rfl⟩
  · rw [indentTo_shallower hlt hd]
    refine ⟨Or.inr fun t ht => ?_, _, rfl⟩
    obtain ⟨_, -, rfl⟩ := List.mem_map.1 ht
    rfl

end levels

theorem beginCode_spec {r : Ruler} {s : Layout} {p : Place} {a : Step} (h : beginCode r s p = a)
    (hf : a.fault? = none) :
    (s.codeSeen = true → a.emitted = []) ∧ IsMargin a.emitted ∧
      ∃ levels, a.next = { s.markCode with levels := levels } := by
  unfold beginCode at h
  split at h
  · subst h
    exact ⟨fun _ => rfl, Or.inr (by simp [Step.emit]), s.levels, rfl⟩
  · next hc =>
    subst h
    unfold Step.andThen at hf ⊢
    cases hi : (indentTo r s p).fault? with
    | some e => simp [hi] at hf
    | none =>
      obtain ⟨hm, levels, hl⟩ := indentTo_spec rfl hi
      simp only [Step.emit, List.append_nil, hl]
      exact ⟨fun h => absurd h hc, hm, levels, rfl⟩

theorem andThen_spec {a : Step} {f : Layout → Step} (h : (a.andThen f).fault? = none) :
    a.fault? = none ∧ (f a.next).fault? = none ∧
      (a.andThen f).emitted = a.emitted ++ (f a.next).emitted ∧
      (a.andThen f).next = (f a.next).next := by
  unfold Step.andThen at h ⊢
  cases ha : a.fault? with
  | some e => simp [ha] at h
  | none => simp only [ha] at h; exact ⟨rfl, h, rfl, rfl⟩

theorem closeBracket_spec {s : Layout} {p : Piece} {a : Step} (h : closeBracket s p = a)
    (hf : a.fault? = none) :
    a.emitted = [p.token .code] ∧ a.next = { s with brackets := s.brackets.tail } := by
  unfold closeBracket at h
  dsimp only at h
  split at h
  · split at h <;> subst h
    · exact ⟨rfl, rfl⟩
    · cases hf
  · subst h; cases hf

theorem code_spec {r : Ruler} {s : Layout} {p : Place} {t : Token} {f : Layout → Step}
    (hcode : ∀ m, (f m).fault? = none →
      (f m).emitted = [t] ∧ ∃ brackets, (f m).next = { m with brackets := brackets })
    (hf : ((beginCode r s p).andThen f).fault? = none) :
    ∃ margin levels brackets, ((beginCode r s p).andThen f).emitted = margin ++ [t] ∧
      IsMargin margin ∧ (s.codeSeen = true → margin = []) ∧
      ((beginCode r s p).andThen f).next = ⟨levels, brackets, true, true, none⟩ := by
  obtain ⟨hb, hfm, he, hn⟩ := andThen_spec hf
  obtain ⟨hc, hm, levels, hl⟩ := beginCode_spec rfl hb
  obtain ⟨ht, brackets, hbr⟩ := hcode _ hfm
  refine ⟨_, levels, brackets, by rw [he, ht], hm, hc, ?_⟩
  rw [hn, hbr, hl]
  rfl

/-- What a move within a line can come to. White space does nothing, a comment
makes the line held, and code also begins the logical line, if it is the first
in it. -/
theorem step_inner {r : Ruler} {s : Layout} {p : Piece} (hi : p.kind.isInner = true)
    (hf : (step r s p).fault? = none) :
    (p.kind = .space ∧ (step r s p).emitted = [] ∧ (step r s p).next = s) ∨
    (p.kind = .comment ∧ (step r s p).emitted = [p.token .comment] ∧
      (step r s p).next = { s with lineHeld := true, joined? := none }) ∨
    (p.kind.isCode = true ∧ ∃ margin levels brackets,
      (step r s p).emitted = margin ++ [p.token .code] ∧ IsMargin margin ∧
      (s.codeSeen = true → margin = []) ∧
      (step r s p).next = ⟨levels, brackets, true, true, none⟩) := by
  unfold step at hf ⊢
  cases hk : p.kind with
  | newline | continuation => rw [hk] at hi; cases hi
  | space => exact Or.inl ⟨rfl, rfl, rfl⟩
  | comment => exact Or.inr (Or.inl ⟨rfl, rfl, rfl⟩)
  | opener | literal style | word | punct =>
    simp only [hk] at hf
    exact Or.inr (Or.inr ⟨rfl, code_spec (fun m _ => ⟨rfl, _, rfl⟩) hf⟩)
  | closer =>
    simp only [hk] at hf
    refine Or.inr (Or.inr ⟨rfl, code_spec (fun m hm => ?_) hf⟩)
    obtain ⟨he, hn⟩ := closeBracket_spec rfl hm
    exact ⟨he, _, hn⟩

theorem endLine_spec {s : Layout} {p : Piece} {a : Step} (h : endLine s p = a)
    (hf : a.fault? = none) :
    (s.lineHeld = true ∧ s.brackets = [] ∧ s.codeSeen = true ∧ a.emitted = [lineEnd p .newline] ∧
      a.next = { s with lineHeld := false, codeSeen := false }) ∨
    (s.lineHeld = true ∧ (s.brackets ≠ [] ∨ s.codeSeen = false) ∧
      a.emitted = [lineEnd p .lineBreak] ∧ a.next = { s with lineHeld := false }) ∨
    (s.lineHeld = false ∧ s.joined? = none ∧ a.emitted = [blankLine p.start] ∧ a.next = s) := by
  unfold endLine at h
  split at h
  · next hh =>
    split at h <;> subst h
    · next hc =>
      rw [Bool.and_eq_true, List.isEmpty_iff] at hc
      exact Or.inl ⟨hh, hc.1, hc.2, rfl, rfl⟩
    · next hc =>
      refine Or.inr (Or.inl ⟨hh, ?_, rfl, rfl⟩)
      rw [Bool.and_eq_true, List.isEmpty_iff, not_and_or] at hc
      simpa using hc
  · next hh =>
    split at h <;> subst h
    · cases hf
    · next hj => exact Or.inr (Or.inr ⟨by simpa using hh, hj, rfl, rfl⟩)

/-! ## What every move keeps -/

/-- Only a line that holds nothing waits behind a backslash, and brackets are
open only within a logical line. -/
structure Sound (s : Layout) : Prop where
  waits : s.lineHeld = true → s.joined? = none
  within : s.brackets ≠ [] → s.codeSeen = true

theorem sound_start : Sound start := ⟨nofun, fun h => absurd rfl h⟩

theorem Sound.unplaced {s : Layout} (h : Sound s) : Sound s.unplaced :=
  ⟨fun hh => unplaced_joined_eq_none.2 (h.waits hh),
    fun hb => h.within fun he => hb (unplaced_brackets_eq_nil.2 he)⟩

theorem indentTo_next (r : Ruler) (s : Layout) (p : Place) :
    ∃ levels, (indentTo r s p).next = { s with levels := levels } := by
  obtain ⟨_, -, hi | ⟨-, hi⟩ | hi⟩ := indentTo_forms r s p <;> rw [hi] <;> exact ⟨_, rfl⟩

theorem closeBracket_next (s : Layout) (p : Piece) :
    (closeBracket s p).next = { s with brackets := s.brackets.tail } := by
  unfold closeBracket
  dsimp only
  split
  · split <;> rfl
  · rfl

/-- Code that cannot begin leaves the line as it was; what is done behind code that
begins is done within a logical line. -/
theorem Sound.code {r : Ruler} {s : Layout} {p : Place} {f : Layout → Step} (h : Sound s)
    (hf : ∀ levels, Sound (f { s.markCode with levels := levels }).next) :
    Sound ((beginCode r s p).andThen f).next := by
  obtain ⟨levels, hn⟩ := indentTo_next r s p
  unfold beginCode
  split
  · exact hf s.levels
  · cases hi : (indentTo r s p).fault? with
    | none =>
      simp only [Step.andThen, hi, hn, Step.emit]
      exact hf levels
    | some e =>
      simp only [Step.andThen, hi, hn]
      exact ⟨h.waits, h.within⟩

theorem Sound.endLine {s : Layout} (h : Sound s) (p : Piece) : Sound (endLine s p).next := by
  unfold Layout.endLine
  split
  · split
    · next hc =>
      rw [Bool.and_eq_true, List.isEmpty_iff] at hc
      exact ⟨nofun, fun hb => absurd hc.1 hb⟩
    · exact ⟨nofun, h.within⟩
  · split <;> exact h

/-- Every move keeps that, also one that fails. -/
theorem Sound.step {r : Ruler} {s : Layout} {p : Piece} (h : Sound s) :
    Sound (step r s p).next := by
  unfold Layout.step
  cases p.kind with
  | space => exact h
  | newline => exact h.endLine p
  | continuation => exact ⟨nofun, h.within⟩
  | comment => exact ⟨fun _ => rfl, h.within⟩
  | opener | literal style | word | punct => exact h.code fun _ => ⟨fun _ => rfl, fun _ => rfl⟩
  | closer =>
    refine h.code fun levels => ?_
    rw [closeBracket_next]
    exact ⟨fun _ => rfl, fun _ => rfl⟩

theorem Sound.reads {r : Ruler} {s last : Layout} {ps : List Piece} {ts : List Token} (h : Sound s)
    (hr : reads r s ps = some (ts, last)) : Sound last := by
  induction ps generalizing s ts with
  | nil => obtain ⟨-, rfl⟩ := reads_nil.1 hr; exact h.unplaced
  | cons p ps ih =>
    obtain ⟨-, us, hrest, -⟩ := reads_cons.1 hr
    exact ih h.step hrest

end Layout

end Offside
