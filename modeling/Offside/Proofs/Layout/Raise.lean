import Offside.Proofs.Layout.Form
import Mathlib.Data.List.TakeWhile

/-!
# Reading with levels left open

Where levels are open that all lie deeper than the margin, the first code at the
margin closes them all, and the machine goes on as if none had been open. Blank
lines and comments before it do not care which levels are open.

Results:
* `step_levels`: the only moves that change levels;
* `Grounded.reads`: every open level lies deeper than the margin;
* `reads_above`: what is read with levels open, and what is read without them.
-/
namespace Offside

open Lexeme

theorem significant_append (ts us : List Token) :
    Token.significant (ts ++ us) = Token.significant ts ++ Token.significant us :=
  List.filter_append ..

theorem significant_dedents {α : Type} (as : List α) (q : Position) :
    Token.significant (as.map fun _ => .mark .dedent q) = as.map fun _ => .mark .dedent q := by
  refine List.filter_eq_self.2 fun t ht => ?_
  obtain ⟨_, -, rfl⟩ := List.mem_map.1 ht
  rfl

namespace Layout

variable {r : Ruler} {s last : Layout} {p : Piece}

theorem step_code (hk : p.kind.isCode = true) : ∃ f : Layout → Step,
    (∀ m, (f m).next.levels = m.levels) ∧
      ∀ s, step r s p = (beginCode r s p.start).andThen f := by
  unfold step
  cases h : p.kind with
  | newline | space | comment | continuation => rw [h] at hk; cases hk
  | opener => exact ⟨_, fun m => rfl, fun s => rfl⟩
  | closer => exact ⟨fun s => closeBracket s p, fun m => by rw [closeBracket_next], fun s => rfl⟩
  | literal style | word | punct => exact ⟨_, fun m => rfl, fun s => rfl⟩

theorem andThen_levels {a : Step} {f : Layout → Step} (hf : ∀ m, (f m).next.levels = m.levels) :
    (a.andThen f).next.levels = a.next.levels := by
  unfold Step.andThen
  cases a.fault? with
  | some _ => rfl
  | none => exact hf a.next

/-- A move changes no level but to bring them in line with the first code of a logical
line. -/
theorem step_levels : (step r s p).next.levels = s.levels ∨
    (step r s p).next.levels = (indentTo r s p.start).next.levels := by
  cases hk : p.kind.isCode with
  | true =>
    obtain ⟨f, hf, hstep⟩ := step_code (r := r) hk
    rw [hstep, andThen_levels hf, beginCode]
    split
    · exact Or.inl rfl
    · exact Or.inr (andThen_levels fun m => rfl)
  | false =>
    left
    unfold step
    cases h : p.kind with
    | opener | closer | literal style | word | punct => rw [h] at hk; cases hk
    | space | comment | continuation => rfl
    | newline =>
      unfold endLine
      dsimp only
      split
      · split <;> rfl
      · split <;> rfl

/-! ## Levels lie deeper than the margin -/

/-- Every open level lies deeper than the margin. -/
def Grounded (s : Layout) : Prop := ∀ d ∈ s.levels, 0 < d.column

theorem grounded_start : Grounded start := nofun

theorem indentTo_grounded {q : Place} (h : Grounded s) : Grounded (indentTo r s q).next := by
  obtain ⟨_, -, hi | ⟨hd, hi⟩ | hi⟩ := indentTo_forms r s q <;> rw [hi]
  · exact h
  · exact List.forall_mem_cons.2 ⟨Nat.zero_lt_of_lt hd.1, h⟩
  · exact fun d hd => h d ((List.dropWhile_sublist _).subset hd)

theorem Grounded.step (h : Grounded s) : Grounded (step r s p).next := by
  intro d hd
  rcases step_levels (r := r) (s := s) (p := p) with hl | hl <;> rw [hl] at hd
  · exact h d hd
  · exact indentTo_grounded h d hd

theorem Grounded.reads {ps : List Piece} {ts : List Token} (h : Grounded s)
    (hr : reads r s ps = some (ts, last)) : Grounded last := by
  induction ps generalizing s ts with
  | nil =>
    obtain ⟨-, rfl⟩ := reads_nil.1 hr
    exact h
  | cons p ps ih =>
    obtain ⟨-, us, hrest, -⟩ := reads_cons.1 hr
    exact ih h.step hrest

/-! ## The first code -/

variable (ls : List Depth)

theorem indentTo_ground {q : Place} (hl : s.levels = []) (hf : (indentTo r s q).fault? = none) :
    (∃ t, (indentTo r s q).emitted = [t] ∧ t.kind = .indent) ∨
      (indentTo r s q = .emit s [] ∧ r.measure q.behind = .zero) := by
  have htop : innermost s.levels = .zero := by rw [hl]; rfl
  rcases indentTo_cases hf with hd | hd | ⟨hlt, -⟩
  · exact Or.inr ⟨indentTo_level hd, hd.trans htop⟩
  · rw [indentTo_deeper hd]
    exact Or.inl ⟨_, rfl, rfl⟩
  · rw [htop] at hlt
    cases hlt

theorem indentTo_above {q : Place} (hg : ∀ d ∈ ls, 0 < d.column)
    (hm : r.measure q.behind = .zero) : indentTo r { s with levels := ls } q =
      .emit { s with levels := [] } (ls.map fun _ => .mark .dedent q.position) := by
  cases ls with
  | nil => exact indentTo_level hm
  | cons d ls =>
    have hall : ∀ e ∈ d :: ls, decide (Depth.zero.column < e.column) = true := fun e he =>
      decide_eq_true (hg e he)
    have hleave : leave (d :: ls) .zero = [] := List.dropWhile_eq_nil_iff.2 hall
    have hdedents : dedents (d :: ls) .zero q.position =
        (d :: ls).map fun _ => .mark .dedent q.position := by
      rw [dedents, List.takeWhile_eq_self_iff.2 hall]
    have hshallow := indentTo_shallower (r := r) (s := { s with levels := d :: ls }) (p := q)
    simp only [hm, hleave, hdedents] at hshallow
    exact hshallow (hg d (by simp)) rfl

theorem beginCode_above {q : Place} (hg : ∀ d ∈ ls, 0 < d.column) (hl : s.levels = [])
    (hc : s.codeSeen = false) (hf : (beginCode r s q).fault? = none) :
    (∃ t, (beginCode r s q).emitted = [t] ∧ t.kind = .indent) ∨
      (beginCode r s q = .emit s.markCode [] ∧ beginCode r { s with levels := ls } q =
        .emit s.markCode (ls.map fun _ => .mark .dedent q.position)) := by
  have hbegin : ∀ levels, beginCode r { s with levels := levels } q =
      (indentTo r { s with levels := levels } q).andThen fun s => .emit s.markCode [] := fun levels =>
    if_neg (by simp [hc])
  have hself : { s with levels := [] } = s := by rw [← hl]
  have hown := hbegin []
  rw [hself] at hown
  rw [hown] at hf ⊢
  obtain ⟨hi, -, he, -⟩ := andThen_spec hf
  rcases indentTo_ground hl hi with ⟨t, ht, hk⟩ | ⟨hemit, hm⟩
  · rw [he, ht]
    exact Or.inl ⟨t, rfl, hk⟩
  · rw [hbegin, indentTo_above ls hg hm, hself, hemit]
    exact Or.inr ⟨rfl, congrArg (Step.mk · _ _) (List.append_nil _)⟩

/-! ## All lexemes of a text -/

theorem step_before (hk : p.kind.isCode = false) (hc : s.codeSeen = false) :
    step r { s with levels := ls } p = { step r s p with
      next := { (step r s p).next with levels := ls } } ∧
    (step r s p).next.levels = s.levels ∧ (step r s p).next.codeSeen = false ∧
    Token.significant (step r s p).emitted = [] := by
  unfold step
  cases h : p.kind with
  | opener | closer | literal style | word | punct => rw [h] at hk; cases hk
  | space | comment | continuation => exact ⟨rfl, rfl, hc, rfl⟩
  | newline =>
    obtain ⟨levels, brackets, lineHeld, codeSeen, joined?⟩ := s
    dsimp only at hc
    subst hc
    simp only [endLine, Bool.and_false]
    cases lineHeld with
    | true => exact ⟨rfl, rfl, rfl, rfl⟩
    | false => cases joined? <;> exact ⟨rfl, rfl, rfl, rfl⟩

/-- What is read with levels open: they stay open if there is no code; else they are
closed before the first, which must not open one, and all else is as without them. -/
theorem reads_above {ps : List Piece} {ts : List Token} (hg : ∀ d ∈ ls, 0 < d.column)
    (hl : s.levels = []) (hc : s.codeSeen = false) (h : reads r s ps = some (ts, last))
    (hn : ∀ t ∈ (Token.significant ts).head?, t.kind ≠ .indent) :
    (Token.significant ts = [] ∧ last.levels = [] ∧
      reads r { s with levels := ls } ps = some (ts, { last with levels := ls })) ∨
    ∃ us q, reads r { s with levels := ls } ps = some (us, last) ∧
      Token.significant us = (ls.map fun _ => .mark .dedent q) ++ Token.significant ts := by
  induction ps generalizing s ts with
  | nil =>
    obtain ⟨rfl, rfl⟩ := reads_nil.1 h
    exact Or.inl ⟨rfl, hl, reads_nil.2 ⟨rfl, rfl⟩⟩
  | cons p ps ih =>
    obtain ⟨hf, us, hr, rfl⟩ := reads_cons.1 h
    cases hk : p.kind.isCode with
    | false =>
      obtain ⟨hstep, hlevels, hseen, hquiet⟩ := step_before ls (r := r) hk hc
      rw [significant_append, hquiet, List.nil_append] at hn ⊢
      have hfault : (step r { s with levels := ls } p).fault? = none := by rw [hstep]; exact hf
      rcases ih (hlevels.trans hl) hseen hr hn with ⟨hnone, hlast, hread⟩ | ⟨vs, q, hread, hvs⟩
      · refine Or.inl ⟨hnone, hlast, reads_cons.2 ⟨hfault, us, ?_, ?_⟩⟩ <;> rw [hstep]
        exact hread
      · refine Or.inr ⟨(step r s p).emitted ++ vs, q, reads_cons.2 ⟨hfault, vs, ?_, ?_⟩, ?_⟩
        · rw [hstep]
          exact hread
        · rw [hstep]
        · rw [significant_append, hquiet, List.nil_append, hvs]
    | true =>
      obtain ⟨f, -, hstep⟩ := step_code (r := r) hk
      have hb := (andThen_spec (hstep s ▸ hf)).1
      rcases beginCode_above ls hg hl hc hb with ⟨t, ht, hindent⟩ | ⟨hown, habove⟩
      · rw [hstep, (andThen_spec (hstep s ▸ hf)).2.2.1, ht] at hn
        refine absurd hindent (hn t ?_)
        simp [Token.significant, hindent, Token.Kind.isSignificant]
      · -- the levels are closed, and from here on both go on in the same state
        have hs : step r s p = f s.markCode := by
          rw [hstep, hown]
          exact congrArg (Step.mk · _ _) (List.nil_append _)
        have habove : step r { s with levels := ls } p =
            { step r s p with
              emitted := (ls.map fun _ => .mark .dedent p.start.position) ++
                (step r s p).emitted } := by
          rw [hstep, habove, hs]
          rfl
        refine Or.inr ⟨_, p.start.position, reads_cons.2 ⟨?_, us, ?_, rfl⟩, ?_⟩ <;> rw [habove]
        · exact hf
        · exact hr
        · rw [List.append_assoc, significant_append, significant_dedents]

end Layout

end Offside
