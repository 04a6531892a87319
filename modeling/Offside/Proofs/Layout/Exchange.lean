import Offside.Proofs.Layout.Raise

/-!
# The two rules for tabs exchanged

A program is accepted only while both rules for tabs agree which of two lines is
the deeper one. So the levels that are open lie one under the other by both rules,
a line that is accepted has the depth of one of them by both or lies under all of
them by both, and the machine does the same whichever of the rules comes first.

Results:
* `Stacked.step`: levels lie one under the other by both rules;
* `indentTo_swap`, `step_swap`: a move that goes well goes as well with the rules
  exchanged;
* `tokenizeWith_swap`: the same for a whole text.
-/
namespace Offside

open Lexeme

/-- The same depth with its widths exchanged. -/
def Depth.swap (d : Depth) : Depth := ⟨d.check, d.column⟩

theorem Depth.Under.trans {a b c : Depth} (h : a.Under b) (h' : b.Under c) : a.Under c :=
  ⟨Nat.lt_trans h.1 h'.1, Nat.lt_trans h.2 h'.2⟩

theorem Ruler.measure_swap (r : Ruler) (behind : Text) :
    r.swap.measure behind = (r.measure behind).swap := rfl

namespace Layout

/-- The same state with the widths of all levels exchanged. -/
def swap (s : Layout) : Layout := { s with levels := s.levels.map Depth.swap }

/-- The same move with the widths of all levels exchanged. -/
def Step.swap (a : Step) : Step := { a with next := a.next.swap }

/-! ## Levels one under the other -/

/-- Levels, innermost first, that lie one under the other by both rules, and under
depth zero. -/
def Stacked (levels : List Depth) : Prop :=
  (levels ++ [Depth.zero]).Pairwise fun inner outer => outer.Under inner

theorem stacked_start : Stacked start.levels := List.pairwise_singleton _ _

section stacked

variable {levels : List Depth} {d : Depth}

theorem innermost_mem (levels : List Depth) : innermost levels ∈ levels ++ [Depth.zero] := by
  cases levels <;> simp [innermost]

theorem leave_sublist (levels : List Depth) (d : Depth) :
    (leave levels d ++ [Depth.zero]).Sublist (levels ++ [Depth.zero]) :=
  (List.dropWhile_sublist _).append_right _

theorem Stacked.leave (h : Stacked levels) (d : Depth) : Stacked (leave levels d) :=
  List.Pairwise.sublist (leave_sublist levels d) h

theorem Stacked.push (h : Stacked levels) (hd : (innermost levels).Under d) :
    Stacked (d :: levels) := by
  refine List.pairwise_cons.2 ⟨fun e he => ?_, h⟩
  cases levels with
  | nil =>
    rw [List.mem_singleton.1 he]
    exact hd
  | cons top outer =>
    rcases List.mem_cons.1 he with rfl | he
    · exact hd
    · exact (List.rel_of_pairwise_cons h he).trans hd

theorem leave_cons {top : Depth} (h : d.column < top.column) :
    leave (top :: levels) d = leave levels d := by
  simp [Layout.leave, h]

theorem dedents_cons {top : Depth} {p : Position} (h : d.column < top.column) :
    dedents (top :: levels) d p = .mark .dedent p :: dedents levels d p := by
  simp [dedents, h]

theorem Stacked.under (h : Stacked levels) (hlt : d.column < (innermost levels).column)
    (hd : innermost (Layout.leave levels d) = d) : d.Under (innermost levels) := by
  cases levels with
  | nil => cases hlt
  | cons top outer =>
    have hlt' : d.column < top.column := hlt
    rw [leave_cons hlt'] at hd
    have hmem := (leave_sublist outer d).subset (innermost_mem _)
    rw [hd] at hmem
    exact List.rel_of_pairwise_cons h hmem

theorem leave_swap (h : Stacked levels) (hd : innermost (leave levels d) = d) (p : Position) :
    leave (levels.map Depth.swap) d.swap = (leave levels d).map Depth.swap ∧
      dedents (levels.map Depth.swap) d.swap p = dedents levels d p := by
  induction levels with
  | nil => exact ⟨rfl, rfl⟩
  | cons top outer ih =>
    by_cases hlt : d.column < top.column
    · have hunder := h.under hlt hd
      rw [leave_cons hlt] at hd ⊢
      obtain ⟨hrest, hdedents⟩ := ih (List.pairwise_cons.1 h).2 hd
      have hcheck : d.swap.column < top.swap.column := hunder.2
      rw [dedents_cons hlt]
      exact ⟨(leave_cons hcheck).trans hrest,
        (dedents_cons hcheck).trans (congrArg _ hdedents)⟩
    · have hleave : leave (top :: outer) d = top :: outer := by simp [leave, hlt]
      rw [hleave] at hd ⊢
      obtain rfl : top = d := hd
      simp [leave, dedents]

end stacked

/-! ## Moves -/

section moves

variable {r : Ruler} {s last : Layout} {p : Piece}

theorem innermost_swap (levels : List Depth) :
    innermost (levels.map Depth.swap) = (innermost levels).swap := by
  cases levels <;> rfl

/-- A line that is accepted is accepted as well with the rules exchanged. -/
theorem indentTo_swap {q : Place} (h : Stacked s.levels) (hf : (indentTo r s q).fault? = none) :
    indentTo r.swap s.swap q = (indentTo r s q).swap := by
  have htop : innermost s.swap.levels = (innermost s.levels).swap := innermost_swap s.levels
  rcases indentTo_cases hf with hd | hd | ⟨hlt, hd⟩
  · rw [indentTo_level hd, indentTo_level (by rw [htop, Ruler.measure_swap, hd])]
    rfl
  · rw [indentTo_deeper hd, indentTo_deeper (by rw [htop]; exact ⟨hd.2, hd.1⟩)]
    rfl
  · obtain ⟨hleave, hdedents⟩ := leave_swap h hd q.position
    have hlt' : (r.swap.measure q.behind).column < (innermost s.swap.levels).column := by
      rw [htop]
      exact (h.under hlt hd).2
    have hd' : innermost (leave s.swap.levels (r.swap.measure q.behind)) = r.swap.measure q.behind := by
      refine (congrArg innermost hleave).trans ?_
      rw [innermost_swap, hd, Ruler.measure_swap]
    rw [indentTo_shallower hlt hd, indentTo_shallower hlt' hd']
    exact congrArg₂ (fun ts levels => Step.emit { s with levels := levels } ts) hdedents hleave

theorem Stacked.indentTo {q : Place} (h : Stacked s.levels) :
    Stacked (indentTo r s q).next.levels := by
  obtain ⟨_, -, hi | ⟨hd, hi⟩ | hi⟩ := indentTo_forms r s q <;> rw [hi]
  · exact h
  · exact h.push hd
  · exact h.leave _

theorem Stacked.step (h : Stacked s.levels) : Stacked (step r s p).next.levels := by
  rcases step_levels (r := r) (s := s) (p := p) with hl | hl <;> rw [hl]
  · exact h
  · exact h.indentTo

theorem swap_andThen {a : Step} {f : Layout → Step} (hf : ∀ m, f m.swap = (f m).swap) :
    a.swap.andThen f = (a.andThen f).swap := by
  unfold Step.andThen
  cases ha : a.fault? with
  | some _ => simp only [Step.swap, ha]
  | none => simp only [Step.swap, ha, hf]

theorem beginCode_swap {q : Place} (h : Stacked s.levels) (hf : (beginCode r s q).fault? = none) :
    beginCode r.swap s.swap q = (beginCode r s q).swap := by
  unfold beginCode at hf ⊢
  change (if s.codeSeen then _ else _) = _
  split at hf
  · next hc =>
    rw [if_pos hc, if_pos hc]
    rfl
  · next hc =>
    rw [if_neg hc, if_neg hc, indentTo_swap h (andThen_spec hf).1]
    exact swap_andThen fun m => rfl

theorem endLine_swap (s : Layout) (p : Piece) : endLine s.swap p = (endLine s p).swap := by
  obtain ⟨levels, brackets, lineHeld, codeSeen, joined?⟩ := s
  cases lineHeld <;> cases brackets <;> cases codeSeen <;> cases joined? <;> rfl

theorem closeBracket_swap (s : Layout) (p : Piece) :
    closeBracket s.swap p = (closeBracket s p).swap := by
  obtain ⟨levels, brackets, lineHeld, codeSeen, joined?⟩ := s
  cases brackets with
  | nil => rfl
  | cons b outer =>
    simp only [closeBracket, swap, List.head?_cons]
    split <;> rfl

/-- A move that goes well goes as well with the rules exchanged. -/
theorem step_swap (h : Stacked s.levels) (hf : (step r s p).fault? = none) :
    step r.swap s.swap p = (step r s p).swap := by
  have hcode : ∀ {f : Layout → Step}, ((beginCode r s p.start).andThen f).fault? = none →
      (∀ m, f m.swap = (f m).swap) → (beginCode r.swap s.swap p.start).andThen f =
        ((beginCode r s p.start).andThen f).swap := by
    intro f hf hswap
    rw [beginCode_swap h (andThen_spec hf).1]
    exact swap_andThen hswap
  unfold step at hf ⊢
  cases hk : p.kind with
  | space | continuation | comment => rfl
  | newline => exact endLine_swap s p
  | opener | literal style | word | punct =>
    simp only [hk] at hf
    exact hcode hf fun m => rfl
  | closer =>
    simp only [hk] at hf
    exact hcode hf fun m => closeBracket_swap m p

theorem reads_swap {ps : List Piece} {ts : List Token} (h : Stacked s.levels)
    (hr : reads r s ps = some (ts, last)) : reads r.swap s.swap ps = some (ts, last.swap) := by
  induction ps generalizing s ts with
  | nil =>
    obtain ⟨rfl, rfl⟩ := reads_nil.1 hr
    exact reads_nil.2 ⟨rfl, rfl⟩
  | cons p ps ih =>
    obtain ⟨hf, us, hrest, rfl⟩ := reads_cons.1 hr
    have hstep := step_swap h hf
    refine reads_cons.2 ⟨?_, us, ?_, ?_⟩ <;> rw [hstep]
    · exact hf
    · exact ih h.step hrest
    · rfl

end moves

end Layout

open Layout

/-- A text that has tokens has the same with the rules exchanged. -/
theorem tokenizeWith_swap {r : Ruler} {s : Text} {ts : List Token} (h : tokenizeWith r s = .ok ts) :
    tokenizeWith r.swap s = .ok ts := by
  have hstop := stop_of_tokenizeWith h
  obtain ⟨us, m, hr, hrest, rfl⟩ := (tokenizeWith_eq_ok hstop).1 h
  refine (tokenizeWith_eq_ok hstop).2 ⟨us, m.swap, reads_swap stacked_start hr, ⟨hrest.1, hrest.2⟩, ?_⟩
  have hclosing : ∀ q, closing m.swap q = closing m q := fun q => by
    simp [closing, swap, Function.comp_def]
  rw [hclosing]
  rfl

/-- Accepted indentation means the same by both rules: a text has the same tokens
whether tabs run to tab stops, checked against tabs that are one wide, or are one
wide, checked against tab stops. -/
theorem tokenize_swap (s : Text) (ts : List Token) :
    tokenizeWith Ruler.standard.swap s = .ok ts ↔ tokenize s = .ok ts :=
  ⟨fun h => tokenizeWith_swap h, fun h => tokenizeWith_swap h⟩

end Offside
