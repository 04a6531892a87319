import Offside.Proofs.Layout.Form
import Offside.Proofs.Normalize.Retokenize
import Offside.Proofs.Statement.Recount
import Offside.Proofs.Statement.Twin

/-!
# What is wrong with a program

A program is looked over once its blank lines are out. What is wrong with it then
was wrong with it before, at the same token, which stands as many lines higher as
blank lines stood above it. No line of a text ends without code, so that it is
never the end of a line at which a reader stops.

Results:
* `Lined.endsCode`: in a stream every line ends behind code;
* `not_newline_of_stop`: readers of such streams never stop at the end of a line;
* `akinAt_of_retold`: the tokens of a text without its blank lines are akin to
  those that it had;
* `normalize_fault_iff`: what is wrong with a program.
-/
namespace Offside

open Lexeme Text Layout

/-! ## Lines that end behind code -/

/-- Every newline stands right behind code, where `code` tells whether code stands
before the kinds. -/
def EndsCode : Bool → List Token.Kind → Prop
  | _, [] => True
  | code, k :: ks => (k = .newline → code = true) ∧ EndsCode (k == .code) ks

theorem endsCode_nil (code : Bool) : EndsCode code [] := trivial

theorem endsCode_dedents {ks : List Token.Kind} (h : EndsCode false ks) (n : Nat) :
    EndsCode false (List.replicate n .dedent ++ ks) := by
  induction n with
  | zero => exact h
  | succ n ih => exact ⟨nofun, ih⟩

theorem endsCode_line {rest : List Token.Kind} {n : Nat} {code : Bool} (h : EndsCode false rest)
    (hn : code = true ∨ 0 < n) :
    EndsCode code (List.replicate n .code ++ .newline :: rest) := by
  induction n generalizing code with
  | zero => exact ⟨fun _ => hn.resolve_right (Nat.lt_irrefl 0), h⟩
  | succ n ih => exact ⟨nofun, ih (Or.inl rfl)⟩

theorem Lined.endsCode {ks : List Token.Kind} (h : Lined ks) : EndsCode false ks := by
  induction h with
  | closing n =>
    have hdedents : EndsCode false (List.replicate n .dedent ++ []) :=
      endsCode_dedents (endsCode_nil false) n
    rwa [List.append_nil] at hdedents
  | deeper hn _ ih => exact ⟨nofun, endsCode_line ih (Or.inr hn)⟩
  | level hn _ ih => exact endsCode_dedents (endsCode_line ih (Or.inr hn)) _

namespace Outliner

variable {o n : Outliner} {t : Token} {ts rest : List Token}

/-- Code leaves a line open, and nothing else does. -/
theorem line_of_step (h : o.step t = some n) : n.line?.isSome = (t.kind == .code) := by
  rcases step_spec h with
    ⟨line, -, hk, rfl⟩ | ⟨line, -, hk, rfl⟩ | ⟨-, hk, hb⟩ | ⟨-, hk, hb⟩ | ⟨-, hk, hb⟩ <;> rw [hk]
  · rfl
  · rfl
  · rcases beginLine_spec hb with ⟨-, -, rfl⟩ | ⟨-, rfl⟩ <;> rfl
  · obtain ⟨d, -, -, rfl⟩ := openSuite_spec hb
    rfl
  · obtain ⟨e, outer, opener, around, d, -, -, -, rfl⟩ := closeSuite_spec hb
    rfl

theorem step_newline (hl : o.line?.isSome = true) (hk : t.kind = .newline) :
    (o.step t).isSome = true := by
  obtain ⟨line, hline⟩ := Option.isSome_iff_exists.1 hl
  simp [step, hline, hk]

/-- Where lines end behind code, the reader never stops at the end of one. -/
theorem not_newline_of_stop (h : EndsCode o.line?.isSome (ts.map (·.kind)))
    (hr : o.run ts = (n, t :: rest)) : t.kind ≠ .newline := by
  induction ts generalizing o with
  | nil => cases hr
  | cons u ts ih =>
    rw [run] at hr
    cases hs : o.step u with
    | some m =>
      rw [hs] at hr
      refine ih ?_ hr
      rw [line_of_step hs]
      exact h.2
    | none =>
      rw [hs] at hr
      cases hr
      intro hk
      have hsome := step_newline (h.1 hk) hk
      rw [hs] at hsome
      cases hsome

end Outliner

theorem not_newline_of_tokenize {s : Text} {ts : List Token} (h : tokenize s = .ok ts) :
    ∀ n t rest, Outliner.start.run (Token.significant ts) = (n, t :: rest) → t.kind ≠ .newline := by
  obtain ⟨us, last, p, hflow, -, rfl⟩ := exists_flow h
  exact fun n t rest => Outliner.not_newline_of_stop (hflow.lined_closing last p).endsCode

/-! ## Without the blank lines -/

/-- Places of one column, where `f` counts the lines anew. -/
def Recounted (f : Nat → Nat) (p q : Position) : Prop := q = ⟨f p.line, p.column⟩

section

variable {f : Nat → Nat} {t u : Token} {ts us : List Token}

theorem Token.Retold.akinAt (h : t.Retold f u) (hk : t.kind.isSignificant = true) :
    t.AkinAt (Recounted f) u := by
  have hbreak : t.kind ≠ .lineBreak := fun he => by rw [he] at hk; cases hk
  refine ⟨⟨h.kind.symm, fun hc w hw => ?_⟩, fun hn => ?_⟩
  · rw [h.text (by simp [hc]) hbreak]
    exact eq_iff_of_bare_eq (bare_reline .lf t.text).symm hw
  · exact congrArg₂ Position.mk h.startLine (h.columns hn hbreak).1

theorem significant_without_blank (ts : List Token) :
    Token.significant (ts.filter fun t => t.kind ≠ .blankLine) = Token.significant ts := by
  unfold Token.significant
  rw [List.filter_filter]
  refine List.filter_congr fun t _ => ?_
  cases t.kind <;> rfl

/-- The significant tokens of a text without its blank lines are akin to those that
it had. -/
theorem akinAt_of_retold
    (h : List.Forall₂ (Token.Retold f) (ts.filter fun t => t.kind ≠ .blankLine) us) :
    List.Forall₂ (Token.AkinAt (Recounted f)) (Token.significant ts) (Token.significant us) := by
  have hall : List.Forall₂ (Token.Retold f) (Token.significant ts) (Token.significant us) := by
    rw [← significant_without_blank ts]
    refine List.rel_filter (fun {t u} htu => ?_) h
    show t.kind.isSignificant = true ↔ u.kind.isSignificant = true
    rw [htu.kind]
  have hsig : ∀ t ∈ Token.significant ts, t.kind.isSignificant = true := fun t ht =>
    (List.mem_filter.1 ht).2
  exact ((List.forall₂_and_left _ _).2 ⟨hsig, hall⟩).imp fun t u htu => htu.2.akinAt htu.1

end

theorem endOfTokens_retold {s : Text} {ts us : List Token} {f : Nat → Nat}
    (hts : tokenize s = .ok ts)
    (h : List.Forall₂ (Token.Retold f) (ts.filter fun t => t.kind ≠ .blankLine) us) :
    Recounted f (endOfTokens ts) (endOfTokens us) := by
  obtain ⟨vs, last, p, -, -, rfl⟩ := exists_flow hts
  have hlast := rel_getLast h
  have hmark : ∀ vs : List Token, vs ++ closing last p =
      vs ++ last.levels.map (fun _ => Token.mark .dedent p) ++ [.mark .endMarker p] := fun vs =>
    (List.append_assoc ..).symm
  have hkeep : [Token.mark .endMarker p].filter (fun t => t.kind ≠ .blankLine) =
      [.mark .endMarker p] := rfl
  rw [hmark, List.filter_append, hkeep, List.getLast?_concat] at hlast
  obtain ⟨u, hu, hretold⟩ := rel_some_left hlast
  rw [endOfTokens, endOfTokens, hmark, List.getLast?_concat, hu]
  exact congrArg₂ Position.mk hretold.startLine (hretold.columns nofun nofun).1

/-- A program is refused for its statements if its statements are not to be found
among the tokens that it has with its blank lines, and for what is wrong with them
there; the place is that in the text without its blank lines. -/
theorem normalize_fault_iff {s : Text} {ts : List Token} (h : tokenize s = .ok ts) (o : Options)
    (e' : StructureError) : normalize o s = .error (.structural e') ↔
      ∃ e, outline ts = .error e ∧ e' = e.recount (lineWithout ts) := by
  obtain ⟨us, hus, hretold⟩ := exists_retold h
  have hsame := outline_twin (akinAt_of_retold hretold) (endOfTokens_retold h hretold)
    (not_newline_of_tokenize h)
  have hnormalize : normalize o s = .error (.structural e') ↔ outline us = .error e' := by
    have hclean : clean s = .ok (.ofTokens s ts) := by simp only [clean, tokensOf, h]
    have htokens : tokensOf (Cleaned.ofTokens s ts).text = .ok us := by
      simp only [tokensOf, Cleaned.text, Cleaned.ofTokens, hus]
    simp only [normalize, analyse, hclean, htokens, rangesOf, statementRanges]
    cases outline us <;> simp
  rw [hnormalize]
  generalize outline ts = found, outline us = found' at hsame ⊢
  cases hsame with
  | ok nodes nodes' => simp
  | @error e u hsame =>
    have he : u = e.recount (lineWithout ts) := by
      obtain ⟨place, sort⟩ := u
      exact congrArg₂ StructureError.mk hsame.place hsame.found.symm
    simp [he, eq_comm]

/-- A clause without a statement, below a blank line and one within a bracket. -/
theorem normalize_fault_bracket :
    ∃ ts, tokenize "(\n\na)\n\nelse\n".toList = .ok ts ∧
      outline ts = .error ⟨⟨5, 0⟩, .code "else".toList⟩ ∧
      normalize ⟨.lf, true⟩ "(\n\na)\n\nelse\n".toList =
        .error (.structural ⟨⟨3, 0⟩, .code "else".toList⟩) := by
  have h : tokenize "(\n\na)\n\nelse\n".toList = .ok [⟨.code, ⟨1, 0⟩, ⟨1, 1⟩, ['(']⟩,
      ⟨.lineBreak, ⟨1, 1⟩, ⟨1, 2⟩, ['\n']⟩, ⟨.blankLine, ⟨2, 0⟩, ⟨2, 0⟩, []⟩,
      ⟨.code, ⟨3, 0⟩, ⟨3, 1⟩, ['a']⟩, ⟨.code, ⟨3, 1⟩, ⟨3, 2⟩, [')']⟩,
      ⟨.newline, ⟨3, 2⟩, ⟨3, 3⟩, ['\n']⟩, ⟨.blankLine, ⟨4, 0⟩, ⟨4, 0⟩, []⟩,
      ⟨.code, ⟨5, 0⟩, ⟨5, 4⟩, "else".toList⟩, ⟨.newline, ⟨5, 4⟩, ⟨5, 5⟩, ['\n']⟩,
      ⟨.endMarker, ⟨6, 0⟩, ⟨6, 0⟩, []⟩] := by
    simp only [tokenize, tokenizeWith, scan_eq_scanIn]
    decide +kernel
  exact ⟨_, h, rfl, (normalize_fault_iff h _ _).2 ⟨_, rfl, by decide⟩⟩

/-- A blank line moves the place of what is wrong below it. -/
theorem normalize_fault_moved :
    ∃ ts, tokenize "x\n\n  y\n".toList = .ok ts ∧ outline ts = .error ⟨⟨3, 0⟩, .indent⟩ ∧
      normalize ⟨.lf, true⟩ "x\n\n  y\n".toList = .error (.structural ⟨⟨2, 0⟩, .indent⟩) := by
  refine ⟨[⟨.code, ⟨1, 0⟩, ⟨1, 1⟩, ['x']⟩, ⟨.newline, ⟨1, 1⟩, ⟨1, 2⟩, ['\n']⟩,
    ⟨.blankLine, ⟨2, 0⟩, ⟨2, 0⟩, []⟩, ⟨.indent, ⟨3, 0⟩, ⟨3, 2⟩, [' ', ' ']⟩,
    ⟨.code, ⟨3, 2⟩, ⟨3, 3⟩, ['y']⟩, ⟨.newline, ⟨3, 3⟩, ⟨3, 4⟩, ['\n']⟩,
    ⟨.dedent, ⟨4, 0⟩, ⟨4, 0⟩, []⟩, ⟨.endMarker, ⟨4, 0⟩, ⟨4, 0⟩, []⟩], ?_, rfl, ?_⟩
  · simp only [tokenize, tokenizeWith, scan_eq_scanIn]
    decide +kernel
  · simp only [normalize, analyse, clean, tokensOf, tokenize, tokenizeWith, scan_eq_scanIn]
    decide +kernel

end Offside
