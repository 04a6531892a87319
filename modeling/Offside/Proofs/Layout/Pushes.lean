import Offside.Proofs.Layout.Exchange

/-!
# Pushing lexemes

Lexemes can be pushed one at a time: any pieces of a source, in any order, and on behind
one that failed. A lexeme that fails may have closed levels before, or taken away a
bracket. What holds of the machine is put so that each move keeps it as far as it gets,
and nothing is asked of the lexemes.

Results:
* `step_floored`, `Reading.pushAll_floored`: no move closes depth zero, were it a level of
  its own;
* `Reading.Steady.push`: what a push keeps, whether it fails or not;
* `Reading.Steady.finish`: what such a state gives at the end of a source;
* `Reading.pushAll_spans`: the same for all that can be pushed.
-/
namespace Offside

open Layout

namespace Layout

/-! ## Levels on depth zero -/

section bottom

variable (levels : List Depth) (d : Depth)

theorem innermost_concat : innermost (levels ++ [.zero]) = innermost levels := by
  cases levels <;> rfl

theorem leave_concat : leave (levels ++ [.zero]) d = leave levels d ++ [.zero] := by
  induction levels with
  | nil => rfl
  | cons top outer ih =>
    by_cases h : d.column < top.column
    · rw [List.cons_append, leave_cons h, leave_cons h, ih]
    · simp [leave, h]

theorem dedents_concat (p : Position) : dedents (levels ++ [.zero]) d p = dedents levels d p := by
  induction levels with
  | nil => rfl
  | cons top outer ih =>
    by_cases h : d.column < top.column
    · rw [List.cons_append, dedents_cons h, dedents_cons h, ih]
    · simp [dedents, h]

end bottom

/-- The state with depth zero as a level of its own below all others. -/
def floored (s : Layout) : Layout := { s with levels := s.levels ++ [.zero] }

/-- What a move comes to, with depth zero as a level of the state it leaves. -/
def Step.floored (a : Step) : Step := ⟨a.emitted, a.next.floored, a.fault?⟩

variable {r : Ruler} {s : Layout}

theorem floored_andThen {f : Layout → Step} (hf : ∀ s, f s.floored = (f s).floored) (a : Step) :
    a.floored.andThen f = (a.andThen f).floored := by
  obtain ⟨ts, s, fault?⟩ := a
  cases fault? with
  | some e => rfl
  | none => simp only [Step.andThen, Step.floored, hf]

theorem indentTo_floored (p : Place) : indentTo r s.floored p = (indentTo r s p).floored := by
  simp only [indentTo, floored, innermost_concat, leave_concat, dedents_concat]
  split
  · split <;> rfl
  split
  · split <;> rfl
  split
  · rfl
  split <;> rfl

theorem beginCode_floored (p : Place) : beginCode r s.floored p = (beginCode r s p).floored := by
  have hseen : s.floored.codeSeen = s.codeSeen := rfl
  rw [beginCode, beginCode, hseen]
  split
  · rfl
  · rw [indentTo_floored, floored_andThen fun _ => rfl]

theorem closeBracket_floored (s : Layout) (p : Piece) :
    closeBracket s.floored p = (closeBracket s p).floored := by
  have hbrackets : s.floored.brackets = s.brackets := rfl
  rw [closeBracket, closeBracket, hbrackets]
  cases s.brackets.head? with
  | none => rfl
  | some b =>
    simp only
    split <;> rfl

theorem endLine_floored (p : Piece) : endLine s.floored p = (endLine s p).floored := by
  have hheld : s.floored.lineHeld = s.lineHeld := rfl
  have hbrackets : s.floored.brackets = s.brackets := rfl
  have hseen : s.floored.codeSeen = s.codeSeen := rfl
  have hjoined : s.floored.joined? = s.joined? := rfl
  simp only [endLine, hheld, hbrackets, hseen, hjoined]
  split
  · split <;> rfl
  · cases s.joined? <;> rfl

/-- No move takes depth zero away. -/
theorem step_floored (p : Piece) : step r s.floored p = (step r s p).floored := by
  unfold step
  cases p.kind with
  | space | continuation | comment => rfl
  | newline => exact endLine_floored p
  | opener =>
    exact (congrArg (Step.andThen · _) (beginCode_floored _)).trans
      (floored_andThen (fun _ => rfl) _)
  | closer =>
    exact (congrArg (Step.andThen · _) (beginCode_floored _)).trans
      (floored_andThen (closeBracket_floored · p) _)
  | literal | word | punct =>
    exact (congrArg (Step.andThen · _) (beginCode_floored _)).trans (floored_andThen (fun _ => rfl) _)

/-- The levels as they were opened: depth zero, and those that are open on it. -/
def stack (s : Layout) : List Depth := .zero :: s.levels.reverse

theorem length_stack (s : Layout) : s.stack.length = s.levels.length + 1 := by simp [stack]

theorem Stacked.pairwise_stack {s : Layout} (h : Stacked s.levels) :
    s.stack.Pairwise Depth.Under := by
  have hstack : s.stack = (s.levels ++ [Depth.zero]).reverse := by simp [stack]
  rw [hstack, List.pairwise_reverse]
  exact h

theorem levels_floored (s : Layout) : s.floored.levels = s.stack.reverse := by
  simp [floored, stack]

end Layout

/-! ## Any lexemes in any order -/

namespace Reading

/-- Pushes lexemes one after another, whatever comes of each. -/
def pushAll (a : Reading) (ps : List Piece) : Reading := ps.foldl (fun a p => (a.push p).1) a

/-- With depth zero as a level of its own below all others. -/
def floored (a : Reading) : Reading := ⟨a.tokens, a.layout.floored⟩

/-- However many lexemes are pushed, depth zero stays below all levels. -/
theorem pushAll_floored (a : Reading) (ps : List Piece) :
    a.floored.pushAll ps = (a.pushAll ps).floored := by
  induction ps generalizing a with
  | nil => rfl
  | cons p ps ih =>
    have hpush : (a.floored.push p).1 = (a.push p).1.floored := by
      rw [push, push, floored, floored]
      simp only [step_floored]
      rfl
    exact (congrArg (pushAll · ps) hpush).trans (ih _)

/-- Levels lie one under the other, and the tokens so far have opened those that are open.
Only a line that holds nothing waits behind a backslash, and brackets are open only within
a logical line. -/
structure Steady (a : Reading) : Prop where
  stacked : Stacked a.layout.levels
  climbs : climb 0 a.tokens = some a.layout.levels.length
  sound : Sound a.layout

theorem steady_start : start.Steady := ⟨stacked_start, rfl, sound_start⟩

section steady

variable {a : Reading}

theorem Steady.push (h : a.Steady) (p : Piece) : (a.push p).1.Steady :=
  ⟨h.stacked.step, (climb_append_of h.climbs).trans step_climbs, h.sound.step⟩

theorem Steady.pushAll (h : a.Steady) (ps : List Piece) : (a.pushAll ps).Steady := by
  induction ps generalizing a with
  | nil => exact h
  | cons p ps ih => exact ih (h.push p)

theorem Steady.balance (h : a.Steady) :
    countKind .indent a.tokens = countKind .dedent a.tokens + (a.layout.stack.length - 1) := by
  have := count_of_climb h.climbs
  rw [length_stack]
  omega

/-- What is given at the end of a source closes each level that is open. -/
theorem Steady.finish {source : Text} {ts : List Token} (h : a.Steady)
    (hf : a.finish source = .ok ts) :
    climb 0 ts = some 0 ∧ ∃ body p, ts = body ++ [.mark .endMarker p] := by
  unfold Reading.finish at hf
  split at hf
  · cases hf
  next closing hclosing =>
  cases hf
  unfold Layout.finish at hclosing
  split at hclosing
  · cases hclosing
  · cases hclosing
  cases hclosing
  have hline := climb_of_level (closeLine_level a.layout (Place.start.advance source))
    a.layout.levels.length
  have hlevels := climb_dedents
    (closing_dedents a.layout.levels (Place.start.advance source).pastEnd) 0
  rw [Nat.zero_add, List.length_map] at hlevels
  refine ⟨?_, a.tokens ++ (closeLine a.layout _ ++ a.layout.levels.map fun _ => _), _,
    (List.append_assoc ..).symm⟩
  rw [climb_append_of h.climbs, List.append_assoc, climb_append_of hline, climb_append_of hlevels]
  rfl

end steady

/-- Whatever pieces of a source are pushed as whatever lexemes, and whichever of them fail:
were depth zero a level of its own, it would stay below all levels, with everything else the
same; the levels lie one under the other by both rules; as many
have been opened and not closed as are open; brackets are open only within a logical line,
and only a line that holds nothing waits behind a backslash. So if the source can end
there, each level that was opened is closed, and the end is marked. -/
theorem pushAll_spans (source : Text) (spans : List (Lexeme.Kind × Nat × Nat)) :
    ∃ a, a = start.pushAll (spans.map fun s => .ofSpan source s.1 s.2.1 s.2.2) ∧
      a.floored = start.floored.pushAll (spans.map fun s => .ofSpan source s.1 s.2.1 s.2.2) ∧
      a.floored.layout.levels = a.layout.stack.reverse ∧
      a.layout.stack.head? = some .zero ∧ a.layout.stack.Pairwise Depth.Under ∧
      countKind .indent a.tokens = countKind .dedent a.tokens + (a.layout.stack.length - 1) ∧
      (a.layout.brackets ≠ [] → a.layout.codeSeen = true) ∧
      (a.layout.joined? ≠ none → a.layout.lineHeld = false) ∧
      ∀ ts, a.finish source = .ok ts → countKind .indent ts = countKind .dedent ts ∧
        ts.getLast?.map (·.kind) = some .endMarker := by
  have h := steady_start.pushAll (spans.map fun s => .ofSpan source s.1 s.2.1 s.2.2)
  refine ⟨_, rfl, (pushAll_floored _ _).symm, levels_floored _, rfl, h.stacked.pairwise_stack,
    h.balance, h.sound.within, fun hj => ?_,
    fun ts hts => ?_⟩
  · exact Bool.eq_false_iff.2 fun hh => hj (h.sound.waits hh)
  · obtain ⟨hclimb, body, p, rfl⟩ := h.finish hts
    refine ⟨by simpa using count_of_climb hclimb, ?_⟩
    rw [List.getLast?_concat]
    rfl

/-- A line that closes a level before it is refused, and is then taken for a closer: it
opens a level before that is refused as well, and the text ends with this level open. -/
theorem pushAll_spans_refused : ∃ (source : Text) (a : Reading) (ts : List Token),
    source = "if a:\n    b\n  c\n".toList ∧
      a = start.pushAll ([(.word, 0, 2), (.newline, 5, 6), (.word, 10, 11), (.newline, 11, 12),
        (.word, 14, 15), (.closer, 14, 15), (.newline, 15, 16)].map fun s =>
          Piece.ofSpan source s.1 s.2.1 s.2.2) ∧
      a.layout.stack = [.zero, ⟨2, 2⟩] ∧
      a.tokens.map (·.kind) =
        [.code, .newline, .indent, .code, .newline, .dedent, .indent, .newline] ∧
      a.finish source = .ok ts ∧ countKind .indent ts = countKind .dedent ts ∧
      ts.getLast?.map (·.kind) = some .endMarker := by
  have h := pushAll_spans "if a:\n    b\n  c\n".toList [(.word, 0, 2), (.newline, 5, 6),
    (.word, 10, 11), (.newline, 11, 12), (.word, 14, 15), (.closer, 14, 15), (.newline, 15, 16)]
  obtain ⟨a, ha, -, -, -, -, -, -, -, hfinish⟩ := h
  have hstack : a.layout.stack = [.zero, ⟨2, 2⟩] := by rw [ha]; decide
  have hok : (a.finish "if a:\n    b\n  c\n".toList).isOk = true := by rw [ha]; decide
  cases hts : a.finish "if a:\n    b\n  c\n".toList with
  | error e => rw [hts] at hok; cases hok
  | ok ts => exact ⟨_, a, ts, rfl, ha, hstack, by rw [ha]; decide, hts, hfinish ts hts⟩

end Reading

end Offside
