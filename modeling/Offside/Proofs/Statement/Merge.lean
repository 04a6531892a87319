import Offside.Statement.Range

/-!
# Where ranges begin

A range behind the first begins where a statement starts, unless single lines are
taken together there: the statement and the one before it are both of one line. So
what is gathered line by line and in runs can be told from the lines on which
statements start.

Results:
* `map_first_mergeRuns`: the ranges that are left after single lines were taken
  together;
* `first_of_ranges`: the lines on which the ranges behind the first begin.
-/
namespace Offside

/-- Statement `i` of those that start on these lines takes a single line: the next
one starts on the line behind it, or the program ends there, which has `count`
lines. -/
def isSingleAt (count : Nat) (starts : List Nat) (i : Nat) : Bool :=
  starts.getD (i + 1) (count + 1) == starts.getD i 0 + 1

/-- The lines before which a separator belongs, of those on which statements start:
the first has none before it, and with `merge` none stands between two statements
of a single line each. -/
def separatorLines (merge : Bool) (count : Nat) (starts : List Nat) : List Nat :=
  ((List.range (starts.length - 1)).filter fun i =>
    !(merge && isSingleAt count starts i && isSingleAt count starts (i + 1))).map
      fun i => starts.getD (i + 1) 0

@[simp] theorem isSingleAt_cons_succ (count a : Nat) (starts : List Nat) (i : Nat) :
    isSingleAt count (a :: starts) (i + 1) = isSingleAt count starts i := rfl

theorem separatorLines_cons (merge : Bool) (count a b : Nat) (rest : List Nat) :
    separatorLines merge count (a :: b :: rest) =
      (if merge && isSingleAt count (a :: b :: rest) 0 && isSingleAt count (b :: rest) 0 then []
        else [b]) ++ separatorLines merge count (b :: rest) := by
  have hlen : (a :: b :: rest).length - 1 = rest.length + 1 := rfl
  rw [separatorLines, hlen, List.range_succ_eq_map, List.filter_cons]
  simp only [isSingleAt_cons_succ, Nat.zero_add]
  cases merge && isSingleAt count (a :: b :: rest) 0 && isSingleAt count (b :: rest) 0 <;>
    simp [separatorLines, List.filter_map, Function.comp_def]

theorem separatorLines_sublist (merge : Bool) (count : Nat) (starts : List Nat) :
    List.Sublist (separatorLines merge count starts) starts.tail := by
  induction starts with
  | nil => exact List.nil_sublist _
  | cons a starts ih =>
    cases starts with
    | nil => exact List.nil_sublist _
    | cons b rest =>
      rw [separatorLines_cons]
      split
      · exact ih.cons b
      · exact ih.cons_cons b

theorem separatorLines_false (count : Nat) (starts : List Nat) :
    separatorLines false count starts = starts.tail := by
  induction starts with
  | nil => rfl
  | cons a starts ih =>
    cases starts with
    | nil => rfl
    | cons b rest => rw [separatorLines_cons, ih]; rfl

example : separatorLines true 7 [1, 2, 3, 5, 7] = [3, 5, 7] := by decide

namespace LineRange

theorem map_first_ofStarts (lastLine : Nat) (ss : List Nat) :
    (ofStarts lastLine ss).map (·.first) = ss := by
  induction ss with
  | nil => rfl
  | cons a ss ih =>
    cases ss with
    | nil => rfl
    | cons b ss => rw [ofStarts, List.map_cons, ih]; rfl

/-- The ranges at which one begins anew when single lines are taken together;
`inRun` tells whether the range before is a single line. -/
def runStarts (inRun : Bool) : List LineRange → List LineRange
  | [] => []
  | r :: rest => (if inRun && r.isSingle then [] else [r]) ++ runStarts r.isSingle rest

theorem map_first_mergeInto (current : LineRange) (inRun : Bool) (rs : List LineRange) :
    (mergeInto current inRun rs).map (·.first) =
      current.first :: (runStarts inRun rs).map (·.first) := by
  induction rs generalizing current inRun with
  | nil => rfl
  | cons r rs ih =>
    rw [mergeInto, runStarts]
    split
    · next h =>
      have hr : r.isSingle = true := (Bool.and_eq_true_iff.1 h).2
      rw [ih, hr]
      rfl
    · rw [List.map_cons, ih]
      rfl

/-- The ranges that are left after single lines were taken together. -/
theorem map_first_mergeRuns (r : LineRange) (rs : List LineRange) :
    (mergeRuns (r :: rs)).map (·.first) =
      r.first :: (runStarts r.isSingle rs).map (·.first) :=
  map_first_mergeInto r r.isSingle rs

theorem exists_ofStarts {count a : Nat} {rest : List Nat} (hp : (a :: rest).Pairwise (· < ·))
    (hc : ∀ s ∈ a :: rest, s ≤ count) :
    ∃ r, ofStarts count (a :: rest) = r :: ofStarts count rest ∧ r.first = a ∧
      r.isSingle = isSingleAt count (a :: rest) 0 := by
  cases rest with
  | nil =>
    have ha := hc a (by simp)
    refine ⟨between a (max count a), rfl, rfl, ?_⟩
    simp only [between, isSingleAt, List.getD_cons_zero, List.getD_cons_succ, List.getD_nil]
    rw [Bool.eq_iff_iff, beq_iff_eq, beq_iff_eq]
    omega
  | cons b rest =>
    have hab := (List.pairwise_cons.1 hp).1 b (by simp)
    refine ⟨between a (max (b - 1) a), rfl, rfl, ?_⟩
    simp only [between, isSingleAt, List.getD_cons_zero, List.getD_cons_succ]
    rw [Bool.eq_iff_iff, beq_iff_eq, beq_iff_eq]
    omega

theorem map_first_runStarts {count a : Nat} {rest : List Nat}
    (hp : (a :: rest).Pairwise (· < ·)) (hc : ∀ s ∈ a :: rest, s ≤ count) :
    (runStarts (isSingleAt count (a :: rest) 0) (ofStarts count rest)).map (·.first) =
      separatorLines true count (a :: rest) := by
  induction rest generalizing a with
  | nil => rfl
  | cons b rest ih =>
    have hp' := (List.pairwise_cons.1 hp).2
    have hc' : ∀ s ∈ b :: rest, s ≤ count := fun s hs => hc s (List.mem_cons_of_mem a hs)
    obtain ⟨r, hr, hfirst, hsingle⟩ := exists_ofStarts hp' hc'
    rw [hr, runStarts, hsingle, List.map_append, ih hp' hc', separatorLines_cons, Bool.true_and]
    split
    · rfl
    · rw [List.map_singleton, hfirst]

end LineRange

/-- The ranges behind the first begin where statements start, and where a separator
belongs. -/
theorem first_of_ranges {merge : Bool} {ts : List Token} {count : Nat} {ranges : List LineRange}
    (h : statementRanges merge ts count = .ok ranges) : ∃ nodes, outline ts = .ok nodes ∧
      ((nodes.map (·.start.line)).Pairwise (· < ·) →
        (∀ n ∈ nodes.map (·.start.line), n ≤ count) →
        ranges.tail.map (·.first) =
          separatorLines merge count (nodes.map (·.start.line))) := by
  unfold statementRanges at h
  split at h
  · cases h
  · next nodes ho =>
    cases h
    refine ⟨nodes, ho, fun hp hc => ?_⟩
    have hstarts : LineRange.startLines nodes = nodes.map (·.start.line) :=
      ascending_of_pairwise hp
    rw [hstarts]
    generalize nodes.map (·.start.line) = starts at hp hc
    cases merge with
    | false =>
      rw [if_neg Bool.false_ne_true, List.map_tail, LineRange.map_first_ofStarts,
        separatorLines_false]
    | true =>
      rw [if_pos rfl, List.map_tail]
      cases starts with
      | nil => rfl
      | cons a rest =>
        obtain ⟨r, hr, -, hsingle⟩ := LineRange.exists_ofStarts hp hc
        rw [hr, LineRange.map_first_mergeRuns, hsingle, List.tail_cons]
        exact LineRange.map_first_runStarts hp hc

end Offside
