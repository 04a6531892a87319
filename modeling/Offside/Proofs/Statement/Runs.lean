import Offside.Proofs.Statement.Merge
import Mathlib.Data.List.SplitBy

/-!
# Runs of single lines

Ranges fall into runs: neighbours that are both marked as a single line stand in one run,
and every other two neighbours in two. Taking single lines together leaves one range of
each run, whatever lines the ranges have and however they are marked.

Results:
* `single_of_mem_runs`: a run of two ranges or more has single lines only;
* `mergeInto_collapse`: what has been taken in so far is a run that may still grow;
* `mergeRuns_separate`, `mergeRuns_of_separate`: no two single lines stand side by side
  any more, and where none do nothing is taken together;
* `Contiguous.mergeInto`: the lines of ranges without gaps stay;
* `mergeRuns_runs`: what is left are the runs, each as one range.
-/
namespace Offside

namespace LineRange

/-- Both ranges are marked as a single line. -/
def alike (r r' : LineRange) : Bool := r.isSingle && r'.isSingle

/-- The ranges in runs, each as long as it can be. -/
def runs (rs : List LineRange) : List (List LineRange) := rs.splitBy alike

/-- A run as one range: from the first line of its first range to the last line of its
last. A range alone stays as it is. -/
def collapse : List LineRange → List LineRange
  | r :: q :: rest => [between r.first ((q :: rest).getLast (List.cons_ne_nil q rest)).last]
  | run => run

/-- No two neighbours are both marked as a single line. -/
def Separate (rs : List LineRange) : Prop := rs.IsChain fun r r' => alike r r' = false

/-- The line is one of those of the ranges. -/
def Covered (rs : List LineRange) (k : Nat) : Prop := ∃ r ∈ rs, r.first ≤ k ∧ k ≤ r.last

/-- Each range begins on the line behind the one before. A range may be empty. -/
structure Contiguous (rs : List LineRange) : Prop where
  proper : ∀ r ∈ rs, r.first ≤ r.last + 1
  next : rs.IsChain fun r r' => r'.first = r.last + 1

/-! ## One range of each run -/

theorem single_of_chain {q r : LineRange} {rest : List LineRange}
    (h : (q :: r :: rest).IsChain fun p p' => alike p p' = true) :
    ∀ p ∈ q :: r :: rest, p.isSingle = true := by
  induction rest generalizing q r with
  | nil =>
    have halike := Bool.and_eq_true_iff.1 (List.isChain_cons_cons.1 h).1
    simpa using halike
  | cons r' rest ih =>
    obtain ⟨halike, hrest⟩ := List.isChain_cons_cons.1 h
    exact List.forall_mem_cons.2 ⟨(Bool.and_eq_true_iff.1 halike).1, ih hrest⟩

theorem single_of_mem_runs {rs run : List LineRange} (h : run ∈ runs rs) (hlen : 2 ≤ run.length) :
    ∀ r ∈ run, r.isSingle = true := by
  match run, hlen with
  | q :: r :: rest, _ => exact single_of_chain (List.isChain_of_mem_splitBy h)

theorem collapse_concat {run : List LineRange} {current : LineRange} (h : collapse run = [current])
    (r : LineRange) : collapse (run ++ [r]) = [between current.first r.last] := by
  match run with
  | [] => cases h
  | [q] =>
    cases h
    rfl
  | q :: q' :: rest =>
    obtain rfl := List.singleton_inj.1 h
    have hlast : (q' :: (rest ++ [r])).getLast (List.cons_ne_nil _ _) = r := by
      simp [List.getLast_cons]
    simp only [List.cons_append, collapse, hlast, between]

/-- What has been taken in so far is a run that may still grow, `current` being the one
range of it and `tail` its last. -/
theorem mergeInto_collapse {run : List LineRange} {current tail : LineRange}
    (hrun : run.IsChain fun r r' => alike r r' = true) (htail : run.getLast? = some tail)
    (hcurrent : collapse run = [current]) (rs : List LineRange) :
    mergeInto current tail.isSingle rs = (runs (run ++ rs)).flatMap collapse := by
  have hne : run ≠ [] := fun h => by simp [h] at htail
  induction rs generalizing run current tail with
  | nil =>
    rw [mergeInto, List.append_nil, runs, List.splitBy_of_isChain hne hrun, List.flatMap_singleton,
      hcurrent]
  | cons r rs ih =>
    rw [mergeInto]
    split
    · next hgrow =>
      have hr : r.isSingle = true := (Bool.and_eq_true_iff.1 hgrow).2
      have hgrown : (run ++ [r]).IsChain fun r r' => alike r r' = true :=
        List.isChain_append.2 ⟨hrun, .singleton r, fun x hx y hy => by
          obtain rfl := Option.some.inj (htail.symm.trans hx)
          obtain rfl := Option.some.inj hy
          exact hgrow⟩
      rw [List.append_cons run, ← hr]
      exact ih hgrown (by simp) (collapse_concat hcurrent r) (by simp)
    · next hends =>
      have hcut : ∀ x ∈ run.getLast?, alike x r = false := fun x hx => by
        obtain rfl := Option.some.inj (htail.symm.trans hx)
        exact Bool.eq_false_iff.2 hends
      have halone : [r].IsChain fun q q' => alike q q' = true := .singleton r
      have hnext : mergeInto r r.isSingle rs = (runs (r :: rs)).flatMap collapse :=
        ih halone rfl rfl (List.cons_ne_nil r [])
      rw [runs, List.splitBy_append_cons rs hcut, List.splitBy_of_isChain hne hrun,
        List.flatMap_append, List.flatMap_singleton, hcurrent, hnext]
      rfl

theorem mergeRuns_collapse (rs : List LineRange) : mergeRuns rs = (runs rs).flatMap collapse := by
  cases rs with
  | nil => rfl
  | cons r rs => exact mergeInto_collapse (.singleton r) rfl rfl rs

/-! ## Single lines stand apart -/

theorem mergeInto_of_separate {current : LineRange} {rs : List LineRange}
    (h : Separate (current :: rs)) : mergeInto current current.isSingle rs = current :: rs := by
  induction rs generalizing current with
  | nil => rfl
  | cons r rs ih =>
    obtain ⟨halike, hrest⟩ := List.isChain_cons_cons.1 h
    have hends : ¬ (current.isSingle && r.isSingle) = true := Bool.eq_false_iff.1 halike
    rw [mergeInto, if_neg hends, ih hrest]

theorem mergeRuns_of_separate {rs : List LineRange} (h : Separate rs) : mergeRuns rs = rs := by
  cases rs with
  | nil => rfl
  | cons r rs => exact mergeInto_of_separate h

/-- The first range that comes out is the one that was begun with, unless it has grown. -/
theorem head_mergeInto (current : LineRange) (rs : List LineRange) :
    (mergeInto current false rs).head? = some current := by
  cases rs <;> rfl

theorem mergeInto_separate {current : LineRange} {inRun : Bool}
    (h : current.isSingle = true → inRun = true) (rs : List LineRange) :
    Separate (mergeInto current inRun rs) := by
  induction rs generalizing current inRun with
  | nil => exact .singleton current
  | cons r rs ih =>
    rw [mergeInto]
    split
    · exact ih fun _ => rfl
    · next hends =>
      refine List.isChain_cons.2 ⟨fun q hq => ?_, ih id⟩
      cases hc : current.isSingle with
      | false => simp [alike, hc]
      | true =>
        have hr : r.isSingle = false := by simpa [h hc] using hends
        rw [hr, head_mergeInto] at hq
        obtain rfl := Option.some.inj hq
        simp [alike, hr]

theorem mergeRuns_separate (rs : List LineRange) : Separate (mergeRuns rs) := by
  cases rs with
  | nil => exact .nil
  | cons r rs => exact mergeInto_separate id rs

/-! ## Lines -/

theorem getLast_mergeInto (current : LineRange) (inRun : Bool) (rs : List LineRange) :
    (mergeInto current inRun rs).getLast?.map (·.last) =
      (current :: rs).getLast?.map (·.last) := by
  induction rs generalizing current inRun with
  | nil => rfl
  | cons r rs ih =>
    rw [mergeInto]
    split
    · rw [ih]
      cases rs <;> rfl
    · have hne : mergeInto r r.isSingle rs ≠ [] := fun h => by
        have := ih r r.isSingle
        simp [h, List.getLast?_cons] at this
      rw [List.getLast?_cons_of_ne_nil hne, ih]
      rfl

theorem ends_mergeRuns (rs : List LineRange) :
    (mergeRuns rs).head?.map (·.first) = rs.head?.map (·.first) ∧
      (mergeRuns rs).getLast?.map (·.last) = rs.getLast?.map (·.last) := by
  cases rs with
  | nil => exact ⟨rfl, rfl⟩
  | cons r rs =>
    refine ⟨?_, getLast_mergeInto r r.isSingle rs⟩
    rw [← List.head?_map, map_first_mergeRuns]
    rfl

theorem covered_cons {r : LineRange} {rs : List LineRange} {k : Nat} :
    Covered (r :: rs) k ↔ (r.first ≤ k ∧ k ≤ r.last) ∨ Covered rs k := by
  simp [Covered]

theorem Contiguous.join {q r : LineRange} {rs : List LineRange} (h : Contiguous (q :: r :: rs)) :
    Contiguous (between q.first r.last :: rs) ∧
      ∀ k, Covered (between q.first r.last :: rs) k ↔ Covered (q :: r :: rs) k := by
  obtain ⟨hproper, hnext⟩ := h
  obtain ⟨hqr, hrest⟩ := List.isChain_cons_cons.1 hnext
  have hq := hproper q (by simp)
  have hr := hproper r (by simp)
  refine ⟨⟨fun p hp => ?_, ?_⟩, fun k => ?_⟩
  · rcases List.mem_cons.1 hp with rfl | hp
    · show q.first ≤ r.last + 1
      omega
    · exact hproper p (by simp [hp])
  · exact List.isChain_cons.2 (List.isChain_cons.1 hrest)
  · rw [covered_cons, covered_cons, covered_cons, ← or_assoc]
    refine or_congr_left ?_
    show q.first ≤ k ∧ k ≤ r.last ↔ _
    omega

theorem Contiguous.tail {r : LineRange} {rs : List LineRange} (h : Contiguous (r :: rs)) :
    Contiguous rs :=
  ⟨fun q hq => h.proper q (by simp [hq]), h.next.tail⟩

/-- The lines of ranges without gaps stay. -/
theorem Contiguous.mergeInto {current : LineRange} {rs : List LineRange}
    (h : Contiguous (current :: rs)) (inRun : Bool) (k : Nat) :
    Covered (LineRange.mergeInto current inRun rs) k ↔ Covered (current :: rs) k := by
  induction rs generalizing current inRun with
  | nil => exact Iff.rfl
  | cons r rs ih =>
    rw [LineRange.mergeInto]
    split
    · obtain ⟨hjoin, hcovered⟩ := h.join
      exact (ih hjoin true).trans (hcovered k)
    · rw [covered_cons, covered_cons, ih h.tail]

/-- What is left are the runs, each as one range, and those of two ranges or more are of
single lines. So no two single lines stand side by side any more, and nothing is left to
take together; the first line and the last stay, and so does each line of ranges without
gaps. -/
theorem mergeRuns_runs (rs : List LineRange) :
    mergeRuns rs = (runs rs).flatMap collapse ∧
      (∀ run ∈ runs rs, 2 ≤ run.length → ∀ r ∈ run, r.isSingle = true) ∧
      Separate (mergeRuns rs) ∧ mergeRuns (mergeRuns rs) = mergeRuns rs ∧
      (mergeRuns rs).head?.map (·.first) = rs.head?.map (·.first) ∧
      (mergeRuns rs).getLast?.map (·.last) = rs.getLast?.map (·.last) ∧
      (Contiguous rs → ∀ k, Covered (mergeRuns rs) k ↔ Covered rs k) := by
  obtain ⟨hfirst, hlast⟩ := ends_mergeRuns rs
  refine ⟨mergeRuns_collapse rs, fun _ => single_of_mem_runs, mergeRuns_separate rs,
    mergeRuns_of_separate (mergeRuns_separate rs), hfirst, hlast, fun h k => ?_⟩
  cases rs with
  | nil => exact Iff.rfl
  | cons r rs => exact h.mergeInto r.isSingle k

/-- A run of three ranges, one of which takes three lines for all its mark says, between
ranges that are no single lines or are not marked as one. -/
theorem mergeRuns_runs_marked : ∃ rs : List LineRange,
    rs = [⟨2, 3, false⟩, ⟨4, 4, true⟩, ⟨5, 7, true⟩, ⟨8, 8, true⟩, ⟨9, 9, false⟩, ⟨10, 10, true⟩] ∧
      Contiguous rs ∧
      mergeRuns rs = [⟨2, 3, false⟩, ⟨4, 8, false⟩, ⟨9, 9, false⟩, ⟨10, 10, true⟩] ∧
      mergeRuns (mergeRuns rs) = mergeRuns rs ∧
      ∀ k, Covered (mergeRuns rs) k ↔ Covered rs k := by
  refine ⟨_, rfl, ?_, by decide, ?_⟩
  · exact ⟨by decide, by decide⟩
  · obtain ⟨-, -, -, hagain, -, -, hcovered⟩ := mergeRuns_runs
      [⟨2, 3, false⟩, ⟨4, 4, true⟩, ⟨5, 7, true⟩, ⟨8, 8, true⟩, ⟨9, 9, false⟩, ⟨10, 10, true⟩]
    exact ⟨hagain, hcovered ⟨by decide, by decide⟩⟩

end LineRange

end Offside
