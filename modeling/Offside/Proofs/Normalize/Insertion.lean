import Offside.Normalize

/-!
# Where separators are put in

Separators are put in from the last to the first, each by its own number into lines that
have grown already. That is one pass over the lines as they were: no number that is still
to come counts a line that stands behind.

Results:
* `insertIdx_spread`: one more empty line, before all that have been put in;
* `foldr_separateAt_spread`: the same one after another;
* `insertSeparators_spread`: separators, put in in one pass.
-/
namespace Offside

/-- Lines with an empty one before each position whose number is one of `ns`, where the
first line has number `n`; the position behind the last line counts too. -/
def spread (ns : List Nat) : Nat → List Text → List Text
  | n, [] => if n ∈ ns then [[]] else []
  | n, l :: ls => (if n ∈ ns then [[]] else []) ++ l :: spread ns (n + 1) ls

theorem spread_congr {ns ms : List Nat} {n : Nat} {ls : List Text}
    (h : ∀ k, n ≤ k → k ≤ n + ls.length → (k ∈ ns ↔ k ∈ ms)) : spread ns n ls = spread ms n ls := by
  induction ls generalizing n with
  | nil => simp only [spread, h n (Nat.le_refl n) (Nat.le_refl n)]
  | cons l ls ih =>
    rw [List.length_cons] at h
    have hrest := ih (n := n + 1) fun k h1 h2 => h k (by omega) (by omega)
    simp only [spread, hrest, h n (Nat.le_refl n) (by omega)]

theorem spread_nil (n : Nat) (ls : List Text) : spread [] n ls = ls := by
  induction ls generalizing n with
  | nil => rfl
  | cons l ls ih => simp [spread, ih]

/-- One more empty line, before all that have been put in: its number is still that of the
position it had. -/
theorem insertIdx_spread {ns : List Nat} {k n : Nat} (ls : List Text) (hk : k ≤ n)
    (hns : ∀ m ∈ ns, n < m) : (spread ns k ls).insertIdx (n - k) [] = spread (n :: ns) k ls := by
  have hfree : k ∉ ns := fun h => Nat.not_lt.2 hk (hns k h)
  induction ls generalizing k with
  | nil =>
    rw [spread, spread, if_neg hfree]
    rcases Nat.eq_or_lt_of_le hk with rfl | hlt
    · simp
    · have hnot : k ∉ n :: ns := List.not_mem_cons_of_ne_of_not_mem (Nat.ne_of_lt hlt) hfree
      obtain ⟨j, hj⟩ : ∃ j, n - k = j + 1 := ⟨n - k - 1, by omega⟩
      rw [if_neg hnot, hj, List.insertIdx_succ_nil]
  | cons l ls ih =>
    rw [spread, spread, if_neg hfree, List.nil_append]
    rcases Nat.eq_or_lt_of_le hk with rfl | hlt
    · have hrest : spread ns (k + 1) ls = spread (k :: ns) (k + 1) ls :=
        spread_congr fun m hm _ => by rw [List.mem_cons, or_iff_right (by omega)]
      rw [Nat.sub_self, List.insertIdx_zero, if_pos (List.mem_cons_self), hrest]
      rfl
    · have hnot : k ∉ n :: ns := List.not_mem_cons_of_ne_of_not_mem (Nat.ne_of_lt hlt) hfree
      have hnext : n - k = n - (k + 1) + 1 := by omega
      rw [if_neg hnot, hnext, List.insertIdx_succ_cons,
        ih hlt fun h => Nat.not_lt.2 hlt (hns (k + 1) h)]
      rfl

/-- Empty lines put in from the last to the first stand before the positions that had
these numbers before any was put in. -/
theorem foldr_separateAt_spread {ns : List Nat} (hns : ns.Pairwise (· < ·)) (ls : List Text) :
    ns.foldr separateAt ls = spread (ns.filter (1 < ·)) 1 ls := by
  induction ns with
  | nil => exact (spread_nil 1 ls).symm
  | cons n ns ih =>
    obtain ⟨hlt, hns⟩ := List.pairwise_cons.1 hns
    have hbehind : ∀ m ∈ ns.filter (1 < ·), n < m := fun m hm => hlt m (List.mem_filter.1 hm).1
    rw [List.foldr_cons, ih hns, separateAt]
    split
    · next hn =>
      rw [insertIdx_spread ls (Nat.le_of_lt hn) hbehind, List.filter_cons_of_pos (by simpa using hn)]
    · next hn => rw [List.filter_cons_of_neg (by simpa using hn)]

theorem mem_tail_filter {ranges : List LineRange} {last k : Nat} (hk : k ≤ last)
    (h : ranges.Pairwise fun r r' => r.first < r'.first) :
    k ∈ (ranges.filter (·.first ≤ last)).tail.map (·.first) ↔ k ∈ ranges.tail.map (·.first) := by
  cases ranges with
  | nil => exact Iff.rfl
  | cons r rs =>
    by_cases hr : r.first ≤ last
    · rw [List.filter_cons_of_pos (by simpa using hr), List.tail_cons, List.tail_cons,
        List.mem_map, List.mem_map]
      constructor
      · rintro ⟨q, hq, rfl⟩
        exact ⟨q, (List.mem_filter.1 hq).1, rfl⟩
      · rintro ⟨q, hq, rfl⟩
        exact ⟨q, List.mem_filter.2 ⟨hq, by simpa using hk⟩, rfl⟩
    · have hlate : ∀ q ∈ rs, ¬ q.first ≤ last := fun q hq => by
        have := (List.pairwise_cons.1 h).1 q hq
        omega
      have hnone : (r :: rs).filter (·.first ≤ last) = [] := by
        rw [List.filter_eq_nil_iff]
        simpa using ⟨Nat.not_le.1 hr, fun q hq => Nat.not_le.1 (hlate q hq)⟩
      rw [hnone]
      refine iff_of_false List.not_mem_nil fun hmem => ?_
      obtain ⟨q, hq, rfl⟩ := List.mem_map.1 hmem
      exact hlate q hq hk

theorem insertSeparators_eq_foldr (ls : List Text) (ranges : List LineRange) :
    insertSeparators ls ranges = (ranges.tail.map (·.first)).foldr separateAt ls :=
  List.foldr_map.symm

/-- Separators, put in in one pass from the front: one empty line before each position but
the first on which a range other than the first starts. Ranges that start behind the end
change nothing. -/
theorem insertSeparators_spread {ranges : List LineRange} (ls : List Text)
    (h : ranges.Pairwise fun r r' => r.first < r'.first) :
    insertSeparators ls ranges = spread ((ranges.tail.map (·.first)).filter (1 < ·)) 1 ls ∧
      insertSeparators ls (ranges.filter (·.first ≤ ls.length + 1)) =
        insertSeparators ls ranges := by
  have hpass : ∀ {rs : List LineRange}, rs.Pairwise (fun r r' => r.first < r'.first) →
      insertSeparators ls rs = spread ((rs.tail.map (·.first)).filter (1 < ·)) 1 ls := by
    intro rs hrs
    rw [insertSeparators_eq_foldr]
    exact foldr_separateAt_spread (List.pairwise_map.2 hrs.tail) ls
  refine ⟨hpass h, ?_⟩
  rw [hpass h, hpass (h.filter _)]
  refine spread_congr fun k _ hk => ?_
  rw [List.mem_filter, List.mem_filter, mem_tail_filter (by omega) h]

/-- Ranges from before the first line, on it, at both ends and behind the end. -/
theorem insertSeparators_spread_edges : ∃ ranges : List LineRange,
    ranges.map (·.first) = [0, 1, 2, 3, 4, 9] ∧
      (ranges.Pairwise fun r r' => r.first < r'.first) ∧
      insertSeparators [['a'], ['b'], ['c']] ranges = [['a'], [], ['b'], [], ['c'], []] ∧
      insertSeparators [['a'], ['b'], ['c']] ranges =
        spread ((ranges.tail.map (·.first)).filter (1 < ·)) 1 [['a'], ['b'], ['c']] := by
  refine ⟨[⟨0, 0, true⟩, ⟨1, 1, true⟩, ⟨2, 2, true⟩, ⟨3, 3, true⟩, ⟨4, 8, false⟩, ⟨9, 9, true⟩],
    by decide, by decide, by decide, ?_⟩
  exact (insertSeparators_spread _ (by decide)).1

end Offside
