import Offside.Proofs.Bytes.Normalize

/-!
# Which lines are taken out

Lines are taken out from the last to the first, each by its own number out of lines that
have become fewer already. That is one pass over the lines as they were: whatever is gone
stood behind the line whose turn it is, so that this one still has its number, and numbers
of no line take nothing out.

Results:
* `eraseIdx_without`: one more line out, before all that have been taken out;
* `foldr_removeLine_without`: the same one after another;
* `removeBlankLines_filter`: lines that are marked blank, taken out in one pass.
-/
namespace Offside

/-- Lines without those whose number is one of `ns`, where the first line has number `n`. -/
def without (ns : List Nat) (n : Nat) (ls : List Text) : List Text :=
  ((ls.zipIdx n).filter (·.2 ∉ ns)).map (·.1)

theorem without_cons (ns : List Nat) (n : Nat) (l : Text) (ls : List Text) :
    without ns n (l :: ls) = (if n ∈ ns then [] else [l]) ++ without ns (n + 1) ls := by
  rw [without, List.zipIdx_cons, List.filter_cons]
  by_cases h : n ∈ ns
  · simp [h, without]
  · simp [h, without]

theorem without_nil (n : Nat) (ls : List Text) : without [] n ls = ls := by
  simp [without]

theorem without_congr {ns ms : List Nat} {n : Nat} {ls : List Text}
    (h : ∀ k, n ≤ k → k < n + ls.length → (k ∈ ns ↔ k ∈ ms)) : without ns n ls = without ms n ls := by
  refine congrArg (List.map _) (List.filter_congr fun x hx => ?_)
  have hle := List.le_snd_of_mem_zipIdx hx
  have hlt := List.snd_lt_add_of_mem_zipIdx hx
  exact decide_eq_decide.2 (not_congr (h x.2 hle hlt))

/-- One more line out, before all that have been taken out: its number is still its own. -/
theorem eraseIdx_without {ns : List Nat} {k n : Nat} (ls : List Text) (hk : k ≤ n)
    (hns : ∀ m ∈ ns, n < m) : (without ns k ls).eraseIdx (n - k) = without (n :: ns) k ls := by
  induction ls generalizing k with
  | nil => rfl
  | cons l ls ih =>
    have hkept : k ∉ ns := fun h => Nat.not_lt.2 hk (hns k h)
    rw [without_cons, without_cons, if_neg hkept, List.singleton_append]
    rcases Nat.eq_or_lt_of_le hk with rfl | hlt
    · have hrest : without ns (k + 1) ls = without (k :: ns) (k + 1) ls :=
        without_congr fun m hm _ => by rw [List.mem_cons, or_iff_right (by omega)]
      rw [Nat.sub_self, List.eraseIdx_cons_zero, if_pos List.mem_cons_self, hrest]
      rfl
    · have hnot : k ∉ n :: ns := List.not_mem_cons_of_ne_of_not_mem (Nat.ne_of_lt hlt) hkept
      have hnext : n - k = n - (k + 1) + 1 := by omega
      rw [if_neg hnot, hnext, List.eraseIdx_cons_succ, ih hlt]
      rfl

/-- Lines taken out from the last to the first are those that had these numbers before any
was taken out. -/
theorem foldr_removeLine_without {ns : List Nat} (hns : ns.Pairwise (· < ·)) (ls : List Text) :
    ns.foldr removeLine ls = without ns 1 ls := by
  induction ns with
  | nil => exact (without_nil 1 ls).symm
  | cons n ns ih =>
    obtain ⟨hlt, hns⟩ := List.pairwise_cons.1 hns
    rw [List.foldr_cons, ih hns, removeLine]
    split
    · next hn => exact eraseIdx_without ls hn hlt
    · next hn =>
      exact without_congr fun k hk _ => by rw [List.mem_cons, or_iff_right (by omega)]

theorem mem_blankLineNumbers {ts : List Token} {k : Nat} :
    k ∈ blankLineNumbers ts ↔
      ∃ t ∈ ts, t.kind = .blankLine ∧ t.start.line = t.stop.line ∧ t.start.line = k := by
  simp [blankLineNumbers, mem_ascending, Token.isBlankLineMarker, and_assoc]

theorem pairwise_blankLineNumbers (ts : List Token) : (blankLineNumbers ts).Pairwise (· < ·) :=
  pairwise_ascending _

/-- Lines that are marked blank, taken out in one pass from the front: those stay, in their
order, on whose number no blank line token starts that ends on it as well. Every line is
there when its turn comes, and a number that is no line's takes none out. -/
theorem removeBlankLines_filter (ls : List Text) (ts : List Token) :
    Checked.removeBlankLines ls ts = some (removeBlankLines ls ts) ∧
      removeBlankLines ls ts = ((ls.zipIdx 1).filter fun l =>
        ¬ ∃ t ∈ ts, t.kind = .blankLine ∧ t.start.line = t.stop.line ∧ t.start.line = l.2).map
          (·.1) := by
  refine ⟨Checked.removeBlankLines_eq ls ts, ?_⟩
  rw [removeBlankLines, foldr_removeLine_without (pairwise_blankLineNumbers ts), without]
  simp only [← mem_blankLineNumbers]

end Offside
