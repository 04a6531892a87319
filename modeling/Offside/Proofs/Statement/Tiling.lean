import Offside.Statement.Range
import Mathlib.Data.List.Chain

/-!
# Ranges that cover a program

Ranges tile the lines from one line to another if each begins on the line behind
the one before. The ranges that begin where statements start tile the lines from
the first of these on, and taking single lines together keeps the tiling.

Results:
* `tiles_ofStarts`, `Tiles.mergeRuns`: the ranges of statements are a tiling;
* `Tiles.proper`, `Tiles.isChain`, `Tiles.getLast`: what a tiling comes to, range by
  range.
-/
namespace Offside

namespace LineRange

/-- The ranges take the lines from `a` to `b`, each the lines behind those of the
one before. -/
inductive Tiles : Nat → Nat → List LineRange → Prop
  | last {a b : Nat} : a ≤ b → Tiles a b [between a b]
  | cons {a m b : Nat} {rs : List LineRange} : a ≤ m → Tiles (m + 1) b rs →
    Tiles a b (between a m :: rs)

section tiles

variable {a b : Nat} {rs : List LineRange}

theorem Tiles.le (h : Tiles a b rs) : a ≤ b := by
  induction h with
  | last hle => exact hle
  | cons _ _ ih => omega

theorem Tiles.ne_nil (h : Tiles a b rs) : rs ≠ [] := by cases h <;> simp

theorem Tiles.head (h : Tiles a b rs) : rs.head?.map (·.first) = some a := by cases h <;> rfl

/-- Each range takes a line or more, and knows whether it takes only one. -/
theorem Tiles.proper (h : Tiles a b rs) :
    ∀ r ∈ rs, a ≤ r.first ∧ r.first ≤ r.last ∧ r.last ≤ b ∧
      r.isSingle = (r.first == r.last) := by
  induction h with
  | last hle =>
    intro r hr
    rw [List.mem_singleton.1 hr]
    exact ⟨Nat.le_refl _, hle, Nat.le_refl _, rfl⟩
  | @cons a m b rs hle hrest ih =>
    intro r hr
    rcases List.mem_cons.1 hr with rfl | hr
    · have hb := hrest.le
      exact ⟨Nat.le_refl _, hle, Nat.le_of_succ_le hb, rfl⟩
    · obtain ⟨h1, h2⟩ := ih r hr
      exact ⟨by omega, h2⟩

/-- Each range begins on the line behind the one before. -/
theorem Tiles.isChain (h : Tiles a b rs) : rs.IsChain fun r r' => r'.first = r.last + 1 := by
  induction h with
  | last => exact .singleton _
  | cons hle hrest ih =>
    cases hrest with
    | last => exact .cons_cons rfl ih
    | cons => exact .cons_cons rfl ih

theorem Tiles.getLast (h : Tiles a b rs) : rs.getLast?.map (·.last) = some b := by
  induction h with
  | last => rfl
  | cons hle hrest ih =>
    rw [List.getLast?_cons_of_ne_nil hrest.ne_nil]
    exact ih

end tiles

/-- The ranges that begin on these lines, to the last line. -/
theorem tiles_ofStarts {count a : Nat} {rest : List Nat} (hp : (a :: rest).Pairwise (· < ·))
    (hc : ∀ n ∈ a :: rest, n ≤ count) : Tiles a count (ofStarts count (a :: rest)) := by
  induction rest generalizing a with
  | nil =>
    have ha := hc a (by simp)
    rw [ofStarts, Nat.max_eq_left ha]
    exact .last ha
  | cons b rest ih =>
    obtain ⟨hab, hrest⟩ := List.pairwise_cons.1 hp
    have hlt := hab b (by simp)
    rw [ofStarts, Nat.max_eq_left (by omega)]
    refine .cons (by omega) ?_
    rw [Nat.sub_add_cancel (by omega)]
    exact ih hrest fun n hn => hc n (by simp [hn])

theorem Tiles.join {a b : Nat} {q r : LineRange} {rs : List LineRange}
    (h : Tiles a b (q :: r :: rs)) : Tiles a b (between q.first r.last :: rs) := by
  cases h with
  | cons hle hrest =>
    cases hrest with
    | last hm => exact .last (Nat.le_trans hle (Nat.le_of_succ_le hm))
    | cons hm hrest => exact .cons (Nat.le_trans hle (Nat.le_of_succ_le hm)) hrest

theorem Tiles.mergeInto {a b : Nat} {current : LineRange} {rs : List LineRange}
    (h : Tiles a b (current :: rs)) (inRun : Bool) :
    Tiles a b (LineRange.mergeInto current inRun rs) := by
  induction rs generalizing a current inRun with
  | nil => exact h
  | cons r rs ih =>
    rw [LineRange.mergeInto]
    split
    · exact ih h.join true
    · cases h with
      | cons hle hrest => exact .cons hle (ih hrest _)

theorem Tiles.exists_mergeInto {a b : Nat} {current : LineRange} {rs : List LineRange}
    (h : Tiles a b (current :: rs)) (inRun : Bool) : ∀ q ∈ current :: rs,
      ∃ q' ∈ LineRange.mergeInto current inRun rs, q'.first ≤ q.first ∧ q.last ≤ q'.last := by
  induction rs generalizing a current inRun with
  | nil => exact fun q hq => ⟨q, hq, Nat.le_refl _, Nat.le_refl _⟩
  | cons r rs ih =>
    rw [LineRange.mergeInto]
    intro q hq
    split
    · have hjoin := ih h.join true
      have hpart : q ∈ rs ∨ current.first ≤ q.first ∧ q.last ≤ r.last := by
        cases h with
        | @cons _ m _ _ hle hrest =>
          have hr := hrest.proper r (by simp)
          rcases List.mem_cons.1 hq with rfl | hq
          · exact Or.inr ⟨Nat.le_refl _, Nat.le_trans (Nat.le_of_succ_le hr.1) hr.2.1⟩
          · rcases List.mem_cons.1 hq with rfl | hq
            · exact Or.inr ⟨Nat.le_trans hle (Nat.le_of_succ_le hr.1), Nat.le_refl _⟩
            · exact Or.inl hq
      rcases hpart with hq | ⟨h1, h2⟩
      · exact hjoin q (List.mem_cons_of_mem _ hq)
      · obtain ⟨q', hq', h3, h4⟩ := hjoin _ List.mem_cons_self
        exact ⟨q', hq', Nat.le_trans h3 h1, Nat.le_trans h2 h4⟩
    · rcases List.mem_cons.1 hq with rfl | hrs
      · exact ⟨q, List.mem_cons_self, Nat.le_refl _, Nat.le_refl _⟩
      · cases h with
        | cons hle hrest =>
          obtain ⟨q', hq', hin⟩ := ih hrest r.isSingle q hrs
          exact ⟨q', List.mem_cons_of_mem _ hq', hin⟩

/-- Taking single lines together keeps a tiling, and every range as a part. -/
theorem Tiles.mergeRuns {a b : Nat} {rs : List LineRange} (h : Tiles a b rs) :
    Tiles a b (LineRange.mergeRuns rs) ∧ ∀ q ∈ rs, ∃ q' ∈ LineRange.mergeRuns rs,
      q'.first ≤ q.first ∧ q.last ≤ q'.last := by
  cases rs with
  | nil => exact ⟨h, nofun⟩
  | cons r rs => exact ⟨h.mergeInto r.isSingle, h.exists_mergeInto r.isSingle⟩

end LineRange

end Offside
