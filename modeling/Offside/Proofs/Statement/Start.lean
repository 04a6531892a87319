import Offside.Proofs.Layout.Separate
import Offside.Proofs.Statement.Outset

/-!
# The lines on which statements start

A head is the first code of its row and stands on the first line of it, so no
two statements of the outermost level start on one line, and each starts where a
row begins.

Results:
* `heads_lay`: the heads of a log stand on lines on which rows begin;
* `outline_lines`: statements start on such lines, each on its own;
* `heads_joined`: a head behind a backslash is the first code of its line.
-/
namespace Offside

open Lexeme Text Layout

theorem heads_down (k : Nat) (free : Bool) (ts : List Token) :
    heads free (ts.map (Token.down k)) = (heads free ts).map (Token.down k) := by
  induction ts generalizing free with
  | nil => rfl
  | cons t ts ih =>
    have hf : (t.down k).frees free = t.frees free := rfl
    rw [List.map_cons, heads, heads, hf, ih, Token.down_kind]
    split <;> simp

theorem freeAfter_down (k : Nat) (free : Bool) (ts : List Token) :
    freeAfter free (ts.map (Token.down k)) = freeAfter free ts := by
  induction ts generalizing free with
  | nil => rfl
  | cons t ts ih => exact ih (t.frees free)

theorem heads_closing (s : Layout) (p : Position) (free : Bool) : heads free (closing s p) = [] := by
  rw [List.eq_nil_iff_forall_not_mem]
  intro t ht
  obtain ⟨hm, hk⟩ := mem_heads ht
  rcases List.mem_append.1 hm with hm | hm
  · obtain ⟨_, -, rfl⟩ := List.mem_map.1 hm
    cases hk
  · rw [List.mem_singleton.1 hm] at hk
    cases hk

section log

variable {r : Ruler} {s last : Layout} {es : List Entry}

theorem heads_strip {row : Row} {ts : List Token} (h : row.read r s = some (ts, last)) (n : Nat) :
    heads (!s.codeSeen) (ts.map (Token.down n)) = [] ∨
      ∃ t, heads (!s.codeSeen) (ts.map (Token.down n)) = [t] ∧ t.start.line = n := by
  rw [heads_down]
  rcases (read_heads h).2 with h0 | ⟨_, t, _, -, h1, -, hline, -⟩
  · exact Or.inl (by rw [h0]; rfl)
  · exact Or.inr ⟨t.down n, by rw [h1]; rfl, by simp [hline]⟩

/-- The heads of a log stand on lines on which rows begin. -/
theorem heads_lay (h : Reads r s es last) (n : Nat) :
    freeAfter (!s.codeSeen) (lay n es) = !last.codeSeen ∧
      List.Sublist ((heads (!s.codeSeen) (lay n es)).map (·.start.line))
        (rowStarts n (es.map (·.row))) := by
  induction h generalizing n with
  | nil => exact ⟨rfl, List.nil_sublist _⟩
  | @cons s m last row ts es hr _ ih =>
    obtain ⟨hfree, hsub⟩ := ih (n + row.lines.length)
    have hstrip : freeAfter (!s.codeSeen) (ts.map (Token.down n)) = !m.codeSeen := by
      rw [freeAfter_down, (read_heads hr).1]
    rw [lay, freeAfter_append, hstrip, heads_append, hstrip, List.map_append]
    refine ⟨hfree, ?_⟩
    rcases heads_strip hr n with h0 | ⟨t, h1, hline⟩
    · rw [h0]
      exact hsub.cons n
    · rw [h1, List.map_singleton, hline]
      exact hsub.cons_cons n

/-- The statements of a log start on lines on which rows begin, each on its own. -/
theorem outline_lines {nodes : List Node} {p : Position} (h : Reads r .start es last)
    (ho : outline (lay 1 es ++ closing last p) = .ok nodes) :
    List.Sublist (nodes.map (·.start.line)) (rowStarts 1 (es.map (·.row))) := by
  have hstarts := (outline_starts ho).map (·.line)
  rw [List.map_map, List.map_map, heads_append, heads_closing, List.append_nil] at hstarts
  exact hstarts.trans (heads_lay h 1).2

/-- A head that stands right behind a backslash is the first code of its logical
line, which the backslash began. -/
theorem heads_joined {n k : Nat} (h : Reads r s es last) (hne : ∀ row ∈ es.map (·.row), row.text ≠ [])
    (hk : k ∈ (heads (!s.codeSeen) (lay n es)).map (·.start.line))
    (hj : k ∈ joinedStarts n (es.map (·.row)) ∨ k = n ∧ s.joined? ≠ none) :
    ∃ e ∈ es, e.before.joined? ≠ none ∧ e.before.codeSeen = false ∧
      ∃ l ∈ e.row.core, l.kind.isCode = true := by
  induction h generalizing n with
  | nil => cases hk
  | @cons s m last row ts es hr hrest ih =>
    have hstrip : freeAfter (!s.codeSeen) (ts.map (Token.down n)) = !m.codeSeen := by
      rw [freeAfter_down, (read_heads hr).1]
    have hlt : ∀ k ∈ joinedStarts n ((⟨s, row, ts⟩ :: es).map (·.row)), n < k := fun k hk =>
      lt_of_mem_joinedStarts hne hk
    rw [lay, heads_append, hstrip, List.map_append, List.mem_append] at hk
    rcases hk with hk | hk
    · rw [heads_down] at hk
      rcases (read_heads hr).2 with h0 | ⟨_, t, _, -, h1, hs, hline, -, hcode⟩
      · rw [h0] at hk
        cases hk
      · have hkn : k = n := by
          rw [h1] at hk
          simpa [hline] using hk
        rcases hj with hj | ⟨-, hj⟩
        · have := hlt k hj
          omega
        · exact ⟨⟨s, row, ts⟩, by simp, hj, hs, hcode⟩
    · have hle := le_of_mem_rowStarts ((heads_lay hrest (n + row.lines.length)).2.subset hk)
      have hlen := List.length_pos_iff.2 (Row.lines_ne_nil (hne row (by simp)))
      have hj' : k ∈ joinedStarts (n + row.lines.length) (es.map (·.row)) ∨
          k = n + row.lines.length ∧ m.joined? ≠ none := by
        rcases hj with hj | ⟨hj, -⟩
        · rcases List.mem_append.1 hj with hj | hj
          · split at hj
            · next hx => exact Or.inr ⟨List.mem_singleton.1 hj, joined_of_read hx hr⟩
            · cases hj
          · exact Or.inl hj
        · omega
      obtain ⟨e, he, hspec⟩ := ih (fun q hq => hne q (by simp [hq])) hk hj'
      exact ⟨e, by simp [he], hspec⟩

end log

end Offside
