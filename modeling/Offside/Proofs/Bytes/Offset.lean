import Offside.Proofs.Bytes.Position

/-!
# Offsets of positions

The byte offset of a position: where its line starts, and as many bytes as its column
counts. A line past the end starts where the text ends.

Results:
* `offset_position`: the position of a place leads back to it;
* `slice_offset`: the text between two places stands between their offsets;
* `offset_pastEnd`: the first line past the end starts where the text ends.
-/
namespace Offside

open Text

/-- The byte offset of a position of a text. -/
def Position.offset (t : Text) (p : Position) : Nat :=
  (Checked.lineStarts t)[p.line - 1]?.getD t.byteSize + p.column

namespace Place

variable (a b x : Text)

theorem offset_column (n : Nat) :
    Position.offset (a ++ b) ⟨(start.advance a).line, n⟩ + byteSize (start.advance a).behind =
      byteSize a + n := by
  obtain ⟨before, first, hstarts, hline, hsize⟩ := Checked.exists_lineStarts a
  have hindex : (start.advance a).line - 1 = before.length := by omega
  have hget : (Checked.lineStarts (a ++ b))[before.length]? = some first := by
    simp [Checked.lineStarts_append, hstarts]
  rw [Position.offset, hindex, hget, Option.getD_some]
  dsimp only
  omega

/-- The position of a place leads back to it. -/
theorem offset_position : (start.advance a).position.offset (a ++ b) = byteSize a := by
  have := offset_column a b (byteSize (start.advance a).behind)
  exact Nat.add_right_cancel this

theorem offset_end : (start.advance a).position.offset a = byteSize a := by
  have := offset_position a []
  rwa [List.append_nil] at this

theorem offset_forward (n : Nat) :
    Position.offset (a ++ b) ⟨(start.advance a).line, (start.advance a).position.column + n⟩ =
      byteSize a + n := by
  have := offset_column a b ((start.advance a).position.column + n)
  simp only [position] at this ⊢
  omega

theorem offset_lineStart : (start.advance a).lineStart.offset (a ++ b) +
    byteSize (start.advance a).margin = byteSize a := by
  have := offset_column a b 0
  rwa [Nat.add_zero, ← byteSize_reverse] at this

/-- The first line past the end starts where the text ends. -/
theorem offset_pastEnd : (start.advance a).pastEnd.offset a = byteSize a := by
  unfold pastEnd
  split
  · next h =>
    have := offset_column a [] 0
    rwa [List.append_nil, List.isEmpty_iff.1 h] at this
  · obtain ⟨before, first, hstarts, hline, -⟩ := Checked.exists_lineStarts a
    have hnone : (Checked.lineStarts a)[(start.advance a).line]? = none := by
      rw [List.getElem?_eq_none_iff, hstarts, List.length_append, List.length_singleton]
      omega
    rw [Position.offset, Nat.add_sub_cancel, hnone, Option.getD_none, Nat.add_zero]

/-- The text between two places stands between their offsets. -/
theorem slice_offset :
    Checked.slice ((start.advance a).position.offset (a ++ x ++ b))
      (((start.advance a).advance x).position.offset (a ++ x ++ b)) (a ++ x ++ b) = some x := by
  rw [← advance_append, offset_position (a ++ x) b, List.append_assoc, offset_position a (x ++ b),
    ← List.append_assoc, byteSize_append]
  exact Checked.slice_append a x b

end Place

end Offside
