import Offside.Proofs.Layout.Separate

/-!
# A text without its blank lines

Taking the lines out that the tokens of a text mark blank leaves the rows that
hold something, written anew with newlines. They are read as they were before.

Results:
* `Logged.removeBlankLines`: the lines that are left;
* `Logged.exists_cleaned`: the log of the text that they make.
-/
namespace Offside

open Lexeme Text Layout

/-- The rows of a log that hold something. -/
def solidRows (es : List Entry) : List Row := (es.filter Entry.isSolid).map (·.row)

theorem Reads.getLast_unjoined {r : Ruler} {s last : Layout} {es : List Entry}
    (h : Reads r s es last) (hj : last.joined? = none) :
    ∀ row ∈ (es.map (·.row)).getLast?, row.exit ≠ .joined := by
  induction h with
  | nil => simp
  | @cons s m last row ts es hr hrest ih =>
    intro q hq
    cases hrest with
    | nil =>
      obtain rfl : row = q := by simpa using hq
      exact fun hx => joined_of_read hx hr hj
    | cons hr' hrest' =>
      refine ih hj q ?_
      simpa using hq

namespace Logged

variable {s : Text} {es : List Entry} {last : Layout}

theorem solid (h : Logged s es last) :
    Reads .standard .start (es.filter Entry.isSolid) last := h.reads.solid rfl rfl

theorem text_ne_nil (h : Logged s es last) : ∀ row ∈ es.map (·.row), row.text ≠ [] :=
  sheet_text_ne_nil h.sheet

theorem height_eq (h : Logged s es last) : height es = s.lines.length := by
  rw [← h.source, lines_sheet h.sheet, height, List.flatMap_map]

theorem pastEnd_eq (h : Logged s es last) :
    (Place.start.advance s).pastEnd = ⟨1 + height es, 0⟩ := by
  rw [pastEnd_advance, h.height_eq]

theorem solid_text_ne_nil (h : Logged s es last) : ∀ row ∈ solidRows es, row.text ≠ [] := by
  intro row hr
  obtain ⟨e, he, rfl⟩ := List.mem_map.1 hr
  exact h.text_ne_nil _ (List.mem_map_of_mem (List.mem_filter.1 he).1)

theorem getLast_solid (h : Logged s es last) :
    ∀ row ∈ (solidRows es).getLast?, row.isBlank = false ∧ row.exit ≠ .joined := by
  intro row hr
  refine ⟨?_, h.solid.getLast_unjoined h.rest.joined row hr⟩
  obtain ⟨e, he, rfl⟩ := List.mem_map.1 (List.mem_of_getLast? hr)
  simpa [Entry.isSolid, Row.isSolid] using (List.mem_filter.1 he).2

/-- The lines that are left without the blank ones. -/
theorem removeBlankLines (h : Logged s es last) (p : Position) :
    Offside.removeBlankLines s.lines (lay 1 es ++ closing last p) =
      (solidRows es).flatMap Row.lines := by
  rw [← h.source, removeBlankLines_sheet h.reads h.sheet]
  rfl

theorem sheet_cleaned (h : Logged s es last) : Sheet (Offside.rewrite .lf false (solidRows es)) :=
  sheet_rewrite h.solid_text_ne_nil fun _ row hr => (h.getLast_solid row hr).1

theorem lengths_cleaned (h : Logged s es last) :
    (Offside.rewrite .lf false (solidRows es)).map (·.lines.length) =
      (solidRows es).map (·.lines.length) :=
  lengths_rewrite h.solid_text_ne_nil fun _ => h.getLast_solid

theorem lengths_of_cleaned (h : Logged s es last) {es' : List Entry}
    (hrows : es'.map (·.row) = Offside.rewrite .lf false (solidRows es)) :
    es'.map (·.row.lines.length) = (es.filter Entry.isSolid).map (·.row.lines.length) := by
  have hlen := h.lengths_cleaned
  rwa [← hrows, solidRows, List.map_map, List.map_map] at hlen

theorem cleaned_text (h : Logged s es last) : joinLines ((solidRows es).flatMap Row.lines) =
    sheetText (Offside.rewrite .lf false (solidRows es)) := by
  by_cases hne : solidRows es = []
  · rw [hne]; rfl
  · rw [sheetText_rewrite h.solid_text_ne_nil hne fun _ row hr => (h.getLast_solid row hr).2]
    simp [assemble, joinLines, LineEnding.text]

/-- The log of that text. -/
theorem exists_cleaned (h : Logged s es last) : ∃ es',
    Logged (joinLines ((solidRows es).flatMap Row.lines)) es' last ∧
      es'.map (·.row) = Offside.rewrite .lf false (solidRows es) ∧
      List.Forall₂ (Entry.Recast .lf) (es.filter Entry.isSolid) es' := by
  obtain ⟨es', hrows, hr, hall⟩ := Reads.rewrite .lf false h.solid
  have hrows : es'.map (·.row) = Offside.rewrite .lf false (solidRows es) := hrows
  refine ⟨es', ⟨?_, ?_, hr, h.rest⟩, hrows, hall⟩
  · rw [hrows]
    exact h.sheet_cleaned
  · rw [hrows, h.cleaned_text]

end Logged

end Offside
