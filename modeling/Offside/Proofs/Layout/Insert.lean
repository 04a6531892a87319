import Offside.Proofs.Layout.Cleaned
import Offside.Proofs.Layout.Separate

/-!
# Rows put in

A line can be put in behind any newline that ends a line of a program, which is none
within a string literal and none behind a backslash. There one row ends and the next
begins, and if what is put in leaves the machine as it was, all else is read as before.

Results:
* `newlineEnds_sheet`: behind a newline a row ends;
* `Reads.settled`: the machine behind it;
* `Logged.split`: the log of a program before and behind such a place;
* `Logged.insert_row`: the log of a program with a row put in there.
-/
namespace Offside

open Lexeme Text Layout

/-! ## Where lines end -/

/-- The offsets behind the newlines among lexemes, of which the first stands at `n`. -/
def newlineEndsFrom : Nat → List Lexeme → List Nat
  | _, [] => []
  | n, l :: ls =>
    (if l.kind = .newline then [n + l.text.byteSize] else []) ++
      newlineEndsFrom (n + l.text.byteSize) ls

/-- The byte offsets behind the newlines of a text that are lexemes of their own. -/
def newlineEnds (t : Text) : List Nat := newlineEndsFrom 0 (scan t).lexemes

theorem newlineEndsFrom_append (n : Nat) (ls ms : List Lexeme) : newlineEndsFrom n (ls ++ ms) =
    newlineEndsFrom n ls ++ newlineEndsFrom (n + (textOf ls).byteSize) ms := by
  induction ls generalizing n with
  | nil => rfl
  | cons l ls ih =>
    rw [List.cons_append, newlineEndsFrom, ih, newlineEndsFrom, Lexeme.textOf_cons,
      byteSize_append, Nat.add_assoc, List.append_assoc]

theorem newlineEndsFrom_of_ne {ls : List Lexeme} (h : ∀ l ∈ ls, l.kind ≠ .newline) (n : Nat) :
    newlineEndsFrom n ls = [] := by
  induction ls generalizing n with
  | nil => rfl
  | cons l ls ih =>
    rw [newlineEndsFrom, if_neg (h l (by simp)), ih fun k hk => h k (by simp [hk])]
    rfl

theorem newlineEnds_exit (x : Exit) (w : Text) (n : Nat) : newlineEndsFrom n (x.lexemes w) =
    if x = .newline then [n + (w ++ ['\n']).byteSize] else [] := by
  have hgap : ∀ n, newlineEndsFrom n (Exit.gap w) = [] := newlineEndsFrom_of_ne fun l hl hk => by
    unfold Exit.gap at hl
    split at hl
    · cases hl
    · rw [List.mem_singleton.1 hl] at hk
      cases hk
  cases x with
  | joined => rfl
  | last => exact hgap n
  | newline =>
    rw [Exit.lexemes, if_pos rfl]
    split
    · next hw => rw [hw]; rfl
    · rw [newlineEndsFrom_append, hgap, Exit.textOf_gap, byteSize_append, ← Nat.add_assoc]
      rfl

theorem newlineEnds_row (row : Row) (n : Nat) : newlineEndsFrom n row.lexemes =
    if row.exit = .newline then [n + row.text.byteSize] else [] := by
  have hcore : ∀ l ∈ row.core, l.kind ≠ .newline := fun l hl hk => by
    have := row.inner l hl
    rw [hk] at this
    cases this
  rw [Row.lexemes, newlineEndsFrom_append, newlineEndsFrom_of_ne hcore, List.nil_append,
    newlineEnds_exit]
  split
  · next hx =>
    have htext : row.text = textOf row.core ++ (row.trail ++ ['\n']) := by
      simp [Row.text, hx, Exit.glyph, Exit.stop]
    rw [htext]
    simp [Nat.add_assoc]
  · rfl

/-- Behind a newline of a sheet a row ends. -/
theorem newlineEnds_sheet {rows : List Row} {n p : Nat}
    (h : p ∈ newlineEndsFrom n (sheetLexemes rows)) : ∃ pre row post, rows = pre ++ row :: post ∧
      row.exit = .newline ∧ p = n + (sheetText (pre ++ [row])).byteSize := by
  induction rows generalizing n with
  | nil => cases h
  | cons row rows ih =>
    have hlex : sheetLexemes (row :: rows) = row.lexemes ++ sheetLexemes rows := rfl
    rw [hlex, newlineEndsFrom_append, newlineEnds_row, row.textOf_lexemes] at h
    rcases List.mem_append.1 h with h | h
    · split at h
      · next hx =>
        refine ⟨[], row, rows, rfl, hx, ?_⟩
        rw [List.mem_singleton.1 h]
        simp [sheetText]
      · cases h
    · obtain ⟨pre, q, post, rfl, hq, rfl⟩ := ih h
      refine ⟨row :: pre, q, post, rfl, hq, ?_⟩
      simp [sheetText, Nat.add_assoc]

/-! ## The log on both sides -/

/-- Behind a newline nothing is held, and no backslash waits. -/
theorem Reads.settled {r : Ruler} {last : Layout} {es : List Entry} (h : Reads r .start es last)
    (hx : ∀ row ∈ (es.map (·.row)).getLast?, row.exit = .newline) :
    last.unplaced = last ∧ last.lineHeld = false ∧ last.joined? = none := by
  obtain ⟨⟨-, hheld⟩, -⟩ := h.sound sound_start rfl
  refine ⟨h.unplaced rfl, hheld, ?_⟩
  rcases List.eq_nil_or_concat es with rfl | ⟨es, e, rfl⟩
  · cases h
    rfl
  · rw [List.concat_eq_append] at h hx
    obtain ⟨m, hes, he⟩ := h.split
    obtain ⟨⟨hs, hh⟩, -⟩ := hes.sound sound_start rfl
    have hrow : e.row.exit ≠ .joined := by simp [hx e.row (by simp)]
    cases he with
    | cons hr hnil =>
      cases hnil
      exact unjoined_of_read hrow hs hh hr

namespace Logged

variable {s : Text} {es fs : List Entry} {last m : Layout}

theorem length_lines_split (h : Logged s (es ++ fs) last) :
    (sheetText (es.map (·.row))).lines.length = height es := by
  have hsheet := h.sheet
  rw [List.map_append] at hsheet
  rw [lines_sheet hsheet.of_append, height, List.flatMap_map]

/-- The log of a program before and behind its beginning, or one of its newlines. -/
theorem split {p : Nat} (h : Logged s es last) (hp : p = 0 ∨ p ∈ newlineEnds s) :
    ∃ ds fs, es = ds ++ fs ∧ (∀ row ∈ (ds.map (·.row)).getLast?, row.exit = .newline) ∧
      takeBytes p s = sheetText (ds.map (·.row)) ∧ dropBytes p s = sheetText (fs.map (·.row)) ∧
      Place.ofOffset s p = ⟨1 + height ds, []⟩ := by
  obtain ⟨ds, fs, rfl, hx, rfl⟩ : ∃ ds fs, es = ds ++ fs ∧
      (∀ row ∈ (ds.map (·.row)).getLast?, row.exit = .newline) ∧
      p = (sheetText (ds.map (·.row))).byteSize := by
    rcases hp with rfl | hp
    · exact ⟨[], es, rfl, nofun, rfl⟩
    · rw [newlineEnds, ← h.source, scan_sheet h.sheet] at hp
      obtain ⟨pre, row, post, hrows, hrow, rfl⟩ := newlineEnds_sheet hp
      rw [List.append_cons] at hrows
      obtain ⟨ds, fs, rfl, hds, -⟩ := List.map_eq_append_iff.1 hrows
      refine ⟨ds, fs, rfl, fun q hq => ?_, by rw [hds, Nat.zero_add]⟩
      rw [hds, List.getLast?_concat] at hq
      rw [← Option.some.inj hq, hrow]
  have hsource : s = sheetText (ds.map (·.row)) ++ sheetText (fs.map (·.row)) := by
    rw [← h.source, List.map_append]
    exact List.flatMap_append ..
  have htake : takeBytes (sheetText (ds.map (·.row))).byteSize s = sheetText (ds.map (·.row)) := by
    rw [hsource, takeBytes_byteSize_append]
  refine ⟨ds, fs, rfl, hx, htake, by rw [hsource, dropBytes_byteSize_append], ?_⟩
  have hended : Ended (sheetText (ds.map (·.row))) :=
    ended_sheetText fun row hr => by simp [hx row hr]
  rw [Place.ofOffset, htake, Place.start, advance_of_ended hended, h.length_lines_split]

/-- The log of a program with a row put in that leaves the machine as it was. -/
theorem insert_row {row : Row} {ts : List Token} (h : Logged s (es ++ fs) last)
    (hes : Reads .standard .start es m) (hfs : Reads .standard m fs last)
    (hx : ∀ q ∈ (es.map (·.row)).getLast?, q.exit = .newline) (hne : row.text ≠ [])
    (hrow : row.exit ≠ .last) (hr : row.read .standard m = some (ts, m)) :
    Logged (sheetText (es.map (·.row)) ++ row.text ++ sheetText (fs.map (·.row)))
      (es ++ ⟨m, row, ts⟩ :: fs) last := by
  have hsheet := h.sheet
  rw [List.map_append] at hsheet
  refine ⟨?_, ?_, hes.append (.cons hr hfs), h.rest⟩
  · rw [List.map_append, List.map_cons]
    exact hsheet.insert (fun q hq => by simp [hx q hq]) hne hrow
  · simp [sheetText]

end Logged

end Offside
