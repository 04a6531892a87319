import Offside.Proofs.Layout.Insert
import Offside.Proofs.Lexeme.Evaluate
import Offside.Proofs.Normalize.Pass

/-!
# Blank lines put in

A blank line put between two lines of a program changes nothing of what comes out, also
where the lines stand within brackets.

Results:
* `Logged.insert_blank`: the log of a program with a blank row put in;
* `normalize_insert_blank`: what comes out stays.
-/
namespace Offside

open Lexeme Text Layout

/-- The row of a line of nothing but white space. -/
def Row.blank (w : Text) (hw : ∀ c ∈ w, isSpace c = true) : Row :=
  { Row.empty with trail := w, spaces := hw }

/-- The log of a program with a blank row put in behind rows that a newline ends. -/
theorem Logged.insert_blank {s w : Text} {es fs : List Entry} {last : Layout}
    (h : Logged s (es ++ fs) last) (hw : ∀ c ∈ w, isSpace c = true)
    (hx : ∀ row ∈ (es.map (·.row)).getLast?, row.exit = .newline) :
    ∃ e, e.isSolid = false ∧ Logged (sheetText (es.map (·.row)) ++ (w ++ ['\n']) ++
      sheetText (fs.map (·.row))) (es ++ e :: fs) last := by
  obtain ⟨m, hes, hfs⟩ := h.reads.split
  obtain ⟨hplaces, hheld, hjoined⟩ := hes.settled hx
  have htext : (Row.blank w hw).text = w ++ ['\n'] := rfl
  have hread : (Row.blank w hw).read .standard m =
      some ([blankLine (Exit.newline.piece w ⟨0, []⟩).start], m) :=
    (read_blank rfl hheld).2 ⟨hjoined, hplaces.symm, rfl⟩
  have hne : (Row.blank w hw).text ≠ [] := by simp [htext]
  have hinsert := h.insert_row hes hfs hx hne Exit.noConfusion hread
  rw [htext] at hinsert
  exact ⟨_, rfl, hinsert⟩

theorem endsBlank_insert {a b w : Text} (ha : Ended a) (hne : a ++ b ≠ []) (hw : '\n' ∉ w) :
    (a ++ (w ++ ['\n']) ++ b).endsBlank = (a ++ b).endsBlank := by
  have hlines : lines (w ++ ['\n'] ++ b) = trimReturn w :: lines b := by
    rw [List.append_assoc]
    exact lines_line hw b
  rw [List.append_assoc, endsBlank, endsBlank, lines_append ha, lines_append ha, hlines]
  cases b with
  | nil =>
    have hend : a.getLast? = some '\n' := by
      rw [List.append_nil] at hne
      rw [List.getLast?_eq_some_getLast hne]
      exact congrArg some (ha _ (List.getLast?_eq_some_getLast hne))
    simp [hend]
  | cons c b =>
    have hb : lines (c :: b) ≠ [] := lines_ne_nil (List.cons_ne_nil c b)
    rw [List.append_cons (lines a), List.getLast?_append_of_ne_nil _ hb,
      List.getLast?_append_of_ne_nil _ hb, ← List.append_assoc,
      List.getLast?_append_of_ne_nil _ (List.cons_ne_nil c b),
      List.getLast?_append_of_ne_nil _ (List.cons_ne_nil c b)]

/-- What comes out stays, wherever between two lines a blank one is put in. -/
theorem normalize_insert_blank {o : Options} {s t w : Text} {p : Nat} (hs : s ≠ [])
    (hp : p = 0 ∨ p ∈ newlineEnds s) (hw : ∀ c ∈ w, c = ' ' ∨ c = '\t' ∨ c = '\x0c')
    (h : normalize o s = .ok t) :
    normalize o (takeBytes p s ++ (w ++ ['\n']) ++ dropBytes p s) = .ok t := by
  obtain ⟨es, last, a, hpass⟩ := exists_pass h
  have hlog := hpass.logged
  have hspaces : ∀ c ∈ w, isSpace c = true := fun c hc => by
    rcases hw c hc with rfl | rfl | rfl <;> rfl
  obtain ⟨ds, fs, rfl, hx, htake, hdrop, -⟩ := hlog.split hp
  obtain ⟨e, he, hlog'⟩ := hlog.insert_blank hspaces hx
  have hsource : sheetText (ds.map (·.row)) ++ sheetText (fs.map (·.row)) = s := by
    rw [← htake, ← hdrop, takeBytes_append_dropBytes]
  rw [htake, hdrop, ← h, ← hsource]
  refine normalize_of_clean ?_ o
  have hended : Ended (sheetText (ds.map (·.row))) :=
    ended_sheetText fun row hr => by simp [hx row hr]
  have hsolid : solidRows (ds ++ e :: fs) = solidRows (ds ++ fs) := by
    rw [solidRows, List.filter_append, List.filter_cons_of_neg (by simp [he]), ← List.filter_append]
    rfl
  rw [hlog'.clean_eq, hsource, hlog.clean_eq, hsolid,
    endsBlank_insert hended (hsource ▸ hs) (Row.newline_not_mem_spaces hspaces), hsource]

/-- A blank line within brackets. -/
theorem normalize_insert_blank_bracket :
    7 ∈ newlineEnds "if (a,\n  b):\n  c\nd".toList ∧
      normalize ⟨.lf, true⟩ "if (a,\n  b):\n  c\nd".toList =
        .ok "if (a,\n  b):\n  c\n\nd".toList ∧
      normalize ⟨.lf, true⟩ "if (a,\n \t\n  b):\n  c\nd".toList =
        .ok "if (a,\n  b):\n  c\n\nd".toList := by
  have hp : 7 ∈ newlineEnds "if (a,\n  b):\n  c\nd".toList := by
    simp only [newlineEnds, scan_eq_scanIn]
    decide +kernel
  have h : normalize ⟨.lf, true⟩ "if (a,\n  b):\n  c\nd".toList =
      .ok "if (a,\n  b):\n  c\n\nd".toList := by
    simp only [normalize, analyse, clean, tokensOf, tokenize, tokenizeWith, scan_eq_scanIn]
    decide +kernel
  exact ⟨hp, h, normalize_insert_blank (w := [' ', '\t']) (by decide) (Or.inr hp) (by simp) h⟩

end Offside
