import Offside.Proofs.Lexeme.Reline

/-!
# Carriage returns put in

A text without carriage returns, written with one before each newline, is cut at
the same places. A newline takes the carriage return before it along, within a
literal, behind a backslash and on its own; only white space at the end of a line
is faster and takes it first. Where cutting stopped it stops again, for the same
reason.

Results:
* `lines_crlf`, `endsBlank_crlf`: the lines stay;
* `front_crlf`: where nothing fits, nothing fits;
* `scan_crlf`: the lexemes with the carriage returns.
-/
namespace Offside

namespace Text

/-- A text with a carriage return before each newline. -/
def crlf (t : Text) : Text := t.flatMap fun c => if c = '\n' then ['\r', '\n'] else [c]

@[simp] theorem crlf_nil : crlf [] = [] := rfl

@[simp] theorem crlf_newline (t : Text) : crlf ('\n' :: t) = '\r' :: '\n' :: crlf t := rfl

theorem crlf_cons {c : Char} (h : c ≠ '\n') (t : Text) : crlf (c :: t) = c :: crlf t := by
  simp [crlf, h]

@[simp] theorem crlf_append (s t : Text) : crlf (s ++ t) = crlf s ++ crlf t := List.flatMap_append

theorem crlf_of_no_newline {t : Text} (h : '\n' ∉ t) : crlf t = t := by
  induction t with
  | nil => rfl
  | cons c t ih =>
    simp only [List.mem_cons, not_or] at h
    rw [crlf_cons (Ne.symm h.1), ih h.2]

theorem head_crlf {t : Text} (h : t.head? ≠ some '\n') : (crlf t).head? = t.head? := by
  cases t with
  | nil => rfl
  | cons c t =>
    rw [crlf_cons (by simpa using h)]
    rfl

theorem crlf_eq_reline {t : Text} (h : '\r' ∉ t) : crlf t = reline LineEnding.crlf.text t := by
  induction t with
  | nil => rfl
  | cons c t ih =>
    simp only [List.mem_cons, not_or] at h
    by_cases hn : c = '\n'
    · subst hn
      rw [crlf_newline, reline_newline, ih h.2]
      rfl
    · rw [crlf_cons hn, reline_keep hn (fun hr => absurd hr.symm h.1), ih h.2]

theorem reline_crlf {t : Text} (h : '\r' ∉ t) : reline ['\n'] (crlf t) = t := by
  induction t with
  | nil => rfl
  | cons c t ih =>
    simp only [List.mem_cons, not_or] at h
    by_cases hn : c = '\n'
    · subst hn
      rw [crlf_newline, reline_return rfl, reline_newline, ih h.2]
      rfl
    · rw [crlf_cons hn, reline_keep hn (fun hr => absurd hr.symm h.1), ih h.2]

theorem advance_crlf {t : Text} (h : '\r' ∉ t) (p : Place) : p.advance (crlf t) = p.advance t := by
  rw [crlf_eq_reline h, advance_reline]

theorem lines_reline_crlf (t : Text) : lines (reline LineEnding.crlf.text t) = lines t := by
  obtain ⟨a, b, rfl, ha, hb⟩ := exists_ended_append t
  have hno : ∀ l ∈ lines a, '\n' ∉ l := fun l hl => not_newline_mem_of_mem_lines hl
  rw [reline_append_of_ended ha, reline_of_no_newline hb, ← flatMap_lines _ ha,
    lines_flatMap .crlf hno, lines_append ha, List.map_congr_left fun l _ => readBack_crlf l,
    List.map_id']

theorem lines_crlf {t : Text} (h : '\r' ∉ t) : lines (crlf t) = lines t := by
  rw [crlf_eq_reline h, lines_reline_crlf]

theorem endsBlank_crlf {t : Text} (h : '\r' ∉ t) : endsBlank (crlf t) = endsBlank t := by
  have hlast : (crlf t).getLast? = t.getLast? := by
    rcases List.eq_nil_or_concat t with rfl | ⟨u, c, rfl⟩
    · rfl
    · by_cases hn : c = '\n' <;> simp [crlf, hn]
  rw [endsBlank, endsBlank, hlast, lines_crlf h]

end Text

open Text

namespace Lexeme

/-! ## Where cutting stops -/

theorem delimiter?_crlf {t : Text} (h : '\r' ∉ t) :
    delimiter? (crlf t) = (delimiter? t).map fun (d, rest) => (d, crlf rest) := by
  cases t with
  | nil => rfl
  | cons c t =>
    simp only [List.mem_cons, not_or] at h
    cases hm : isMark c with
    | false =>
      have hnone : ∀ u, delimiter? (c :: u) = none := fun u => delimiter?_eq_none hm
      by_cases hn : c = '\n'
      · subst hn
        rw [crlf_newline, hnone t, delimiter?_eq_none rfl]
        rfl
      · rw [crlf_cons hn, hnone, hnone]
        rfl
    | true =>
      have hmark := newline_ne_of_isMark hm
      rw [crlf_cons hmark.1]
      by_cases hu : ∃ u, t = c :: c :: u
      · obtain ⟨u, rfl⟩ := hu
        rw [crlf_cons hmark.1, crlf_cons hmark.1, delimiter?_triple _ hm, delimiter?_triple _ hm]
        rfl
      · rw [delimiter?_of_single hm fun u hu' => hu ⟨u, hu'⟩, delimiter?_of_single hm]
        · rfl
        intro u hu'
        have hpre : [c, c] <+: Text.reline LineEnding.crlf.text t := by
          rw [← crlf_eq_reline h.2, hu']
          exact ⟨u, rfl⟩
        obtain ⟨v, hv⟩ := prefix_of_reline (by simp [hmark.1, hmark.2.1]) hpre
        exact hu ⟨v, hv.symm⟩

theorem openingWithin_crlf {n : Nat} {t : Text} (h : '\r' ∉ t) : openingWithin n (crlf t) =
    (openingWithin n t).map fun (letters, d, rest) => (letters, d, crlf rest) := by
  have hd := delimiter?_crlf h
  induction n generalizing t with
  | zero =>
    rw [openingWithin.eq_def _ (crlf t), openingWithin.eq_def _ t, hd]
    cases delimiter? t <;> rfl
  | succ n ih =>
    rw [openingWithin.eq_def _ (crlf t), openingWithin.eq_def _ t, hd]
    cases delimiter? t with
    | some _ => rfl
    | none =>
      cases t with
      | nil => rfl
      | cons c rest =>
        by_cases hn : c = '\n'
        · subst hn
          rfl
        have hrest : '\r' ∉ rest := fun hr => h (by simp [hr])
        rw [crlf_cons hn]
        simp only [Option.map_none]
        split
        · rw [ih hrest (delimiter?_crlf hrest), Option.map_map, Option.map_map]
          rfl
        · rfl

theorem closing?_crlf {d : Delimiter} {t : Text} (hm : isMark d.mark = true) (h : '\r' ∉ t)
    (hc : closing? d t = none) : closing? d (crlf t) = none := by
  cases hf : closing? d (crlf t) with
  | none => rfl
  | some found =>
    obtain ⟨b, a⟩ := found
    have hb := closes_of_closing? hm hf
    have hlast : b.getLast? ≠ some '\r' := by
      rw [closes_getLast hb]
      exact fun hr => (newline_ne_of_isMark hm).2.1 (Option.some.inj hr)
    have ht : t = Text.reline LineEnding.lf.text b ++ Text.reline LineEnding.lf.text a := by
      rw [← reline_append fun hr => absurd hr hlast, ← closing?_eq hf]
      exact (reline_crlf h).symm
    rw [ht, closing?_of_closes hm (hb.reline hm .lf)] at hc
    cases hc

theorem continuation_crlf {t : Text} {cause : Fault} (h : '\r' ∉ t)
    (hf : continuation t = .fault cause) : continuation (crlf t) = .fault cause := by
  cases t with
  | nil => exact hf
  | cons c t =>
    have hn : c ≠ '\n' := by rintro rfl; cases hf
    have hr : c ≠ '\r' := by rintro rfl; simp at h
    rw [crlf_cons hn]
    unfold continuation at hf ⊢
    split at hf
    · cases hf
    · cases hf
    · split
      · simp_all
      · simp_all
      · exact hf

theorem plain_crlf {c : Char} {rest : Text} {cause : Fault} (h : '\r' ∉ c :: rest)
    (hf : plain c rest = .fault cause) : plain c (crlf rest) = .fault cause := by
  simp only [List.mem_cons, not_or] at h
  have hjoin : continuation rest = .fault cause → continuation (crlf rest) = .fault cause :=
    continuation_crlf h.2
  -- only behind a backslash does it matter what follows
  unfold plain run at hf ⊢
  grind

theorem ne_newline_of_fault {c : Char} {rest : Text} {cause : Fault}
    (h : front c rest = .fault cause) : c ≠ '\n' := by
  rintro rfl
  rw [front_eq_plain ⟨rfl, rfl⟩] at h
  cases h

/-- Where nothing fits, nothing fits. -/
theorem front_crlf {c : Char} {rest : Text} {cause : Fault} (h : '\r' ∉ c :: rest)
    (hf : front c rest = .fault cause) : front c (crlf rest) = .fault cause := by
  have ho : opening? (c :: crlf rest) =
      (opening? (c :: rest)).map fun (letters, d, rest) => (letters, d, crlf rest) := by
    rw [← crlf_cons (ne_newline_of_fault hf)]
    exact openingWithin_crlf h
  unfold front at hf ⊢
  cases hopen : opening? (c :: rest) with
  | none =>
    rw [hopen] at hf ho
    rw [ho]
    exact plain_crlf h hf
  | some found =>
    obtain ⟨letters, d, body⟩ := found
    rw [hopen] at hf ho
    rw [ho]
    have hbody : '\r' ∉ body := fun hr => h (by
      rw [openingWithin_eq hopen]
      simp [hr])
    obtain ⟨-, -, u, -, hd⟩ := openingWithin_spec hopen
    simp only [literal] at hf
    cases hcl : closing? d body with
    | some _ => rw [hcl] at hf; cases hf
    | none =>
      rw [hcl] at hf
      simp only [Option.map_some, literal, closing?_crlf (delimiter?_isMark hd) hbody hcl]
      exact hf

theorem stop_spec {t : Text} {s : Stop} (h : (scan t).stop? = some s) :
    ∃ c rest, s.rest = c :: rest ∧ front c rest = .fault s.cause := by
  fun_induction scan t with
  | case1 => cases h
  | case2 _ _ _ _ _ _ ih => exact ih h
  | case3 c rest cause hf =>
    cases h
    exact ⟨c, rest, rfl, hf⟩

theorem not_mem_scan {t : Text} {c : Char} (h : c ∉ t) :
    c ∉ textOf (scan t).lexemes ∧ c ∉ (scan t).rest := by
  rwa [← textOf_scan_append_rest t, List.mem_append, not_or] at h

theorem head_stop {t : Text} {s : Stop} (h : (scan t).stop? = some s) :
    s.rest.head? ≠ some '\n' := by
  obtain ⟨c, rest, hrest, hf⟩ := stop_spec h
  rw [hrest]
  simpa using ne_newline_of_fault hf

/-! ## The lexemes -/

/-- The lexemes of a text once a carriage return stands before each newline: white
space before a newline takes it. -/
def returned : List Lexeme → List Lexeme
  | [] => []
  | ⟨.space, w⟩ :: ⟨.newline, _⟩ :: ls =>
    ⟨.space, w ++ ['\r']⟩ :: ⟨.newline, ['\n']⟩ :: returned ls
  | l :: ls => ⟨l.kind, crlf l.text⟩ :: returned ls

theorem Valid.head_ne_newline {l : Lexeme} (h : l.Valid) (hk : l.kind ≠ .newline) :
    l.text.head? ≠ some '\n' := by
  cases hi : l.kind.isInner with
  | true =>
    obtain ⟨c, t, _, ht, -, hc⟩ := h.head_reline .crlf hi
    simpa [ht] using hc
  | false =>
    obtain ⟨kind, text⟩ := l
    cases kind with
    | newline => exact absurd rfl hk
    | continuation => rcases h with rfl | rfl <;> simp
    | space | comment | opener | closer | literal | word | punct => cases hi

theorem Valid.newline_text {t : Text} (h : Valid ⟨.newline, t⟩) (hr : '\r' ∉ t) : t = ['\n'] := by
  rcases h with rfl | rfl
  · rfl
  · simp at hr

theorem Valid.crlf {l : Lexeme} (h : l.Valid) (hr : '\r' ∉ l.text) :
    Valid ⟨l.kind, Text.crlf l.text⟩ := by
  cases hi : l.kind.isInner with
  | true =>
    rw [crlf_eq_reline hr]
    exact h.reline .crlf hi
  | false =>
    obtain ⟨kind, text⟩ := l
    cases kind with
    | newline =>
      obtain rfl := h.newline_text hr
      exact Or.inr rfl
    | continuation =>
      rcases h with rfl | rfl
      · exact Or.inr rfl
      · simp at hr
    | space | comment | opener | closer | literal | word | punct => cases hi

theorem textOf_returned {after : Text} {ls : List Lexeme} (h : Cut after ls)
    (hr : '\r' ∉ textOf ls) : textOf (returned ls) = Text.crlf (textOf ls) := by
  fun_induction returned ls with
  | case1 => rfl
  | case2 w t ls ih =>
    obtain ⟨hw, -, ht, -, hls⟩ := h
    simp only [textOf_cons, List.mem_append, not_or] at hr
    obtain rfl := ht.newline_text hr.2.1
    have hspace : '\n' ∉ w := newline_not_mem_of_all rfl hw.2
    simp [ih hls hr.2.2, crlf_of_no_newline hspace]
  | case3 l ls _ ih =>
    simp only [textOf_cons, List.mem_append, not_or] at hr
    rw [textOf_cons, textOf_cons, crlf_append, ih h.2.2 hr.2]

theorem head_returned {after : Text} {ls : List Lexeme} (h : Cut after ls)
    (hn : ∀ l ∈ ls.head?, l.kind ≠ .newline) (ha : after.head? ≠ some '\n') :
    (textOf (returned ls) ++ Text.crlf after).head? = (textOf ls ++ after).head? := by
  fun_induction returned ls with
  | case1 => exact head_crlf ha
  | case2 w _ _ _ =>
    obtain ⟨c, v, rfl⟩ := List.exists_cons_of_ne_nil h.1.ne_nil
    rfl
  | case3 l ls _ _ =>
    obtain ⟨c, t, ht⟩ := List.exists_cons_of_ne_nil h.1.ne_nil
    have hc : c ≠ '\n' := by
      have := h.1.head_ne_newline (hn l rfl)
      simpa [ht] using this
    rw [textOf_cons, textOf_cons, ht, crlf_cons hc]
    rfl

theorem Clear.of_not_inner {l : Lexeme} {next : Option Char} (h : l.kind.isInner = false) :
    l.Clear next := by
  obtain ⟨kind, text⟩ := l
  cases kind with
  | newline | continuation => trivial
  | space | comment | opener | closer | literal | word | punct => cases h

theorem Clear.crlf {l : Lexeme} {next : Option Char} (h : l.Clear next) (hv : l.Valid)
    (hr : '\r' ∉ l.text) : Clear ⟨l.kind, Text.crlf l.text⟩ next := by
  cases hi : l.kind.isInner with
  | true =>
    rw [crlf_eq_reline hr]
    exact h.reline .crlf hv hi
  | false => exact Clear.of_not_inner hi

theorem Clear.at_return {l : Lexeme} (hs : l.kind ≠ .space) : l.Clear (some '\r') := by
  cases hi : l.kind.isInner with
  | true => exact Clear.at_end hi hs (by simp)
  | false => exact Clear.of_not_inner hi

theorem Cut.returned {after : Text} {ls : List Lexeme} (h : Cut after ls) (hr : '\r' ∉ textOf ls)
    (ha : after.head? ≠ some '\n') : Cut (Text.crlf after) (Lexeme.returned ls) := by
  fun_induction Lexeme.returned ls with
  | case1 => trivial
  | case2 w t ls ih =>
    obtain ⟨hw, -, -, -, hls⟩ := h
    simp only [textOf_cons, List.mem_append, not_or] at hr
    refine ⟨⟨by simp, ?_⟩, ⟨?_, ?_⟩, Or.inl rfl, trivial, ih hls hr.2.2⟩
    · intro c hc
      rcases List.mem_append.1 hc with hc | hc
      · exact hw.2 c hc
      · rw [List.mem_singleton.1 hc]
        rfl
    · intro c hc
      cases hc
      rfl
    · intro hw'
      exact absurd (List.append_eq_singleton_iff.1 hw') (by simp [hw.1])
  | case3 l ls hne ih =>
    obtain ⟨hv, hc, hls⟩ := h
    simp only [textOf_cons, List.mem_append, not_or] at hr
    refine ⟨hv.crlf hr.1, ?_, ih hls hr.2⟩
    by_cases hn : ∀ k ∈ ls.head?, k.kind ≠ .newline
    · rw [head_returned hls hn ha]
      exact hc.crlf hv hr.1
    · obtain ⟨⟨_, t⟩, ks, rfl, rfl⟩ : ∃ k ks, ls = k :: ks ∧ k.kind = .newline := by
        cases ls with
        | nil => simp at hn
        | cons k ks => exact ⟨k, ks, rfl, by simpa using hn⟩
      simp only [textOf_cons, List.mem_append, not_or] at hr
      obtain rfl := hls.1.newline_text hr.2.1
      refine Clear.at_return fun hs => ?_
      obtain ⟨_, w⟩ := l
      obtain rfl : _ = Kind.space := hs
      exact hne w _ ks rfl rfl

/-- A text with the carriage returns is cut into the lexemes with them, and as far. -/
theorem scan_crlf {t : Text} (h : '\r' ∉ t) : scan (Text.crlf t) =
    ⟨returned (scan t).lexemes, (scan t).stop?.map fun s => ⟨s.cause, Text.crlf s.rest⟩⟩ := by
  have ht := textOf_scan_append_rest t
  have hcut := cut_scan t
  obtain ⟨hls, hrest⟩ := not_mem_scan h
  have hstop : (scan t).rest.head? ≠ some '\n' ∧ scan (Text.crlf (scan t).rest) =
      ⟨[], (scan t).stop?.map fun s => ⟨s.cause, Text.crlf s.rest⟩⟩ := by
    cases hs : (scan t).stop? with
    | none => simp [Scan.rest, hs]
    | some s =>
      have hsrest : (scan t).rest = s.rest := by simp [Scan.rest, hs]
      obtain ⟨c, u, hu, hf⟩ := stop_spec hs
      rw [hsrest] at hrest ⊢
      refine ⟨head_stop hs, ?_⟩
      rw [hu] at hrest
      rw [Option.map_some, hu, crlf_cons (ne_newline_of_fault hf),
        scan_of_fault (front_crlf hrest hf)]
  conv => lhs; rw [← ht, crlf_append, ← textOf_returned hcut hls]
  rw [scan_append (hcut.returned hls hstop.1), hstop.2, List.append_nil]

end Lexeme

end Offside
