import Offside.LineEnding
import Offside.Place
import Mathlib.Data.List.Basic

/-!
# Lines and what ends them

Cutting a text into lines and joining them with another line ending rewrites
only what ends the lines. `reline e` is that rewriting, read off the text from
front to back; `bare` forgets every carriage return that stands in a run of
them right before a newline.

Results:
* `lines_append`: behind an ended line the lines start afresh;
* `flatMap_lines`, `join_lines`: lines put together with `e` are the text
  relined with `e`;
* `bare_reline`: relining changes nothing but what `bare` forgets;
* `advance_reline`: relining moves no place;
* `pastEnd_advance`: the first line past the end of a text;
* `lines_flatMap`: what is read back from lines that were written;
* `map_readBack_of_not_infix`: they are read back as they were if no carriage
  return stands before a newline.
-/
namespace Offside

namespace Text

/-- A text that no line is open in: it is empty or ends with a newline. -/
def Ended (t : Text) : Prop := ∀ c ∈ t.getLast?, c = '\n'

/-- A text with `e` in place of each newline and the carriage return before it. -/
def reline (e : Text) : Text → Text
  | [] => []
  | c :: t =>
    if c = '\n' then e ++ reline e t
    else if c = '\r' ∧ t.head? = some '\n' then reline e t
    else c :: reline e t

/-- Only carriage returns stand before the next newline. -/
def returnsEnd (t : Text) : Bool := (t.dropWhile (· == '\r')).head? == some '\n'

/-- A text without the carriage returns that stand in a run right before a
newline. -/
def bare : Text → Text
  | [] => []
  | c :: t => if c = '\r' ∧ returnsEnd t = true then bare t else c :: bare t

/-! ## Cutting -/

theorem linesFrom_append (line a b : Text) :
    linesFrom line (a ++ '\n' :: b) = linesFrom line (a ++ ['\n']) ++ linesFrom [] b := by
  induction a generalizing line with
  | nil => simp [linesFrom]
  | cons c a ih =>
    simp only [List.cons_append, linesFrom]
    split
    · rw [ih]; rfl
    · exact ih _

theorem Ended.eq_nil_or {a : Text} (h : Ended a) : a = [] ∨ ∃ b, a = b ++ ['\n'] := by
  rcases List.eq_nil_or_concat a with rfl | ⟨b, c, rfl⟩
  · exact Or.inl rfl
  · have hc : c = '\n' := h c (by simp)
    subst hc
    exact Or.inr ⟨b, by simp⟩

@[simp] theorem ended_nil : Ended [] := by simp [Ended]

@[simp] theorem ended_snoc (a : Text) : Ended (a ++ ['\n']) := by simp [Ended]

theorem Ended.append {a b : Text} (ha : Ended a) (hb : Ended b) : Ended (a ++ b) := by
  rcases hb.eq_nil_or with rfl | ⟨b, rfl⟩
  · simpa using ha
  · rw [← List.append_assoc]; exact ended_snoc _

/-- Behind an ended line the lines start afresh. -/
theorem lines_append {a : Text} (h : Ended a) (b : Text) : lines (a ++ b) = lines a ++ lines b := by
  rcases h.eq_nil_or with rfl | ⟨a, rfl⟩
  · simp [lines, linesFrom]
  · simpa [lines] using linesFrom_append [] a b

theorem linesFrom_of_no_newline {line a : Text} (h : '\n' ∉ a) :
    linesFrom line a = if (a.reverse ++ line).isEmpty then [] else [line.reverse ++ a] := by
  induction a generalizing line with
  | nil => simp [linesFrom]
  | cons c a ih =>
    simp only [List.mem_cons, not_or] at h
    rw [linesFrom, if_neg (fun e => h.1 e.symm), ih h.2]
    simp

theorem lines_of_no_newline {a : Text} (h : '\n' ∉ a) (hne : a ≠ []) : lines a = [a] := by
  rw [lines, linesFrom_of_no_newline h]
  simp [hne]

/-- A line without the carriage return at its end. -/
def trimReturn (a : Text) : Text := (dropReturn a.reverse).reverse

@[simp] theorem trimReturn_nil : trimReturn [] = [] := rfl

@[simp] theorem trimReturn_snoc (a : Text) : trimReturn (a ++ ['\r']) = a := by
  simp [trimReturn, dropReturn]

theorem trimReturn_of_ne {a : Text} (h : a.getLast? ≠ some '\r') : trimReturn a = a := by
  rcases List.eq_nil_or_concat a with rfl | ⟨b, c, rfl⟩
  · rfl
  · have hc : c ≠ '\r' := by simpa using h
    simp [trimReturn, dropReturn, hc]

theorem trimReturn_isPrefix (a : Text) : trimReturn a <+: a := by
  by_cases h : a.getLast? = some '\r'
  · rw [← List.dropLast_append_getLast? _ h, trimReturn_snoc]
    exact List.prefix_append _ _
  · exact ⟨[], by rw [trimReturn_of_ne h, List.append_nil]⟩

theorem linesFrom_line {line a : Text} (h : '\n' ∉ a) (b : Text) :
    linesFrom line (a ++ '\n' :: b) = trimReturn (line.reverse ++ a) :: linesFrom [] b := by
  induction a generalizing line with
  | nil => simp [linesFrom, trimReturn]
  | cons c a ih =>
    simp only [List.mem_cons, not_or] at h
    rw [List.cons_append, linesFrom, if_neg (fun e => h.1 e.symm), ih h.2]
    simp

theorem lines_line {a : Text} (h : '\n' ∉ a) (b : Text) :
    lines (a ++ '\n' :: b) = trimReturn a :: lines b := by
  rw [lines, linesFrom_line h b]
  rfl

theorem lines_ne_nil {t : Text} (h : t ≠ []) : lines t ≠ [] := by
  by_cases hm : '\n' ∈ t
  · obtain ⟨a, b, rfl, ha⟩ := List.eq_append_cons_of_mem hm
    rw [lines_line ha]
    exact List.cons_ne_nil _ _
  · rw [lines_of_no_newline hm h]
    exact List.cons_ne_nil _ _

theorem exists_ended_append (t : Text) : ∃ a b, t = a ++ b ∧ Ended a ∧ '\n' ∉ b := by
  induction t with
  | nil => exact ⟨[], [], rfl, ended_nil, by simp⟩
  | cons c t ih =>
    obtain ⟨a, b, rfl, ha, hb⟩ := ih
    rcases ha.eq_nil_or with rfl | ⟨a, rfl⟩
    · by_cases hc : c = '\n'
      · subst hc; exact ⟨['\n'], b, rfl, ended_snoc [], hb⟩
      · exact ⟨[], c :: b, rfl, ended_nil, by simp [hb, Ne.symm hc]⟩
    · exact ⟨(c :: a) ++ ['\n'], b, by simp, ended_snoc _, hb⟩

theorem not_newline_mem_of_mem_linesFrom {line t l : Text} (h : '\n' ∉ line)
    (hl : l ∈ linesFrom line t) : '\n' ∉ l := by
  induction t generalizing line with
  | nil =>
    simp only [linesFrom] at hl
    split at hl
    · cases hl
    · rcases List.mem_singleton.1 hl with rfl; simpa using h
  | cons c t ih =>
    simp only [linesFrom] at hl
    split at hl
    · rcases List.mem_cons.1 hl with rfl | hl
      · unfold dropReturn
        split <;> simp_all
      · exact ih (by simp) hl
    · next hc => exact ih (by simp [h, Ne.symm hc]) hl

theorem not_newline_mem_of_mem_lines {t l : Text} (hl : l ∈ lines t) : '\n' ∉ l :=
  not_newline_mem_of_mem_linesFrom (by simp) hl

/-! ## Relining -/

@[simp] theorem reline_nil (e : Text) : reline e [] = [] := rfl

@[simp] theorem reline_newline (e t : Text) : reline e ('\n' :: t) = e ++ reline e t := by
  simp [reline]

theorem reline_return {e t : Text} (h : t.head? = some '\n') :
    reline e ('\r' :: t) = reline e t := by
  simp [reline, h]

theorem reline_keep {e t : Text} {c : Char} (hn : c ≠ '\n')
    (hr : c = '\r' → t.head? ≠ some '\n') : reline e (c :: t) = c :: reline e t := by
  rw [reline, if_neg hn, if_neg (fun h => hr h.1 h.2)]

theorem reline_of_no_newline {e t : Text} (h : '\n' ∉ t) : reline e t = t := by
  induction t with
  | nil => rfl
  | cons c t ih =>
    simp only [List.mem_cons, not_or] at h
    rw [reline_keep (Ne.symm h.1) (fun _ ht => h.2 (List.mem_of_mem_head? ht)), ih h.2]

/-- Two texts can be relined one by one unless a carriage return and its newline
are torn apart. -/
theorem reline_append {e a b : Text} (h : a.getLast? = some '\r' → b.head? ≠ some '\n') :
    reline e (a ++ b) = reline e a ++ reline e b := by
  induction a with
  | nil => rfl
  | cons c a ih =>
    have ih' : reline e (a ++ b) = reline e a ++ reline e b := by
      cases a with
      | nil => rfl
      | cons d a => exact ih (by simpa using h)
    by_cases hn : c = '\n'
    · subst hn; simp [ih']
    by_cases hr : c = '\r' ∧ a.head? = some '\n'
    · obtain ⟨rfl, ha⟩ := hr
      have hab : (a ++ b).head? = some '\n' := by simp [List.head?_append, ha]
      rw [List.cons_append, reline_return ha, reline_return hab, ih']
    · have hab : c = '\r' → (a ++ b).head? ≠ some '\n' := by
        intro hc
        cases a with
        | nil => exact h (by simp [hc])
        | cons d a => exact fun hd => hr ⟨hc, hd⟩
      rw [List.cons_append, reline_keep hn (fun hc ha => hr ⟨hc, ha⟩), reline_keep hn hab, ih']
      rfl

theorem reline_append_of_ended {e a : Text} (h : Ended a) (b : Text) :
    reline e (a ++ b) = reline e a ++ reline e b :=
  reline_append fun hr => absurd (h _ hr) (by decide)

theorem reline_line {e a : Text} (h : '\n' ∉ a) (b : Text) :
    reline e (a ++ '\n' :: b) = trimReturn a ++ e ++ reline e b := by
  rcases List.eq_nil_or_concat a with rfl | ⟨a, c, rfl⟩
  · simp
  · simp only [List.concat_eq_append, List.mem_append, List.mem_singleton, not_or] at h ⊢
    by_cases hc : c = '\r'
    · subst hc
      rw [trimReturn_snoc, List.append_assoc, reline_append (by simp), reline_of_no_newline h.1]
      simp [reline]
    · rw [trimReturn_of_ne (by simp [hc]), reline_append (by simp [hc]),
        reline_of_no_newline (by simp [h.1, h.2])]
      simp

theorem Ended.induction {P : Text → Prop} (nil : P [])
    (line : ∀ a t, '\n' ∉ a → Ended t → P t → P (a ++ '\n' :: t)) {t : Text} (h : Ended t) :
    P t := by
  induction hn : t.length using Nat.strongRecOn generalizing t with
  | ind n ih =>
    by_cases hm : '\n' ∈ t
    · obtain ⟨a, b, rfl, ha⟩ := List.eq_append_cons_of_mem hm
      have hb : Ended b := by
        intro c hc
        apply h c
        rw [List.getLast?_append]
        cases b with
        | nil => cases hc
        | cons d b => simp only [List.getLast?_cons_cons]; rw [Option.mem_def.1 hc]; rfl
      exact line a b ha hb (ih b.length (by simp at hn; omega) hb rfl)
    · rcases h.eq_nil_or with rfl | ⟨b, rfl⟩
      · exact nil
      · simp at hm

theorem length_lines_of_ended {t : Text} (h : Ended t) : (lines t).length = t.count '\n' := by
  refine Ended.induction (P := fun t => (lines t).length = t.count '\n') rfl ?_ h
  intro a t ha _ ih
  rw [lines_line ha, List.length_cons, ih, List.count_append, List.count_eq_zero_of_not_mem ha,
    List.count_cons_self, Nat.zero_add]

/-- Lines that are each ended by `e` are the text relined with `e`. -/
theorem flatMap_lines (e : Text) {t : Text} (h : Ended t) :
    (lines t).flatMap (· ++ e) = reline e t := by
  refine Ended.induction (P := fun t => (lines t).flatMap (· ++ e) = reline e t) rfl ?_ h
  intro a t ha _ ih
  rw [lines_line ha, List.flatMap_cons, ih, reline_line ha]

theorem join_concat (e : Text) (ls : List Text) (l : Text) :
    join e (ls ++ [l]) = ls.flatMap (· ++ e) ++ l := by
  induction ls with
  | nil => simp [join, List.intercalate]
  | cons k ls ih =>
    cases ls with
    | nil => simp [join, List.intercalate]
    | cons m ls => simp_all [join, List.intercalate]

/-- Lines with `e` between them are the text relined with `e`, if its last line
is open. -/
theorem join_lines (e : Text) {t : Text} (h : t.getLast? ≠ some '\n') :
    join e (lines t) = reline e t := by
  obtain ⟨a, b, rfl, ha, hb⟩ := exists_ended_append t
  rw [lines_append ha, reline_append_of_ended ha, reline_of_no_newline hb]
  by_cases hne : b = []
  · subst hne
    rcases ha.eq_nil_or with rfl | ⟨a, rfl⟩
    · rfl
    · simp at h
  · rw [lines_of_no_newline hb hne, join_concat, flatMap_lines e ha]

theorem join_append (e : Text) {ls : List Text} (h : ls ≠ []) :
    join e ls ++ e = ls.flatMap (· ++ e) := by
  obtain ⟨ls, l, rfl⟩ : ∃ ls' l, ls = ls' ++ [l] :=
    ⟨_, _, (List.dropLast_append_getLast h).symm⟩
  rw [join_concat]
  simp

theorem join_cons (e l : Text) {ls : List Text} (h : ls ≠ []) :
    join e (l :: ls) = l ++ e ++ join e ls := by
  cases ls with
  | nil => exact absurd rfl h
  | cons k ls => simp [join, List.intercalate]

theorem join_append_of_ne_nil (e : Text) (ls : List Text) {ms : List Text} (h : ms ≠ []) :
    join e (ls ++ ms) = ls.flatMap (· ++ e) ++ join e ms := by
  induction ls with
  | nil => rfl
  | cons l ls ih =>
    rw [List.cons_append, join_cons e l (by simp [h]), ih]
    simp

theorem flatMap_lines_of_open (e : Text) {t : Text} (hne : t ≠ []) (h : t.getLast? ≠ some '\n') :
    (lines t).flatMap (· ++ e) = reline e t ++ e := by
  rw [← join_lines e h, join_append]
  intro hl
  obtain ⟨a, b, rfl, ha, hb⟩ := exists_ended_append t
  rw [lines_append ha, List.append_eq_nil_iff] at hl
  by_cases hbe : b = []
  · subst hbe
    rcases ha.eq_nil_or with rfl | ⟨a, rfl⟩
    · exact hne rfl
    · simp at h
  · rw [lines_of_no_newline hb hbe] at hl
    cases hl.2

/-! ## What `bare` forgets -/

@[simp] theorem bare_nil : bare [] = [] := rfl

@[simp] theorem bare_newline (t : Text) : bare ('\n' :: t) = '\n' :: bare t := by simp [bare]

@[simp] theorem returnsEnd_newline (t : Text) : returnsEnd ('\n' :: t) = true := rfl

@[simp] theorem returnsEnd_return (t : Text) : returnsEnd ('\r' :: t) = returnsEnd t := by
  simp [returnsEnd]

theorem returnsEnd_other {c : Char} (t : Text) (hn : c ≠ '\n') (hr : c ≠ '\r') :
    returnsEnd (c :: t) = false := by
  simp [returnsEnd, hn, hr]

theorem bare_of_no_newline {t : Text} (h : '\n' ∉ t) : bare t = t := by
  induction t with
  | nil => rfl
  | cons c t ih =>
    simp only [List.mem_cons, not_or] at h
    have ht : returnsEnd t = false := by
      simp only [returnsEnd, beq_eq_false_iff_ne]
      intro hd
      exact h.2 ((List.dropWhile_suffix _).subset (List.mem_of_mem_head? hd))
    simp [bare, ht, ih h.2]

theorem newline_mem_bare {t : Text} : '\n' ∈ bare t ↔ '\n' ∈ t := by
  induction t with
  | nil => rfl
  | cons c t ih =>
    unfold bare
    split
    · next hc => simp [hc.1, ih]
    · simp [ih]

theorem eq_of_bare_eq {t w : Text} (hw : '\n' ∉ w) (h : bare t = w) : t = w := by
  rw [← h, bare_of_no_newline]
  intro hm
  exact hw (h ▸ newline_mem_bare.2 hm)

theorem eq_iff_of_bare_eq {t u w : Text} (h : bare t = bare u) (hw : '\n' ∉ w) : t = w ↔ u = w := by
  have hbare : bare w = w := bare_of_no_newline hw
  constructor
  · intro ht
    exact eq_of_bare_eq hw (by rw [← h, ht, hbare])
  · intro hu
    exact eq_of_bare_eq hw (by rw [h, hu, hbare])

end Text

namespace LineEnding

/-- What a line ending writes before its newline. -/
def lead : LineEnding → Text
  | .native | .lf => []
  | .crlf => ['\r']

theorem text_eq (e : LineEnding) : e.text = e.lead ++ ['\n'] := by cases e <;> rfl

end LineEnding

namespace Text

theorem returnsEnd_reline (e : LineEnding) (t : Text) :
    returnsEnd (reline e.text t) = returnsEnd t := by
  induction t with
  | nil => rfl
  | cons c t ih =>
    by_cases hn : c = '\n'
    · subst hn; cases e <;> simp [LineEnding.text]
    by_cases hr : c = '\r'
    · subst hr
      rw [reline, if_neg hn]
      split <;> simp [ih]
    · rw [returnsEnd_other t hn hr]
      simp [reline, hn, hr, returnsEnd_other]

/-- Relining changes nothing but the carriage returns before newlines. -/
theorem bare_reline (e : LineEnding) (t : Text) : bare (reline e.text t) = bare t := by
  induction t with
  | nil => rfl
  | cons c t ih =>
    by_cases hn : c = '\n'
    · subst hn
      have he : bare (e.text ++ reline e.text t) = '\n' :: bare (reline e.text t) := by
        cases e <;> simp [LineEnding.text, bare]
      rw [reline_newline, he, bare_newline, ih]
    · unfold reline
      rw [if_neg hn]
      split
      · next hc =>
        obtain ⟨rfl, ht⟩ := hc
        have hr : returnsEnd t = true := by
          cases t with
          | nil => cases ht
          | cons d t => cases ht; rfl
        rw [ih, bare, if_pos ⟨rfl, hr⟩]
      · rw [bare, bare, returnsEnd_reline, ih]

/-- Relining moves no place: what it changes stands behind all columns that
count. -/
theorem advance_reline (e : LineEnding) (p : Place) (t : Text) :
    p.advance (reline e.text t) = p.advance t := by
  induction t generalizing p with
  | nil => rfl
  | cons c t ih =>
    by_cases hn : c = '\n'
    · subst hn
      rw [reline_newline, Place.advance_append, ih]
      cases e <;> simp [LineEnding.text, Place.step]
    · unfold reline
      rw [if_neg hn]
      split
      · next hc =>
        obtain ⟨rfl, ht⟩ := hc
        cases t with
        | nil => cases ht
        | cons d t => cases ht; rw [ih]; simp [Place.step]
      · simp [ih]

theorem advance_of_no_newline {t : Text} (h : '\n' ∉ t) (p : Place) :
    p.advance t = ⟨p.line, t.reverse ++ p.behind⟩ := by
  induction t generalizing p with
  | nil => rfl
  | cons c t ih =>
    simp only [List.mem_cons, not_or] at h
    rw [Place.advance_cons, ih h.2, Place.step, if_neg (fun e => h.1 e.symm)]
    simp

theorem advance_of_ended {t : Text} (h : Ended t) (n : Nat) :
    Place.advance ⟨n, []⟩ t = ⟨n + (lines t).length, []⟩ := by
  refine Ended.induction
    (P := fun t => ∀ n, Place.advance ⟨n, []⟩ t = ⟨n + (lines t).length, []⟩) ?_ ?_ h n
  · intro n; rfl
  · intro a t ha _ ih n
    rw [Place.advance_append, advance_of_no_newline ha, Place.advance_cons, Place.step, if_pos rfl,
      ih, lines_line ha, List.length_cons, Nat.add_assoc, Nat.add_comm 1]

/-- The first line past the end of a text comes behind all its lines. -/
theorem pastEnd_advance (t : Text) :
    (Place.start.advance t).pastEnd = ⟨1 + (lines t).length, 0⟩ := by
  obtain ⟨a, b, rfl, ha, hb⟩ := exists_ended_append t
  rw [Place.start, Place.advance_append, advance_of_ended ha, advance_of_no_newline hb,
    lines_append ha, List.length_append]
  by_cases hne : b = []
  · subst hne
    rfl
  · rw [lines_of_no_newline hb hne]
    simp [Place.pastEnd, hne, Nat.add_assoc]

/-! ## Reading back what was written -/

/-- A line as it is read back when it was written with a line ending: a newline
takes a carriage return before it along. -/
def readBack (e : LineEnding) (l : Text) : Text := trimReturn (l ++ e.lead)

@[simp] theorem readBack_crlf (l : Text) : readBack .crlf l = l := by
  simp [readBack, LineEnding.lead]

theorem readBack_eq_iff {e : LineEnding} {l : Text} :
    readBack e l = l ↔ e = .crlf ∨ l.getLast? ≠ some '\r' := by
  by_cases he : e = .crlf
  · subst he
    simp
  · have hlead : e.lead = [] := by cases e <;> simp_all [LineEnding.lead]
    rw [readBack, hlead, List.append_nil]
    refine ⟨fun h => Or.inr fun hl => ?_, fun h => ?_⟩
    · rw [← List.dropLast_append_getLast? _ hl, trimReturn_snoc] at h
      have := congrArg List.length h
      simp at this
    · rcases h with h | h
      · exact absurd h he
      · exact trimReturn_of_ne h

theorem map_readBack_eq_iff {e : LineEnding} {ls : List Text} :
    ls.map (readBack e) = ls ↔ e = .crlf ∨ ∀ l ∈ ls, l.getLast? ≠ some '\r' := by
  have hself : ls.map (readBack e) = ls ↔ ∀ l ∈ ls, readBack e l = l := by
    conv => lhs; rhs; rw [← List.map_id ls]
    exact List.map_inj_left
  rw [hself]
  by_cases he : e = .crlf
  · simp [he]
  · simp [readBack_eq_iff, he]

/-- The lines read back from lines that were each ended by `e`. -/
theorem lines_flatMap (e : LineEnding) {ls : List Text} (h : ∀ l ∈ ls, '\n' ∉ l) (t : Text) :
    lines (ls.flatMap (· ++ e.text) ++ t) = ls.map (readBack e) ++ lines t := by
  induction ls with
  | nil => rfl
  | cons l ls ih =>
    have hl : '\n' ∉ l ++ e.lead := by
      have := h l (by simp)
      cases e <;> simp [LineEnding.lead, this]
    have hls := ih fun k hk => h k (by simp [hk])
    rw [List.flatMap_cons, LineEnding.text_eq, ← List.append_assoc, List.append_assoc,
      List.append_assoc, List.singleton_append, lines_line hl, ← LineEnding.text_eq, hls]
    rfl

theorem lines_join (e : LineEnding) {ls : List Text} {l : Text} (h : ∀ k ∈ ls, '\n' ∉ k)
    (hl : '\n' ∉ l) (hne : l ≠ []) :
    lines (join e.text (ls ++ [l])) = ls.map (readBack e) ++ [l] := by
  rw [join_concat, lines_flatMap e h, lines_of_no_newline hl hne]

/-- Lines are read back as they were if no carriage return stands before a
newline in what was written. -/
theorem map_readBack_of_not_infix {e : LineEnding} {ls : List Text} {t : Text}
    (h : e = .crlf ∨ ¬ ['\r', '\n'] <:+: ls.flatMap (· ++ e.text) ++ t) :
    ls.map (readBack e) = ls := by
  rw [map_readBack_eq_iff]
  by_cases he : e = .crlf
  · exact Or.inl he
  · refine Or.inr fun l hl hr => (h.resolve_left he) ?_
    have htext : e.text = ['\n'] := by cases e <;> simp_all [LineEnding.text]
    obtain ⟨ks, ms, rfl⟩ := List.append_of_mem hl
    rw [← List.dropLast_append_getLast? _ hr, htext]
    exact ⟨ks.flatMap (· ++ ['\n']) ++ l.dropLast, ms.flatMap (· ++ ['\n']) ++ t, by simp⟩

theorem count_reline (t : Text) : (reline ['\n'] t).count '\r' ≤ t.count '\r' ∧
    (['\r', '\n'] <:+: t → (reline ['\n'] t).count '\r' < t.count '\r') := by
  induction t with
  | nil => exact ⟨Nat.le_refl _, by simp⟩
  | cons c t ih =>
    obtain ⟨hle, hlt⟩ := ih
    by_cases hn : c = '\n'
    · subst hn
      have hcount : ∀ u : Text, ('\n' :: u).count '\r' = u.count '\r' := fun u => by simp
      rw [reline_newline, List.singleton_append, hcount, hcount]
      refine ⟨hle, fun hi => hlt ?_⟩
      rcases List.infix_cons_iff.1 hi with hp | hi
      · simp at hp
      · exact hi
    · by_cases hr : c = '\r' ∧ t.head? = some '\n'
      · obtain ⟨rfl, ht⟩ := hr
        rw [reline_return ht, List.count_cons_self]
        exact ⟨by omega, fun _ => by omega⟩
      · rw [reline_keep hn fun hc ht => hr ⟨hc, ht⟩, List.count_cons, List.count_cons]
        refine ⟨by omega, fun hi => ?_⟩
        rcases List.infix_cons_iff.1 hi with ⟨u, hp⟩ | hi
        · obtain ⟨hc, ht⟩ := List.cons.inj hp
          exact absurd ⟨hc.symm, by rw [← ht]; rfl⟩ hr
        · have := hlt hi
          omega

theorem count_flatMap (ls : List Text) : (ls.flatMap (· ++ ['\n'])).count '\r' =
    ls.flatten.count '\r' := by
  induction ls with
  | nil => rfl
  | cons l ls ih => simp [ih]

theorem count_join (ls : List Text) : (join ['\n'] ls).count '\r' = ls.flatten.count '\r' := by
  rcases List.eq_nil_or_concat ls with rfl | ⟨ls, l, rfl⟩
  · rfl
  · rw [List.concat_eq_append, join_concat, List.count_append, count_flatMap]
    simp

theorem count_lines (t : Text) : (lines t).flatten.count '\r' = (reline ['\n'] t).count '\r' := by
  by_cases h : t.getLast? = some '\n'
  · have hend : Ended t := by
      intro c hc
      rw [h] at hc
      cases hc
      rfl
    rw [← count_flatMap, flatMap_lines _ hend]
  · rw [← count_join, join_lines _ h]

end Text

end Offside
