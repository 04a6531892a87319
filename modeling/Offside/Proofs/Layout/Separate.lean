import Offside.Proofs.Layout.Blank
import Offside.Proofs.Normalize.Insertion

/-!
# Putting empty rows in

A separator is an empty row. It can be put before any row that no backslash
joins to the one above: there it gives one blank line token and changes no
state. Behind a backslash it cannot be read.

Results:
* `foldr_separateAt`: where the lines that are put in stand;
* `lines_separate`: empty lines put between lines are empty rows put between rows;
* `separateLog_split`: what a log looks like around a separator;
* `Reads.separate`, `joined_of_reads`: where empty rows can be read;
* `Reads.rewrite`: a log written anew.
-/
namespace Offside

open Lexeme Text Layout

namespace Row

/-- The row of an empty line. -/
def empty : Row where
  core := []
  trail := []
  exit := .newline
  inner := by simp
  spaces := by simp
  fits := by simp [Exit.Fits]
  cut := trivial

@[simp] theorem empty_lines : empty.lines = [[]] := rfl

@[simp] theorem empty_isBlank : empty.isBlank = true := rfl

theorem empty_text_ne_nil : empty.text ≠ [] := by decide

end Row

/-- Rows with an empty one before each that begins on a line of `ns`, where the
first row begins on line `n`. -/
def separate (ns : List Nat) : Nat → List Row → List Row
  | _, [] => []
  | n, row :: rows =>
    (if n ∈ ns then [Row.empty] else []) ++ row :: separate ns (n + row.lines.length) rows

/-- The lines on which rows begin. -/
def rowStarts : Nat → List Row → List Nat
  | _, [] => []
  | n, row :: rows => n :: rowStarts (n + row.lines.length) rows

theorem le_of_mem_rowStarts {rows : List Row} {n k : Nat} (h : k ∈ rowStarts n rows) : n ≤ k := by
  induction rows generalizing n with
  | nil => cases h
  | cons row rows ih =>
    rcases List.mem_cons.1 h with rfl | h
    · exact Nat.le_refl _
    · have := ih h
      omega

theorem rowStarts_lt {rows : List Row} (h : ∀ row ∈ rows, row.text ≠ []) {n k : Nat}
    (hk : k ∈ rowStarts n rows) : k < n + (rows.flatMap Row.lines).length := by
  induction rows generalizing n with
  | nil => cases hk
  | cons row rows ih =>
    have hlen := List.length_pos_iff.2 (Row.lines_ne_nil (h row (by simp)))
    rw [List.flatMap_cons, List.length_append]
    rcases List.mem_cons.1 hk with rfl | hk
    · omega
    · have := ih (fun q hq => h q (by simp [hq])) hk
      omega

theorem pairwise_rowStarts {rows : List Row} (h : ∀ row ∈ rows, row.text ≠ []) (n : Nat) :
    (rowStarts n rows).Pairwise (· < ·) := by
  induction rows generalizing n with
  | nil => exact .nil
  | cons row rows ih =>
    refine List.pairwise_cons.2 ⟨fun k hk => ?_, ih (fun r hr => h r (by simp [hr])) _⟩
    have := le_of_mem_rowStarts hk
    have := List.length_pos_iff.2 (Row.lines_ne_nil (h row (by simp)))
    omega

/-! ## Empty lines -/

/-- Lines with an empty one before each whose number is one of `ns`, where the
first has number `n`. -/
def separateLines (ns : List Nat) : Nat → List Text → List Text
  | _, [] => []
  | n, l :: ls => (if n ∈ ns then [[]] else []) ++ l :: separateLines ns (n + 1) ls

theorem separateLines_append (ns : List Nat) (n : Nat) (pre post : List Text) :
    separateLines ns n (pre ++ post) =
      separateLines ns n pre ++ separateLines ns (n + pre.length) post := by
  induction pre generalizing n with
  | nil => rfl
  | cons l pre ih =>
    have hlen : n + (l :: pre).length = n + 1 + pre.length := by
      rw [List.length_cons]
      omega
    rw [List.cons_append, separateLines, ih, separateLines, hlen, List.append_assoc,
      List.cons_append]

theorem separateLines_eq_self {ns : List Nat} {n : Nat} {ls : List Text}
    (h : ∀ k, n ≤ k → k < n + ls.length → k ∉ ns) : separateLines ns n ls = ls := by
  induction ls generalizing n with
  | nil => rfl
  | cons l ls ih =>
    rw [List.length_cons] at h
    have hrest := ih (n := n + 1) fun k h1 h2 => h k (by omega) (by omega)
    rw [separateLines, hrest, if_neg (h n (Nat.le_refl n) (by omega)), List.nil_append]

theorem spread_eq_separateLines {ns : List Nat} {n : Nat} {ls : List Text}
    (h : n + ls.length ∉ ns) : spread ns n ls = separateLines ns n ls := by
  induction ls generalizing n with
  | nil => exact if_neg h
  | cons l ls ih =>
    rw [List.length_cons, ← Nat.add_assoc, Nat.add_right_comm] at h
    rw [spread, separateLines, ih h]

/-- Separators put in from the last to the first stand before the lines that had
these numbers before any was put in. -/
theorem foldr_separateAt {ns : List Nat} {ls : List Text} (hns : ns.Pairwise (· < ·))
    (hbound : ∀ n ∈ ns, 1 < n ∧ n ≤ ls.length) :
    ns.foldr separateAt ls = separateLines ns 1 ls := by
  have hall : ns.filter (1 < ·) = ns :=
    List.filter_eq_self.2 fun n hn => by simpa using (hbound n hn).1
  have hend : 1 + ls.length ∉ ns := fun h => by
    have := (hbound _ h).2
    omega
  rw [foldr_separateAt_spread hns, hall, spread_eq_separateLines hend]

/-- Empty lines before lines on which rows begin are empty rows before these. -/
theorem lines_separate {rows : List Row} (h : ∀ row ∈ rows, row.text ≠ []) {ns : List Nat} {n : Nat}
    (hmem : ∀ k ∈ ns, n ≤ k → k ∈ rowStarts n rows) :
    (separate ns n rows).flatMap Row.lines = separateLines ns n (rows.flatMap Row.lines) := by
  induction rows generalizing n with
  | nil => rfl
  | cons row rows ih =>
    obtain ⟨l, ls, hl⟩ := List.exists_cons_of_ne_nil (Row.lines_ne_nil (h row (by simp)))
    have hlen : row.lines.length = ls.length + 1 := by rw [hl, List.length_cons]
    have hrows : ∀ k ∈ ns, n + row.lines.length ≤ k → k ∈ rowStarts (n + row.lines.length) rows := by
      intro k hk hle
      rcases List.mem_cons.1 (hmem k hk (by omega)) with rfl | hk
      · omega
      · exact hk
    have hwithin : separateLines ns (n + 1) ls = ls := separateLines_eq_self fun k hk hlt hkn => by
      rcases List.mem_cons.1 (hmem k hkn (by omega)) with rfl | hk
      · omega
      · have := le_of_mem_rowStarts hk
        omega
    have hnext : n + 1 + ls.length = n + row.lines.length := by omega
    have hline : separateLines ns n (row.lines ++ rows.flatMap Row.lines) =
        (if n ∈ ns then [[]] else []) ++
          (row.lines ++ separateLines ns (n + row.lines.length) (rows.flatMap Row.lines)) := by
      rw [← hnext, hl, List.cons_append, separateLines, separateLines_append, hwithin,
        List.cons_append]
    rw [separate, List.flatMap_append, List.flatMap_cons, ih (fun r hr => h r (by simp [hr])) hrows,
      List.flatMap_cons, hline]
    split <;> rfl

theorem separate_text_ne_nil {rows : List Row} (h : ∀ row ∈ rows, row.text ≠ []) {ns : List Nat}
    (n : Nat) : ∀ row ∈ separate ns n rows, row.text ≠ [] := by
  induction rows generalizing n with
  | nil => simp [separate]
  | cons row rows ih =>
    intro r hr
    rcases List.mem_append.1 hr with hr | hr
    · split at hr
      · rw [List.mem_singleton.1 hr]
        exact Row.empty_text_ne_nil
      · cases hr
    · rcases List.mem_cons.1 hr with rfl | hr
      · exact h r (by simp)
      · exact ih (fun q hq => h q (by simp [hq])) _ r hr

theorem separate_ne_nil {ns : List Nat} {n : Nat} {rows : List Row} :
    separate ns n rows = [] ↔ rows = [] := by
  cases rows <;> simp [separate]

theorem getLast_separate {ns : List Nat} {n : Nat} {rows : List Row} :
    (separate ns n rows).getLast? = rows.getLast? := by
  induction rows generalizing n with
  | nil => rfl
  | cons row rows ih =>
    rw [separate, List.getLast?_append_of_ne_nil _ (by simp), List.getLast?_cons, ih,
      List.getLast?_cons]

theorem mem_separate {ns : List Nat} {n : Nat} {rows : List Row} {row : Row}
    (h : row ∈ separate ns n rows) : row = Row.empty ∨ row ∈ rows := by
  induction rows generalizing n with
  | nil => cases h
  | cons q rows ih =>
    rcases List.mem_append.1 h with h | h
    · split at h
      · exact Or.inl (List.mem_singleton.1 h)
      · cases h
    · rcases List.mem_cons.1 h with rfl | h
      · exact Or.inr (by simp)
      · exact (ih h).imp_right fun hm => by simp [hm]

/-! ## Rows behind a backslash -/

/-- The lines that begin behind a row that is joined to the next. -/
def joinedStarts : Nat → List Row → List Nat
  | _, [] => []
  | n, row :: rows =>
    (if row.exit = .joined then [n + row.lines.length] else []) ++
      joinedStarts (n + row.lines.length) rows

theorem lt_of_mem_joinedStarts {rows : List Row} (h : ∀ row ∈ rows, row.text ≠ []) {n k : Nat}
    (hk : k ∈ joinedStarts n rows) : n < k := by
  induction rows generalizing n with
  | nil => cases hk
  | cons row rows ih =>
    have hlen := List.length_pos_iff.2 (Row.lines_ne_nil (h row (by simp)))
    rcases List.mem_append.1 hk with hk | hk
    · split at hk
      · rw [List.mem_singleton.1 hk]
        omega
      · cases hk
    · have := ih (fun r hr => h r (by simp [hr])) hk
      omega

section log

variable {r : Ruler} {s last : Layout} {es : List Entry}

theorem unjoined_of_read {row : Row} {ts : List Token} (hx : row.exit ≠ .joined) (hs : Sound s)
    (hh : s.lineHeld = false) (h : row.read r s = some (ts, last)) : last.joined? = none := by
  by_cases hb : row.isBlank = true
  · obtain ⟨hj, rfl, -⟩ := (read_blank hb hh).1 h
    exact unplaced_joined_eq_none.2 hj
  · obtain ⟨us, m, hp, hf, -, rfl⟩ := read_eq_some.1 h
    have hheld := reads_held row.pieces_inner
      (Or.inr (exists_not_space (by simpa using hb) hx)) hp
    have hj := (Sound.reads hs hp).waits hheld
    rw [unplaced_joined_eq_none]
    rw [step_exit, if_neg hx] at hf ⊢
    rcases endLine_spec rfl hf with ⟨-, -, -, -, hn⟩ | ⟨-, -, -, hn⟩ | ⟨-, hj, -, hn⟩ <;> rw [hn] <;>
      exact hj

/-- The strip of an empty row. -/
def separator : Token := ⟨.blankLine, ⟨0, 0⟩, ⟨0, 0⟩, []⟩

/-- The log of rows with separators put in. -/
def separateLog (ns : List Nat) : Nat → List Entry → List Entry
  | _, [] => []
  | n, e :: es =>
    (if n ∈ ns then [⟨e.before, Row.empty, [separator]⟩] else []) ++
      e :: separateLog ns (n + e.row.lines.length) es

theorem map_row_separateLog (ns : List Nat) (n : Nat) (es : List Entry) :
    (separateLog ns n es).map (·.row) = separate ns n (es.map (·.row)) := by
  induction es generalizing n with
  | nil => rfl
  | cons e es ih =>
    rw [separateLog, List.map_append, List.map_cons, ih, List.map_cons, separate]
    split <;> rfl

theorem mem_separateLog {ns : List Nat} {n : Nat} {es : List Entry} {f : Entry}
    (h : f ∈ separateLog ns n es) : f ∈ es ∨ f.strip = [separator] := by
  induction es generalizing n with
  | nil => cases h
  | cons e es ih =>
    rcases List.mem_append.1 h with h | h
    · split at h
      · rw [List.mem_singleton.1 h]
        exact Or.inr rfl
      · cases h
    · rcases List.mem_cons.1 h with rfl | h
      · exact Or.inl (by simp)
      · exact (ih h).imp_left fun hm => by simp [hm]

theorem filter_separateLog {ns : List Nat} {n : Nat} {es : List Entry}
    (h : ∀ e ∈ es, e.isSolid = true) : (separateLog ns n es).filter Entry.isSolid = es := by
  induction es generalizing n with
  | nil => rfl
  | cons e es ih =>
    have hempty : ∀ s ts, Entry.isSolid ⟨s, Row.empty, ts⟩ = false := fun _ _ => rfl
    rw [separateLog, List.filter_append, List.filter_cons_of_pos (h e (by simp)),
      ih fun f hf => h f (by simp [hf])]
    split <;> simp [hempty]

/-- What a log looks like around a separator. -/
theorem separateLog_split {ns : List Nat} {n : Nat} {es p q : List Entry} {f : Entry}
    (hs : ∀ e ∈ es, e.isSolid = true) (hf : f.isSolid = false)
    (h : separateLog ns n es = p ++ f :: q) :
    ∃ ds g gs qs, es = ds ++ g :: gs ∧ p = separateLog ns n ds ∧ q = g :: qs ∧
      f.before = g.before ∧ n + height ds ∈ ns := by
  induction es generalizing n p with
  | nil => simp [separateLog] at h
  | cons e es ih =>
    have he : e.isSolid = true := hs e (by simp)
    have htail : ∀ p', e :: separateLog ns (n + e.row.lines.length) es = p' ++ f :: q →
        ∃ ds g gs qs, es = ds ++ g :: gs ∧ q = g :: qs ∧ f.before = g.before ∧
          n + height (e :: ds) ∈ ns ∧ p' = e :: separateLog ns (n + e.row.lines.length) ds := by
      intro p' hp
      cases p' with
      | nil =>
        obtain ⟨rfl, -⟩ := List.cons.inj hp
        rw [he] at hf
        cases hf
      | cons x p' =>
        obtain ⟨rfl, hrest⟩ := List.cons.inj hp
        obtain ⟨ds, g, gs, qs, hes, hp', hq, hb, hn⟩ := ih (fun k hk => hs k (by simp [hk])) hrest
        refine ⟨ds, g, gs, qs, hes, hq, hb, ?_, by rw [hp']⟩
        rwa [height_cons, ← Nat.add_assoc]
    rw [separateLog] at h
    by_cases hn : n ∈ ns
    · rw [if_pos hn, List.singleton_append] at h
      cases p with
      | nil =>
        obtain ⟨rfl, rfl⟩ := List.cons.inj h
        exact ⟨[], e, es, _, rfl, rfl, rfl, rfl, hn⟩
      | cons x p =>
        obtain ⟨rfl, hrest⟩ := List.cons.inj h
        obtain ⟨ds, g, gs, qs, rfl, hq, hb, hmem, hp⟩ := htail p hrest
        refine ⟨e :: ds, g, gs, qs, rfl, ?_, hq, hb, hmem⟩
        rw [separateLog, if_pos hn, hp]
        rfl
    · rw [if_neg hn, List.nil_append] at h
      obtain ⟨ds, g, gs, qs, rfl, hq, hb, hmem, hp⟩ := htail p h
      refine ⟨e :: ds, g, gs, qs, rfl, ?_, hq, hb, hmem⟩
      rw [separateLog, if_neg hn, hp]
      rfl

theorem read_empty (hs : s.unplaced = s) (hh : s.lineHeld = false) (hj : s.joined? = none) :
    Row.empty.read r s = some ([separator], s) :=
  (read_blank rfl hh).2 ⟨hj, hs.symm, rfl⟩

/-- Separators can be read where no backslash waits. -/
theorem Reads.separate {ns : List Nat} {n : Nat} (h : Reads r s es last) (hu : s.unplaced = s)
    (hs : Sound s) (hh : s.lineHeld = false) (hj : n ∈ ns → s.joined? = none)
    (hns : ∀ k ∈ ns, k ∉ joinedStarts n (es.map (·.row))) :
    Reads r s (separateLog ns n es) last := by
  induction h generalizing n with
  | nil => exact .nil _
  | @cons s m last row ts es hr _ ih =>
    have hm : m.unplaced = m := by
      obtain ⟨m', -, rfl⟩ := reads_eq_some.1 hr
      exact unplaced_unplaced m'
    have hnext : n + row.lines.length ∈ ns → m.joined? = none := by
      intro hn
      refine unjoined_of_read (fun hx => hns _ hn ?_) hs hh hr
      simp [joinedStarts, hx]
    have hrest := ih hm (Sound.read hs hr) (read_rested hr) hnext fun k hk hkj =>
      hns k hk (by simp [joinedStarts, hkj])
    rw [separateLog]
    split
    · next hn => exact .cons (read_empty hu hh (hj hn)) (.cons hr hrest)
    · exact .cons hr hrest

/-! ## Logs written anew -/

/-- An entry and the entry of the row written anew. -/
structure Entry.Alike (a b : Entry) : Prop where
  before : a.before = b.before
  strip : List.Forall₂ Token.Alike a.strip b.strip
  solid : a.isSolid = b.isSolid
  kinds : a.row.core.map (·.kind) = b.row.core.map (·.kind)

/-- An entry and the entry of the row written anew with `e`. -/
structure Entry.Recast (e : LineEnding) (a b : Entry) : Prop where
  before : a.before = b.before
  row : ∃ closed, b.row = a.row.recast e closed
  strip : List.Forall₂ (Token.Recast e) a.strip b.strip

theorem Entry.Recast.alike {e : LineEnding} {a b : Entry} (h : a.Recast e b) : a.Alike b := by
  obtain ⟨closed, hrow⟩ := h.row
  refine ⟨h.before, h.strip.imp fun _ _ ht => ht.alike, ?_, ?_⟩
  · simp [Entry.isSolid, Row.isSolid, hrow]
  · simp [hrow, Row.recast, Function.comp_def]

theorem forall₂_split {α β : Type} {R : α → β → Prop} {l : List α} {p q : List β} {b : β}
    (h : List.Forall₂ R l (p ++ b :: q)) :
    ∃ p' a q', l = p' ++ a :: q' ∧ List.Forall₂ R p' p ∧ R a b ∧ List.Forall₂ R q' q := by
  have hleft := List.forall₂_take_append l p _ h
  have hright := List.forall₂_drop_append l p _ h
  obtain ⟨a, q', ha, hrest, hdrop⟩ := List.forall₂_cons_right_iff.1 hright
  exact ⟨_, a, q', by rw [← hdrop, List.take_append_drop], hleft, ha, hrest⟩

/-- A log written anew. -/
theorem Reads.rewrite (e : LineEnding) (closed : Bool) (h : Reads r s es last) :
    ∃ es', es'.map (·.row) = Offside.rewrite e closed (es.map (·.row)) ∧ Reads r s es' last ∧
      List.Forall₂ (Entry.Recast e) es es' := by
  induction h with
  | nil => exact ⟨[], rfl, .nil _, .nil⟩
  | @cons s m last row ts es hr _ ih =>
    obtain ⟨es', he, hes, hall⟩ := ih
    obtain ⟨us, hu, hts⟩ := read_recast e (closed || !(es.map (·.row)).isEmpty) hr
    refine ⟨⟨s, _, us⟩ :: es', ?_, .cons hu hes, .cons ⟨rfl, ⟨_, rfl⟩, hts⟩ hall⟩
    rw [List.map_cons, he, List.map_cons, Offside.rewrite]

theorem Reads.of_cons {row : Row} {rows : List Row} (h : Reads r s es last)
    (he : es.map (·.row) = row :: rows) :
    ∃ ts m es', row.read r s = some (ts, m) ∧ Reads r m es' last ∧ es'.map (·.row) = rows := by
  cases h with
  | nil => cases he
  | cons hr hrest =>
    obtain ⟨rfl, he'⟩ := List.cons.inj he
    exact ⟨_, _, _, hr, hrest, he'⟩

/-- Behind a backslash no separator can be read. -/
theorem joined_of_reads {ns : List Nat} {n : Nat} {rows : List Row} {e : LineEnding} {closed : Bool}
    (h : Reads r s es last) (hrows : es.map (·.row) = Offside.rewrite e closed (separate ns n rows))
    (hne : ∀ row ∈ rows, row.text ≠ []) (hh : s.lineHeld = false)
    (hmem : ∀ k ∈ ns, n ≤ k → k ∈ rowStarts n rows) :
    (n ∈ ns → s.joined? = none) ∧ ∀ k ∈ ns, k ∉ joinedStarts n rows := by
  induction rows generalizing n s es with
  | nil =>
    refine ⟨fun hn => ?_, fun _ _ hk => by cases hk⟩
    cases hmem n hn (Nat.le_refl n)
  | cons row rows ih =>
    have hlen := List.length_pos_iff.2 (Row.lines_ne_nil (hne row (by simp)))
    have hmem' : ∀ k ∈ ns, n + row.lines.length ≤ k → k ∈ rowStarts (n + row.lines.length) rows := by
      intro k hk hle
      rcases List.mem_cons.1 (hmem k hk (by omega)) with rfl | hk
      · omega
      · exact hk
    -- the row and what follows it, read from the state that a separator would leave
    have htail : ∀ {m : Layout} {fs : List Entry}, Reads r m fs last → m.lineHeld = false →
        fs.map (·.row) = Offside.rewrite e closed (row :: separate ns (n + row.lines.length) rows) →
        ∀ k ∈ ns, k ∉ joinedStarts n (row :: rows) := by
      intro m fs hfs hm hrows k hk hkj
      obtain ⟨ts, m', fs', hr, hrest, hfs'⟩ := hfs.of_cons hrows
      obtain ⟨h1, h2⟩ := ih hrest hfs' (fun q hq => hne q (by simp [hq])) (read_rested hr) hmem'
      rcases List.mem_append.1 hkj with hkj | hkj
      · split at hkj
        · next hx =>
          rw [List.mem_singleton.1 hkj] at hk
          exact joined_of_read ((recast_joined _ _).1 hx) hr (h1 hk)
        · cases hkj
      · exact h2 k hk hkj
    rw [separate] at hrows
    by_cases hn : n ∈ ns
    · rw [if_pos hn, List.singleton_append] at hrows
      obtain ⟨ts, m, fs, hr, hrest, hfs⟩ := h.of_cons hrows
      have hb : (Row.empty.recast e (closed || !(row :: separate ns (n + row.lines.length)
          rows).isEmpty)).isBlank = true := by simp
      obtain ⟨hj, rfl, -⟩ := (read_blank hb hh).1 hr
      exact ⟨fun _ => hj, htail hrest hh hfs⟩
    · rw [if_neg hn, List.nil_append] at hrows
      exact ⟨fun h => absurd h hn, htail h hh hrows⟩

end log

end Offside
