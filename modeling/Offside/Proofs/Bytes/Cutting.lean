import Offside.Proofs.Bytes.Literal
import Offside.Proofs.Lexeme.Units

/-!
# Cutting a text at byte offsets

A text is cut into spans between byte offsets, up to the offset at which nothing fits. The
spans lie one behind the other from the start of the text on, and each ends between two
characters. Where a span begins, or cutting stopped, a literal that opens there is cut off
up to its end, and cutting stopped there if it has none.

Results:
* `cutUp_eq`: the spans of a text are those of its lexemes;
* `Cutting.reached`: what is left of a text where the spans have come to;
* `cutUp_partitions`: the spans of every text.
-/
namespace Offside

namespace Checked

open Text Lexeme

/-- A lexeme between two byte offsets of a text. -/
structure Span where
  kind : Lexeme.Kind
  start : Nat
  stop : Nat
  deriving DecidableEq, Repr

/-- Why cutting stopped, and at which byte offset. -/
structure Failure where
  cause : Fault
  start : Nat
  deriving DecidableEq, Repr

/-- What cutting a text comes to. -/
structure Cutting where
  spans : List Span
  failure? : Option Failure
  deriving DecidableEq, Repr

/-- Cuts up the text `t` that is left from a byte offset on. -/
def cutFrom (offset : Nat) (t : Text) : Option Cutting :=
  match t with
  | [] => some ⟨[], none⟩
  | c :: rest =>
    match _h : front c rest with
    | none => none
    | some (.fault cause) => some ⟨[], some ⟨cause, offset⟩⟩
    | some (.lexeme l after) => do
      let stop := offset + l.text.byteSize
      let behind ← cutFrom stop after
      return ⟨⟨l.kind, offset, stop⟩ :: behind.spans, behind.failure?⟩
termination_by t.length
decreasing_by
  rw [front_eq] at _h
  exact Lexeme.front_length_lt (Option.some.inj _h)

/-- Cuts up a text. -/
def cutUp (t : Text) : Option Cutting := cutFrom 0 t

/-! ## Spans of lexemes -/

/-- The spans of lexemes that follow one another from a byte offset on. -/
def spansFrom (offset : Nat) : List Lexeme → List Span
  | [] => []
  | l :: ls => ⟨l.kind, offset, offset + l.text.byteSize⟩ :: spansFrom (offset + l.text.byteSize) ls

/-- The lexemes of a text that were found from a byte offset on, as spans. -/
def Cutting.ofScan (offset : Nat) (cut : Scan) : Cutting :=
  ⟨spansFrom offset cut.lexemes,
    cut.stop?.map fun stop => ⟨stop.cause, offset + byteSize (textOf cut.lexemes)⟩⟩

/-- Spans one behind the other from offset `n` to offset `m`, none of them empty. -/
def Tiled (n : Nat) : List Span → Nat → Prop
  | [], m => n = m
  | p :: ps, m => p.start = n ∧ n < p.stop ∧ Tiled p.stop ps m

/-- Where the spans of a text come to: to the failure, or to the end of the text. -/
def Cutting.stop (c : Cutting) (s : Text) : Nat :=
  match c.failure? with
  | some f => f.start
  | none => byteSize s

/-- Cutting came to this offset: a span begins there, or cutting stopped there. -/
def Cutting.Reaches (c : Cutting) (n : Nat) : Prop := n = 0 ∨ ∃ p ∈ c.spans, p.stop = n

/-- How the spans of a text lie, and where its literals are. -/
structure Cutting.Partitions (c : Cutting) (s : Text) : Prop where
  tiled : Tiled 0 c.spans (c.stop s)
  /-- A span begins where cutting came to, and both its ends are between characters. -/
  between : ∀ p ∈ c.spans, ∃ pre x post, s = pre ++ x ++ post ∧ c.Reaches (byteSize pre) ∧
    p.start = byteSize pre ∧ p.stop = byteSize (pre ++ x)
  /-- Where cutting came to, a literal is cut off exactly if one stands there. -/
  literal : ∀ pre t, s = pre ++ t → c.Reaches (byteSize pre) → ∀ style stop,
    ⟨.literal style, byteSize pre, stop⟩ ∈ c.spans ↔
      ∃ x, TakesLiteral style t x ∧ stop = byteSize (pre ++ x)
  /-- Cutting stopped there for want of closing marks exactly if a literal opens there and
  has no end. -/
  unterminated : ∀ pre t, s = pre ++ t → c.Reaches (byteSize pre) → ∀ style,
    c.failure? = some ⟨.unterminated style, byteSize pre⟩ ↔ BreaksLiteral style t

theorem cutFrom_of_lexeme {c : Char} {rest after : Text} {l : Lexeme} (offset : Nat)
    (h : Lexeme.front c rest = .lexeme l after) :
    cutFrom offset (c :: rest) = (cutFrom (offset + l.text.byteSize) after).map fun behind =>
      ⟨⟨l.kind, offset, offset + l.text.byteSize⟩ :: behind.spans, behind.failure?⟩ := by
  have hfront : front c rest = some (.lexeme l after) := by rw [front_eq, h]
  rw [cutFrom]
  split
  · next h' => rw [hfront] at h'; cases h'
  · next h' => rw [hfront] at h'; cases h'
  · next h' => rw [hfront] at h'; cases h'; exact Option.map_eq_bind.symm

theorem cutFrom_of_fault {c : Char} {rest : Text} {cause : Fault} (offset : Nat)
    (h : Lexeme.front c rest = .fault cause) :
    cutFrom offset (c :: rest) = some ⟨[], some ⟨cause, offset⟩⟩ := by
  have hfront : front c rest = some (.fault cause) := by rw [front_eq, h]
  rw [cutFrom]
  split
  · next h' => rw [hfront] at h'; cases h'
  · next h' => rw [hfront] at h'; cases h'; rfl
  · next h' => rw [hfront] at h'; cases h'

theorem cutFrom_eq (offset : Nat) (t : Text) :
    cutFrom offset t = some (.ofScan offset (Lexeme.scan t)) := by
  fun_induction Lexeme.scan t generalizing offset with
  | case1 => rw [cutFrom]; rfl
  | case2 c rest l after h _ ih =>
    rw [cutFrom_of_lexeme offset h, ih, Option.map_some]
    simp only [Cutting.ofScan, spansFrom, textOf_cons, byteSize_append, Nat.add_assoc]
    rfl
  | case3 c rest cause h => rw [cutFrom_of_fault offset h]; rfl

/-- The spans of a text are those of its lexemes. -/
theorem cutUp_eq (t : Text) : cutUp t = some (.ofScan 0 (Lexeme.scan t)) := cutFrom_eq 0 t

section spans

variable {ls as bs : List Lexeme} {n m : Nat} {p : Span}

theorem mem_spansFrom : p ∈ spansFrom n ls ↔ ∃ as l bs, ls = as ++ l :: bs ∧
    p = ⟨l.kind, n + byteSize (textOf as), n + byteSize (textOf (as ++ [l]))⟩ := by
  induction ls generalizing n with
  | nil => simp [spansFrom]
  | cons k ls ih =>
    rw [spansFrom, List.mem_cons, ih]
    constructor
    · rintro (rfl | ⟨as, l, bs, rfl, rfl⟩)
      · exact ⟨[], k, ls, rfl, by simp⟩
      · exact ⟨k :: as, l, bs, rfl, by simp [Nat.add_assoc]⟩
    · rintro ⟨as, l, bs, hls, rfl⟩
      cases as with
      | nil =>
        obtain ⟨rfl, rfl⟩ := List.cons.inj hls
        exact Or.inl (by simp)
      | cons a as =>
        obtain ⟨rfl, rfl⟩ := List.cons.inj hls
        exact Or.inr ⟨as, l, bs, rfl, by simp [Nat.add_assoc]⟩

theorem tiled_spansFrom (h : ∀ l ∈ ls, l.text ≠ []) :
    Tiled n (spansFrom n ls) (n + byteSize (textOf ls)) := by
  induction ls generalizing n with
  | nil => rfl
  | cons l ls ih =>
    obtain ⟨hl, hls⟩ := List.forall_mem_cons.1 h
    have hpos : 0 < byteSize l.text := Nat.pos_of_ne_zero fun hz => hl (byteSize_eq_zero.1 hz)
    have hrest := ih (n := n + byteSize l.text) hls
    rw [Nat.add_assoc, ← byteSize_append, ← textOf_cons] at hrest
    exact ⟨rfl, Nat.lt_add_of_pos_right hpos, hrest⟩

theorem eq_nil_of_byteSize (h : ∀ l ∈ ls, l.text ≠ []) (hz : byteSize (textOf ls) = 0) : ls = [] := by
  cases ls with
  | nil => rfl
  | cons l ls =>
    have hl : l.text = [] := (List.append_eq_nil_iff.1 (byteSize_eq_zero.1 hz)).1
    exact absurd hl (h l List.mem_cons_self)

theorem eq_of_byteSize {as' bs' : List Lexeme} (h : ∀ l ∈ as ++ bs, l.text ≠ [])
    (he : as ++ bs = as' ++ bs') (hz : byteSize (textOf as) = byteSize (textOf as')) : bs = bs' := by
  rcases List.append_eq_append_iff.1 he with ⟨es, rfl, rfl⟩ | ⟨es, rfl, rfl⟩
  · obtain rfl : es = [] := eq_nil_of_byteSize (fun l hl => h l (by simp [hl])) (by simpa using hz)
    rfl
  · obtain rfl : es = [] := eq_nil_of_byteSize (fun l hl => h l (by simp [hl])) (by simpa using hz)
    rfl

theorem mem_spansFrom_at {k : Lexeme.Kind} (h : ∀ l ∈ as ++ bs, l.text ≠ []) :
    ⟨k, n + byteSize (textOf as), m⟩ ∈ spansFrom n (as ++ bs) ↔
      ∃ l ls, bs = l :: ls ∧ l.kind = k ∧ m = n + byteSize (textOf as ++ l.text) := by
  rw [mem_spansFrom]
  constructor
  · rintro ⟨as', l, ls, he, hp⟩
    obtain ⟨rfl, hstart, rfl⟩ := Span.mk.injEq .. ▸ hp
    have hz : byteSize (textOf as) = byteSize (textOf as') := Nat.add_left_cancel hstart
    refine ⟨l, ls, eq_of_byteSize h he hz, rfl, ?_⟩
    simp [hz]
  · rintro ⟨l, ls, rfl, rfl, rfl⟩
    exact ⟨as, l, ls, rfl, by simp⟩

end spans

/-! ## Where cutting came to -/

section reached

variable {s pre t : Text}

theorem ne_nil_of_mem_scan {s : Text} : ∀ l ∈ (Lexeme.scan s).lexemes, l.text ≠ [] :=
  fun l hl => ((cut_scan s).valid l hl).ne_nil

theorem Cutting.Reaches.exists {n : Nat} (h : (ofScan 0 (Lexeme.scan s)).Reaches n) :
    ∃ as bs, (Lexeme.scan s).lexemes = as ++ bs ∧ n = byteSize (textOf as) := by
  rcases h with rfl | ⟨p, hp, rfl⟩
  · exact ⟨[], _, rfl, rfl⟩
  · obtain ⟨as, l, bs, hls, rfl⟩ := mem_spansFrom.1 hp
    exact ⟨as ++ [l], bs, by simp [hls], by simp⟩

theorem Cutting.reaches_append {as bs : List Lexeme} (hls : (Lexeme.scan s).lexemes = as ++ bs) :
    (ofScan 0 (Lexeme.scan s)).Reaches (byteSize (textOf as)) := by
  rcases List.eq_nil_or_concat as with rfl | ⟨as, l, rfl⟩
  · exact Or.inl rfl
  · refine Or.inr ⟨_, mem_spansFrom.2 ⟨as, l, bs, by rw [hls, List.concat_eq_append]; simp, rfl⟩, ?_⟩
    simp

/-- What is left of a text there is cut up as it would be alone. -/
theorem Cutting.reached (h : (ofScan 0 (Lexeme.scan s)).Reaches (byteSize pre)) (hs : s = pre ++ t) :
    ∃ as bs, (Lexeme.scan s).lexemes = as ++ bs ∧ pre = textOf as ∧
      Lexeme.scan t = ⟨bs, (Lexeme.scan s).stop?⟩ := by
  obtain ⟨as, bs, hls, hsize⟩ := h.exists
  have htext := textOf_scan_append_rest s
  rw [hls, textOf_append, List.append_assoc] at htext
  have hpre : pre = textOf as := by
    rw [← takeBytes_byteSize_append pre t, ← hs, ← htext, hsize, takeBytes_byteSize_append]
  have ht : t = textOf bs ++ (Lexeme.scan s).rest := by
    rw [← htext, hpre] at hs
    exact (List.append_cancel_left hs).symm
  have hcut := cut_scan s
  rw [hls, cut_append, ← ht] at hcut
  have hscan := scan_append hcut.1
  rw [← hpre, ← hs] at hscan
  refine ⟨as, bs, hls, hpre, ?_⟩
  have hbs : bs = (Lexeme.scan t).lexemes := by
    rw [hscan] at hls
    exact (List.append_cancel_left hls).symm
  rw [hbs, hscan]

theorem Cutting.stop_ofScan :
    (ofScan 0 (Lexeme.scan s)).stop s = 0 + byteSize (textOf (Lexeme.scan s).lexemes) := by
  have htext := textOf_scan_append_rest s
  unfold Cutting.stop ofScan
  cases hstop : (Lexeme.scan s).stop? with
  | some stop => rfl
  | none =>
    rw [Scan.rest, hstop, List.append_nil] at htext
    rw [htext, Nat.zero_add]
    rfl

theorem Cutting.literal_iff {as bs : List Lexeme} {style : QuoteStyle} {stop : Nat}
    (hls : (Lexeme.scan s).lexemes = as ++ bs) (ht : Lexeme.scan t = ⟨bs, (Lexeme.scan s).stop?⟩) :
    ⟨.literal style, byteSize (textOf as), stop⟩ ∈ (ofScan 0 (Lexeme.scan s)).spans ↔
      ∃ x, TakesLiteral style t x ∧ stop = byteSize (textOf as ++ x) := by
  have hmem := mem_spansFrom_at (n := 0) (m := stop) (k := .literal style)
    (hls ▸ ne_nil_of_mem_scan (s := s))
  simp only [Nat.zero_add] at hmem
  rw [ofScan, hls, hmem]
  constructor
  · rintro ⟨⟨kind, x⟩, ls, hbs, rfl, hstop⟩
    exact ⟨x, scan_literal_iff.1 ⟨ls, by rw [ht, hbs]⟩, hstop⟩
  · rintro ⟨x, hx, hstop⟩
    obtain ⟨ls, hbs⟩ := scan_literal_iff.2 hx
    rw [ht] at hbs
    exact ⟨_, ls, hbs, rfl, hstop⟩

theorem Cutting.failure_iff {as bs : List Lexeme} {cause : Fault}
    (hls : (Lexeme.scan s).lexemes = as ++ bs) (ht : Lexeme.scan t = ⟨bs, (Lexeme.scan s).stop?⟩) :
    (ofScan 0 (Lexeme.scan s)).failure? = some ⟨cause, byteSize (textOf as)⟩ ↔
      Lexeme.scan t = ⟨[], some ⟨cause, t⟩⟩ := by
  have hne := ne_nil_of_mem_scan (s := s)
  have htext := textOf_scan_append_rest t
  rw [ht] at htext
  rw [ofScan, Option.map_eq_some_iff, ht]
  constructor
  · rintro ⟨⟨cause', rest⟩, hstop, he⟩
    obtain ⟨rfl, hsize⟩ := Failure.mk.injEq .. ▸ he
    have hbs : bs = [] := by
      refine eq_nil_of_byteSize (fun l hl => hne l (by simp [hls, hl])) ?_
      simpa [hls] using hsize
    rw [hbs, Scan.rest, hstop] at htext
    rw [hbs, hstop, ← htext]
    rfl
  · intro he
    obtain ⟨rfl, hstop⟩ := Scan.mk.injEq .. ▸ he
    exact ⟨_, hstop, by simp [hls]⟩

end reached

/-- How every text is cut up. No operation fails; the spans lie one behind the other from
the start of the text to the failure or the end, and each ends between two characters; and
wherever they come to, a literal is cut off exactly if one stands there, and cutting stops
exactly if one opens there and has no end. -/
theorem cutUp_partitions (s : Text) : cutUp s = some (.ofScan 0 (Lexeme.scan s)) ∧
    (Cutting.ofScan 0 (Lexeme.scan s)).Partitions s := by
  have hne := ne_nil_of_mem_scan (s := s)
  refine ⟨cutUp_eq s, ?_, fun p hp => ?_, fun pre t hs hreach style stop => ?_,
    fun pre t hs hreach style => ?_⟩
  · rw [Cutting.stop_ofScan]
    exact tiled_spansFrom hne
  · obtain ⟨as, l, bs, hls, rfl⟩ := mem_spansFrom.1 hp
    refine ⟨textOf as, l.text, textOf bs ++ (Lexeme.scan s).rest, ?_, Cutting.reaches_append hls, ?_, ?_⟩
    · conv_lhs => rw [← textOf_scan_append_rest s, hls]
      simp
    · simp
    · simp
  · obtain ⟨as, bs, hls, rfl, ht⟩ := Cutting.reached hreach hs
    exact Cutting.literal_iff hls ht
  · obtain ⟨as, bs, hls, rfl, ht⟩ := Cutting.reached hreach hs
    rw [Cutting.failure_iff hls ht, scan_unterminated_iff]

end Checked

end Offside
