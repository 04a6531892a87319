import Offside.Proofs.Layout.Log
import Offside.Proofs.Lexeme.Evaluate

/-!
# The form of a token stream

A stream is one logical line after another. The machine gives a margin only with
the first code of a logical line, and ends a logical line only behind code; what
is not significant can stand anywhere between. How many levels are open can be
read off the tokens, and the machine has as many levels open.

Results:
* `step_climbs`: a move opens and closes as many levels as its tokens do;
* `step_flow`: a move goes on with the logical line, ends it or begins one;
* `GoesOn.step`: a logical line that holds code is waited for, so that it is not
  left open at the end;
* `tokenize_form`: the form of a stream.
-/
namespace Offside

open Lexeme Text Layout

/-! ## Levels -/

/-- The number of levels that are open behind a token, where `n` are open before
it; none if it closes a level that is not open. -/
def Token.climb (n : Nat) (t : Token) : Option Nat :=
  match t.kind, n with
  | .indent, n => some (n + 1)
  | .dedent, 0 => none
  | .dedent, n + 1 => some n
  | _, n => some n

/-- The number of levels that are open behind tokens. -/
def climb (n : Nat) (ts : List Token) : Option Nat := ts.foldlM Token.climb n

theorem climb_append {n : Nat} {ts us : List Token} :
    climb n (ts ++ us) = (climb n ts).bind fun m => climb m us := List.foldlM_append

theorem climb_append_of {n m : Nat} {ts us : List Token} (h : climb n ts = some m) :
    climb n (ts ++ us) = climb m us := by
  rw [climb_append, h]
  rfl

theorem climb_of_level {ts : List Token} (h : ∀ t ∈ ts, t.kind ≠ .indent ∧ t.kind ≠ .dedent)
    (n : Nat) : climb n ts = some n := by
  induction ts with
  | nil => rfl
  | cons t ts ih =>
    have ht : t.climb n = some n := by
      have := h t (by simp)
      unfold Token.climb
      split <;> simp_all
    rw [climb, List.foldlM_cons, ht]
    exact ih fun u hu => h u (by simp [hu])

theorem climb_dedents {ts : List Token} (h : ∀ t ∈ ts, t.kind = .dedent) (n : Nat) :
    climb (n + ts.length) ts = some n := by
  induction ts with
  | nil => rfl
  | cons t ts ih =>
    have ht : t.climb (n + (ts.length + 1)) = some (n + ts.length) := by
      simp [Token.climb, h t (by simp), ← Nat.add_assoc]
    rw [List.length_cons, climb, List.foldlM_cons, ht]
    exact ih fun u hu => h u (by simp [hu])

/-- How many tokens of a kind there are. -/
def countKind (k : Token.Kind) (ts : List Token) : Nat := (ts.map (·.kind)).count k

theorem countKind_cons (k : Token.Kind) (t : Token) (ts : List Token) :
    countKind k (t :: ts) = countKind k ts + if t.kind = k then 1 else 0 := by
  simp [countKind, List.count_cons]

theorem count_of_climb {n m : Nat} {ts : List Token} (h : climb n ts = some m) :
    n + countKind .indent ts = m + countKind .dedent ts := by
  induction ts generalizing n with
  | nil => cases h; rfl
  | cons t ts ih =>
    rw [climb, List.foldlM_cons, Option.bind_eq_bind, Option.bind_eq_some_iff] at h
    obtain ⟨k, ht, hrest⟩ := h
    have := ih hrest
    rw [countKind_cons, countKind_cons]
    unfold Token.climb at ht
    split at ht
    · next hk => cases ht; simp [hk]; omega
    · cases ht
    · next hk => cases ht; simp [hk]; omega
    · next h1 h2 h3 =>
      cases ht
      have hi : t.kind ≠ .indent := h1
      have hd : t.kind ≠ .dedent := by
        intro hk
        cases k with
        | zero => exact h2 hk rfl
        | succ k => exact h3 k hk rfl
      simp [hi, hd]
      omega

theorem count_le_of_climb {m : Nat} {ts us : List Token} (h : climb 0 ts = some m)
    (hp : us <+: ts) : countKind .dedent us ≤ countKind .indent us := by
  obtain ⟨vs, rfl⟩ := hp
  rw [climb_append, Option.bind_eq_some_iff] at h
  obtain ⟨k, hk, -⟩ := h
  have := count_of_climb hk
  omega

namespace Layout

variable {r : Ruler} {s : Layout} {p : Piece}

/-- The move opens and closes as many levels as its tokens do. -/
def Step.Climbs (s : Layout) (a : Step) : Prop :=
  climb s.levels.length a.emitted = some a.next.levels.length

theorem climbs_of_level {a : Step} (h : ∀ t ∈ a.emitted, t.kind ≠ .indent ∧ t.kind ≠ .dedent)
    (hl : a.next.levels = s.levels) : a.Climbs s := by
  rw [Step.Climbs, hl]
  exact climb_of_level h _

theorem Step.Climbs.andThen {a : Step} {f : Layout → Step} (ha : a.Climbs s)
    (hf : ∀ m, (f m).Climbs m) : (a.andThen f).Climbs s := by
  unfold Step.andThen
  cases a.fault? with
  | some _ => exact ha
  | none => exact (climb_append_of ha).trans (hf a.next)

theorem climb_leave (levels : List Depth) (d : Depth) (q : Position) :
    climb levels.length (dedents levels d q) = some (leave levels d).length := by
  have hlen : levels.length = (leave levels d).length + (dedents levels d q).length := by
    rw [dedents, List.length_map, leave, Nat.add_comm, ← List.length_append,
      List.takeWhile_append_dropWhile]
  rw [hlen]
  refine climb_dedents (fun t ht => ?_) _
  obtain ⟨_, -, rfl⟩ := List.mem_map.1 ht
  rfl

/-- Levels are closed with their tokens even where the line is then refused. -/
theorem indentTo_climbs (q : Place) : (indentTo r s q).Climbs s := by
  obtain ⟨_, -, hi | ⟨-, hi⟩ | hi⟩ := indentTo_forms r s q <;> rw [hi]
  · rfl
  · rfl
  · exact climb_leave ..

theorem beginCode_climbs (q : Place) : (beginCode r s q).Climbs s := by
  unfold beginCode
  split
  · rfl
  · exact (indentTo_climbs q).andThen fun m => rfl

theorem closeBracket_climbs : (closeBracket s p).Climbs s := by
  unfold closeBracket
  dsimp only
  split
  · split
    · exact climbs_of_level (by simp [Step.emit, Piece.token]) rfl
    · rfl
  · rfl

theorem endLine_climbs : (endLine s p).Climbs s := by
  unfold endLine
  split
  · split <;> exact climbs_of_level (by simp [Step.emit, lineEnd]) rfl
  · split
    · rfl
    · exact climbs_of_level (by simp [Step.emit, blankLine]) rfl

/-- A move opens and closes as many levels as its tokens do, whatever comes of it. -/
theorem step_climbs : (step r s p).Climbs s := by
  have hcode : ∀ m : Layout, (Step.emit m [p.token .code]).Climbs m := fun m =>
    climbs_of_level (by simp [Step.emit, Piece.token]) rfl
  unfold step
  cases p.kind with
  | space | continuation => rfl
  | newline => exact endLine_climbs
  | comment => exact climbs_of_level (by simp [Step.emit, Piece.token]) rfl
  | opener => exact (beginCode_climbs p.start).andThen fun m => hcode m
  | closer => exact (beginCode_climbs p.start).andThen fun m => closeBracket_climbs
  | literal style | word | punct => exact (beginCode_climbs p.start).andThen hcode

theorem step_outer (hi : p.kind.isInner = false) : step r s p = endLine s p ∨
    step r s p = .emit { s with lineHeld := false, joined? := some p.start.line } [] := by
  unfold step
  cases hk : p.kind with
  | newline => exact Or.inl rfl
  | continuation => exact Or.inr rfl
  | space | comment | opener | closer | literal | word | punct => simp [hk, Kind.isInner] at hi

end Layout

/-! ## Logical lines -/

/-- The kinds that carry no structure within a text. -/
def Token.Kind.isNoise : Token.Kind → Bool
  | .comment | .lineBreak | .blankLine => true
  | _ => false

/-- Tokens that follow one another in a text: from within a logical line that
holds code, or from before its first code, to within or before one. -/
inductive Flow : Bool → List Token → Bool → Prop
  | nil (b : Bool) : Flow b [] b
  | noise {b c : Bool} {t : Token} {ts : List Token} :
    t.kind.isNoise = true → Flow b ts c → Flow b (t :: ts) c
  | first {c : Bool} {margin : List Token} {t : Token} {ts : List Token} :
    IsMargin margin → t.kind = .code → Flow true ts c → Flow false (margin ++ t :: ts) c
  | code {c : Bool} {t : Token} {ts : List Token} :
    t.kind = .code → Flow true ts c → Flow true (t :: ts) c
  | newline {c : Bool} {t : Token} {ts : List Token} :
    t.kind = .newline → Flow false ts c → Flow true (t :: ts) c

theorem Flow.append {a b c : Bool} {ts us : List Token} (h : Flow a ts b) (hu : Flow b us c) :
    Flow a (ts ++ us) c := by
  induction h with
  | nil => exact hu
  | noise hk _ ih => exact .noise hk (ih hu)
  | first hm hk _ ih => rw [List.append_assoc]; exact .first hm hk (ih hu)
  | code hk _ ih => exact .code hk (ih hu)
  | newline hk _ ih => exact .newline hk (ih hu)

theorem Flow.kind_ne_endMarker {a b : Bool} {ts : List Token} (h : Flow a ts b) :
    ∀ t ∈ ts, t.kind ≠ .endMarker := by
  induction h with
  | nil => simp
  | noise hk _ ih =>
    refine List.forall_mem_cons.2 ⟨fun he => ?_, ih⟩
    rw [he] at hk
    cases hk
  | first hm hk _ ih =>
    intro u hu
    rcases List.mem_append.1 hu with hu | hu
    · rcases hm with ⟨v, rfl, hv⟩ | hm
      · rw [List.mem_singleton.1 hu, hv]; simp
      · rw [hm u hu]; simp
    · exact List.forall_mem_cons.2 ⟨by simp [hk], ih⟩ u hu
  | code hk _ ih | newline hk _ ih => exact List.forall_mem_cons.2 ⟨by simp [hk], ih⟩

/-- A logical line that holds code is waited for: by a bracket, by the end of a
line that holds something, or by a backslash. -/
def GoesOn (s : Layout) : Prop :=
  s.codeSeen = true → s.brackets ≠ [] ∨ s.lineHeld = true ∨ s.joined? ≠ none

namespace Layout

variable {r : Ruler} {s last : Layout} {p : Piece}

theorem GoesOn.unplaced (h : GoesOn s) : GoesOn s.unplaced := by
  intro hc
  rw [ne_eq, unplaced_brackets_eq_nil, ne_eq, unplaced_joined_eq_none]
  exact h hc

theorem GoesOn.step (h : GoesOn s) (hf : (step r s p).fault? = none) :
    GoesOn (step r s p).next := by
  cases hi : p.kind.isInner with
  | true =>
    rcases step_inner hi hf with ⟨-, -, hn⟩ | ⟨-, -, hn⟩ | ⟨-, _, _, _, -, -, -, hn⟩ <;> rw [hn]
    · exact h
    · exact fun _ => Or.inr (Or.inl rfl)
    · exact fun _ => Or.inr (Or.inl rfl)
  | false =>
    rcases step_outer (r := r) (s := s) hi with hs | hs <;> rw [hs] at hf ⊢
    · rcases endLine_spec rfl hf with ⟨-, -, -, -, hn⟩ | ⟨-, hb, -, hn⟩ | ⟨-, -, -, hn⟩ <;> rw [hn]
      · exact nofun
      · intro hc
        rcases hb with hb | hb
        · exact Or.inl hb
        · rw [hb] at hc; cases hc
      · exact h
    · exact fun _ => Or.inr (Or.inr (by simp [Step.emit]))

/-- A move goes on with the logical line, ends it or begins one. -/
theorem step_flow (hf : (step r s p).fault? = none) :
    Flow s.codeSeen (step r s p).emitted (step r s p).next.codeSeen := by
  cases hi : p.kind.isInner with
  | true =>
    rcases step_inner hi hf with ⟨-, he, hn⟩ | ⟨-, he, hn⟩ | ⟨-, margin, _, _, he, hm, hc, hn⟩ <;>
      rw [he, hn]
    · exact .nil _
    · exact .noise rfl (.nil _)
    · cases hs : s.codeSeen with
      | true => rw [hc hs]; exact .code rfl (.nil _)
      | false => exact .first hm rfl (.nil _)
  | false =>
    rcases step_outer (r := r) (s := s) hi with hs | hs <;> rw [hs] at hf ⊢
    · rcases endLine_spec rfl hf with ⟨-, -, hc, he, hn⟩ | ⟨-, -, he, hn⟩ | ⟨-, -, he, hn⟩ <;>
        rw [he, hn]
      · rw [hc]; exact .newline rfl (.nil _)
      · exact .noise rfl (.nil _)
      · exact .noise rfl (.nil _)
    · exact .nil _

theorem reads_form {ps : List Piece} {ts : List Token} (h : reads r s ps = some (ts, last)) :
    Flow s.codeSeen ts last.codeSeen ∧ climb s.levels.length ts = some last.levels.length ∧
      (GoesOn s → GoesOn last) := by
  induction ps generalizing s ts with
  | nil =>
    obtain ⟨rfl, rfl⟩ := reads_nil.1 h
    exact ⟨.nil _, rfl, fun h => GoesOn.unplaced h⟩
  | cons p ps ih =>
    obtain ⟨hf, us, hr, rfl⟩ := reads_cons.1 h
    obtain ⟨h1, h2, h3⟩ := ih hr
    exact ⟨(step_flow hf).append h1, (climb_append_of step_climbs).trans h2,
      fun hs => h3 (GoesOn.step hs hf)⟩

theorem closeLine_flow (h : GoesOn s) (hrest : AtRest s) (q : Place) :
    Flow s.codeSeen (closeLine s q) false := by
  unfold closeLine
  cases hh : s.lineHeld with
  | true =>
    cases hc : s.codeSeen with
    | true => exact .newline rfl (.nil _)
    | false => exact .noise rfl (.nil _)
  | false =>
    have hc : s.codeSeen = false := by
      by_contra hc
      rcases h (by simpa using hc) with hb | hl | hj
      · exact hb hrest.brackets
      · rw [hh] at hl; cases hl
      · exact hj hrest.joined
    rw [hc, if_neg (by simp)]
    split
    · exact .nil _
    · exact .noise rfl (.nil _)

theorem closeLine_endsLine (s : Layout) (q : Place) :
    ∀ t ∈ closeLine s q, t.kind.endsLine = true := by
  unfold closeLine
  cases s.lineHeld <;> cases s.codeSeen <;> cases q.behind.isEmpty <;>
    simp [Token.mark, blankLine, Token.Kind.endsLine]

theorem closeLine_level (s : Layout) (q : Place) :
    ∀ t ∈ closeLine s q, t.kind ≠ .indent ∧ t.kind ≠ .dedent := by
  intro t ht
  have hend := closeLine_endsLine s q t ht
  constructor <;> intro hk <;> rw [hk] at hend <;> cases hend

end Layout

theorem Reads.goesOn {r : Ruler} {s last : Layout} {es : List Entry} (h : Reads r s es last)
    (hs : GoesOn s) : GoesOn last := by
  induction h with
  | nil => exact hs
  | cons hr _ ih => exact ih ((reads_form hr).2.2 hs)

theorem exists_flow {r : Ruler} {s : Text} {ts : List Token} (h : tokenizeWith r s = .ok ts) :
    ∃ (us : List Token) (last : Layout) (p : Position), Flow false us false ∧
      climb 0 us = some last.levels.length ∧ ts = us ++ closing last p := by
  obtain ⟨us, m, hr, hrest, rfl⟩ := (tokenizeWith_eq_ok (stop_of_tokenizeWith h)).1 h
  obtain ⟨hflow, hclimb, hgoes⟩ := reads_form hr
  have hm : GoesOn m := hgoes nofun
  exact ⟨_, m, _, hflow.append (closeLine_flow hm hrest _),
    (climb_append_of hclimb).trans (climb_of_level (closeLine_level m _) _), rfl⟩

/-! ## The form of a stream -/

/-- Logical lines, each of one margin, code and a newline, and behind the last of
them the closing of levels. -/
inductive Lined : List Token.Kind → Prop
  | closing (n : Nat) : Lined (List.replicate n .dedent)
  | deeper {n : Nat} {rest : List Token.Kind} :
    0 < n → Lined rest → Lined (.indent :: (List.replicate n .code ++ .newline :: rest))
  | level {d n : Nat} {rest : List Token.Kind} :
    0 < n → Lined rest →
      Lined (List.replicate d .dedent ++ (List.replicate n .code ++ .newline :: rest))

/-- The kinds of the significant tokens. -/
def significantKinds (ts : List Token) : List Token.Kind := (Token.significant ts).map (·.kind)

theorem significantKinds_append (ts us : List Token) :
    significantKinds (ts ++ us) = significantKinds ts ++ significantKinds us := by
  simp [significantKinds, Token.significant]

theorem significantKinds_cons (t : Token) (ts : List Token) : significantKinds (t :: ts) =
    (if t.kind.isSignificant = true then [t.kind] else []) ++ significantKinds ts := by
  unfold significantKinds Token.significant
  rw [List.filter_cons]
  split <;> simp

theorem significantKinds_dedents {ts : List Token} (h : ∀ t ∈ ts, t.kind = .dedent) :
    significantKinds ts = List.replicate ts.length .dedent := by
  induction ts with
  | nil => rfl
  | cons t ts ih =>
    rw [significantKinds_cons, h t (by simp), ih fun u hu => h u (by simp [hu])]
    rfl

theorem Lined.of_margin {margin : List Token} {n : Nat} {rest : List Token.Kind}
    (hm : IsMargin margin) (hn : 0 < n) (h : Lined rest) :
    Lined (significantKinds margin ++ (List.replicate n .code ++ .newline :: rest)) := by
  rcases hm with ⟨t, rfl, ht⟩ | hm
  · rw [significantKinds_cons, ht]
    exact .deeper hn h
  · rw [significantKinds_dedents hm]
    exact .level hn h

theorem Flow.lined {b c : Bool} {ts : List Token} (h : Flow b ts c) (hc : c = false) (d : Nat) :
    (b = false → Lined (significantKinds ts ++ List.replicate d .dedent)) ∧
    (b = true → ∃ n rest, significantKinds ts ++ List.replicate d .dedent =
      List.replicate n .code ++ .newline :: rest ∧ Lined rest) := by
  induction h with
  | nil b =>
    subst hc
    exact ⟨fun _ => .closing d, nofun⟩
  | @noise b c t ts hk _ ih =>
    have ht : significantKinds (t :: ts) = significantKinds ts := by
      rw [significantKinds_cons]
      cases h : t.kind <;> simp [h, Token.Kind.isNoise] at hk <;> rfl
    rw [ht]
    exact ih hc
  | @first c margin t ts hm hk _ ih =>
    refine ⟨fun _ => ?_, nofun⟩
    obtain ⟨n, rest, hrest, hlined⟩ := (ih hc).2 rfl
    rw [significantKinds_append, significantKinds_cons, hk, List.append_assoc, List.append_assoc,
      hrest]
    exact Lined.of_margin hm (Nat.succ_pos n) hlined
  | @code c t ts hk _ ih =>
    refine ⟨nofun, fun _ => ?_⟩
    obtain ⟨n, rest, hrest, hlined⟩ := (ih hc).2 rfl
    refine ⟨n + 1, rest, ?_, hlined⟩
    rw [significantKinds_cons, hk, List.append_assoc, hrest]
    rfl
  | @newline c t ts hk _ ih =>
    refine ⟨nofun, fun _ => ⟨0, _, ?_, (ih hc).1 rfl⟩⟩
    rw [significantKinds_cons, hk]
    rfl

theorem closing_dedents (levels : List Depth) (p : Position) :
    ∀ t ∈ levels.map fun _ => Token.mark .dedent p, t.kind = .dedent := by
  intro t ht
  obtain ⟨_, -, rfl⟩ := List.mem_map.1 ht
  rfl

theorem Flow.lined_closing {ts : List Token} (h : Flow false ts false) (last : Layout)
    (p : Position) : Lined (significantKinds (ts ++ closing last p)) := by
  have hmark : significantKinds [Token.mark .endMarker p] = [] := rfl
  rw [significantKinds_append, closing, significantKinds_append, hmark,
    significantKinds_dedents (closing_dedents last.levels p), List.append_nil]
  exact (h.lined rfl _).1 rfl

/-- The significant tokens of a text are logical lines, each of one margin, code and
a newline, and behind them the closing of levels. No level is closed that is not
open, and none is left open. The end of the text is marked once, at the end. -/
theorem tokenize_form {s : Text} {ts : List Token} (h : tokenize s = .ok ts) :
    Lined (significantKinds ts) ∧
      (∀ us, us <+: ts → countKind .dedent us ≤ countKind .indent us) ∧
      countKind .dedent ts = countKind .indent ts ∧
      ∃ body e, ts = body ++ [e] ∧ e.kind = .endMarker ∧ ∀ t ∈ body, t.kind ≠ .endMarker := by
  obtain ⟨us, last, p, hflow, hclimb, rfl⟩ := exists_flow h
  have hbalance : climb 0 (us ++ closing last p) = some 0 := by
    have hclose := climb_dedents (closing_dedents last.levels p) 0
    rw [Nat.zero_add, List.length_map] at hclose
    rw [climb_append_of hclimb, closing, climb_append_of hclose]
    rfl
  refine ⟨hflow.lined_closing last p, fun vs hvs => count_le_of_climb hbalance hvs, ?_, ?_⟩
  · have := count_of_climb hbalance
    omega
  · refine ⟨us ++ last.levels.map (fun _ => .mark .dedent p), .mark .endMarker p, ?_, rfl, ?_⟩
    · rw [closing, List.append_assoc]
    · intro t ht
      rcases List.mem_append.1 ht with ht | ht
      · exact hflow.kind_ne_endMarker t ht
      · rw [closing_dedents _ _ t ht]
        simp

/-- Blocks one in the other, a bracket over two lines, and no newline at the end. -/
theorem tokenize_form_blocks :
    ∃ ts, tokenize "if a:\n  if b:\n\n    (c\n)\nd".toList = .ok ts ∧
      significantKinds ts = [.code, .code, .code, .newline, .indent, .code, .code, .code, .newline,
        .indent, .code, .code, .code, .newline, .dedent, .dedent, .code, .newline] ∧
      Lined (significantKinds ts) ∧
      (∀ us, us <+: ts → countKind .dedent us ≤ countKind .indent us) ∧
      countKind .dedent ts = countKind .indent ts ∧
      ∃ body e, ts = body ++ [e] ∧ e.kind = .endMarker ∧ ∀ t ∈ body, t.kind ≠ .endMarker := by
  have h : (tokenize "if a:\n  if b:\n\n    (c\n)\nd".toList).map significantKinds =
      .ok [.code, .code, .code, .newline, .indent, .code, .code, .code, .newline,
        .indent, .code, .code, .code, .newline, .dedent, .dedent, .code, .newline] := by
    simp only [tokenize, tokenizeWith, scan_eq_scanIn]
    decide +kernel
  cases hts : tokenize "if a:\n  if b:\n\n    (c\n)\nd".toList with
  | error e => rw [hts] at h; cases h
  | ok ts =>
    rw [hts] at h
    exact ⟨ts, rfl, Except.ok.inj h, tokenize_form hts⟩

end Offside
