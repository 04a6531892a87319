import Offside.Layout.Tokenize

/-!
# The machine on other lines

What the machine does with a lexeme depends on what stands before it on its
line, and not on the number of that line: places are kept only to be shown in
messages and tokens. `Layout.unplaced` forgets the places that a state keeps.

Results:
* `step_down`: a lexeme some lines lower gives the same tokens as many lines
  lower;
* `reads_down`: the same for all lexemes of a text;
* `reads_append`: reading goes on where it stopped.
-/
namespace Offside

/-- The same column `k` lines lower. -/
def Position.down (k : Nat) (p : Position) : Position := ⟨p.line + k, p.column⟩

/-- The same place on the line `k` lines lower. -/
def Place.down (k : Nat) (p : Place) : Place := ⟨p.line + k, p.behind⟩

/-- The same piece `k` lines lower. -/
def Piece.down (k : Nat) (p : Piece) : Piece := { p with start := p.start.down k }

/-- The same token `k` lines lower. -/
def Token.down (k : Nat) (t : Token) : Token := ⟨t.kind, t.start.down k, t.stop.down k, t.text⟩

section down

variable (k : Nat)

theorem Place.advance_down (p : Place) (t : Text) :
    (p.down k).advance t = (p.advance t).down k := by
  induction t generalizing p with
  | nil => rfl
  | cons c t ih =>
    have hs : (p.down k).step c = (p.step c).down k := by
      by_cases hc : c = '\n'
      · simp [Place.step, Place.down, hc, Nat.add_right_comm]
      · simp [Place.step, Place.down, hc]
    rw [advance_cons, advance_cons, hs, ih]

theorem Piece.placed_down (p : Place) (ls : List Lexeme) :
    placed (p.down k) ls = (placed p ls).map (Piece.down k) := by
  induction ls generalizing p with
  | nil => rfl
  | cons l ls ih => rw [placed, placed, Place.advance_down, ih]; rfl

theorem Piece.token_down (p : Piece) (kind : Token.Kind) :
    (p.down k).token kind = (p.token kind).down k := by
  simp only [token, stop, down, Place.advance_down]
  rfl

@[simp] theorem Token.down_kind (t : Token) : (t.down k).kind = t.kind := rfl

@[simp] theorem Token.down_text (t : Token) : (t.down k).text = t.text := rfl

@[simp] theorem Token.down_start (t : Token) : (t.down k).start = t.start.down k := rfl

@[simp] theorem Position.down_line (p : Position) : (p.down k).line = p.line + k := rfl

@[simp] theorem Piece.down_kind (p : Piece) : (p.down k).kind = p.kind := rfl

end down

theorem Piece.placed_append (p : Place) (ls ms : List Lexeme) :
    placed p (ls ++ ms) = placed p ls ++ placed (p.advance (Lexeme.textOf ls)) ms := by
  induction ls generalizing p with
  | nil => rfl
  | cons l ls ih =>
    have ht : Lexeme.textOf (l :: ls) = l.text ++ Lexeme.textOf ls := rfl
    rw [List.cons_append, placed, ih, placed, ht, Place.advance_append]
    rfl

namespace Layout

/-- The state without the places that it keeps. -/
def unplaced (s : Layout) : Layout :=
  { s with
    brackets := s.brackets.map fun b => ⟨b.opener, ⟨0, 0⟩⟩
    joined? := s.joined?.map fun _ => 0 }

@[simp] theorem unplaced_unplaced (s : Layout) : s.unplaced.unplaced = s.unplaced := by
  simp [unplaced, Function.comp_def]

@[simp] theorem unplaced_start : start.unplaced = start := rfl

@[simp] theorem unplaced_levels (s : Layout) : s.unplaced.levels = s.levels := rfl

@[simp] theorem unplaced_lineHeld (s : Layout) : s.unplaced.lineHeld = s.lineHeld := rfl

@[simp] theorem unplaced_codeSeen (s : Layout) : s.unplaced.codeSeen = s.codeSeen := rfl

@[simp] theorem unplaced_joined_eq_none {s : Layout} :
    s.unplaced.joined? = none ↔ s.joined? = none := by simp [unplaced]

@[simp] theorem unplaced_brackets_eq_nil {s : Layout} :
    s.unplaced.brackets = [] ↔ s.brackets = [] := by simp [unplaced]

theorem unplaced_eq_iff {s s' : Layout} : s.unplaced = s'.unplaced ↔
    s.levels = s'.levels ∧ s.brackets.map (·.opener) = s'.brackets.map (·.opener) ∧
      s.lineHeld = s'.lineHeld ∧ s.codeSeen = s'.codeSeen ∧
        s.joined?.isSome = s'.joined?.isSome := by
  have hb : ∀ {a b : List Bracket},
      a.map (fun b => (⟨b.opener, ⟨0, 0⟩⟩ : Bracket)) = b.map (fun b => ⟨b.opener, ⟨0, 0⟩⟩) ↔
        a.map (·.opener) = b.map (·.opener) := by
    intro a
    induction a with
    | nil => intro b; cases b <;> simp
    | cons x a ih => intro b; cases b <;> simp [ih]
  have hj : ∀ {a b : Option Nat}, a.map (fun _ => 0) = b.map (fun _ => 0) ↔ a.isSome = b.isSome := by
    intro a b
    cases a <;> cases b <;> simp
  simp only [unplaced, mk.injEq, hb, hj]

/-- The move `a` is the move `b` made `k` lines lower. -/
structure Step.Follows (k : Nat) (a b : Step) : Prop where
  emitted : a.emitted = b.emitted.map (Token.down k)
  next : a.next.unplaced = b.next.unplaced
  fault : a.fault?.isSome = b.fault?.isSome

section step

variable {k : Nat} {r : Ruler} {s s' : Layout}

theorem Step.Follows.fault_eq_none {a b : Step} (h : a.Follows k b) :
    a.fault? = none ↔ b.fault? = none := by
  have := h.fault
  cases ha : a.fault? <;> cases hb : b.fault? <;> simp [ha, hb] at this ⊢

theorem Step.Follows.andThen {a b : Step} {f g : Layout → Step} (h : a.Follows k b)
    (hf : ∀ s s' : Layout, s.unplaced = s'.unplaced → (f s).Follows k (g s')) :
    (a.andThen f).Follows k (b.andThen g) := by
  unfold Step.andThen
  cases hb : b.fault? with
  | some e =>
    obtain ⟨e', he⟩ : ∃ e', a.fault? = some e' := Option.isSome_iff_exists.1 (by rw [h.fault, hb]; rfl)
    rw [he]
    exact h
  | none =>
    rw [h.fault_eq_none.2 hb]
    have hn := hf _ _ h.next
    exact ⟨by simp [h.emitted, hn.emitted], hn.next, hn.fault⟩

theorem emit_follows {ts us : List Token} (h : s.unplaced = s'.unplaced)
    (ht : ts = us.map (Token.down k)) : (Step.emit s ts).Follows k (Step.emit s' us) :=
  ⟨ht, h, rfl⟩

theorem fail_follows {e e' : LexError} (h : s.unplaced = s'.unplaced) :
    (Step.fail s e).Follows k (Step.fail s' e') := ⟨rfl, h, rfl⟩

theorem indentTo_follows (p : Place) (h : s.unplaced = s'.unplaced) :
    (indentTo r s (p.down k)).Follows k (indentTo r s' p) := by
  obtain ⟨hl, hb, hh, hc, hj⟩ := unplaced_eq_iff.1 h
  unfold indentTo
  simp only [hl, show (p.down k).behind = p.behind from rfl]
  split
  · split
    · exact emit_follows h rfl
    · exact fail_follows h
  split
  · split
    · exact emit_follows (unplaced_eq_iff.2 ⟨rfl, hb, hh, hc, hj⟩) rfl
    · exact fail_follows h
  · have hd : dedents s'.levels (r.measure p.behind) (p.down k).position =
        (dedents s'.levels (r.measure p.behind) p.position).map (Token.down k) := by
      simp [dedents, Token.mark, Token.down, Place.position, Place.down, Position.down]
    have hn : Layout.unplaced { s with levels := leave s'.levels (r.measure p.behind) } =
        Layout.unplaced { s' with levels := leave s'.levels (r.measure p.behind) } :=
      unplaced_eq_iff.2 ⟨rfl, hb, hh, hc, hj⟩
    split
    · exact ⟨hd, hn, rfl⟩
    split
    · exact ⟨hd, hn, rfl⟩
    · exact emit_follows hn hd

theorem markCode_unplaced (h : s.unplaced = s'.unplaced) :
    s.markCode.unplaced = s'.markCode.unplaced := by
  obtain ⟨hl, hb, -, -, -⟩ := unplaced_eq_iff.1 h
  exact unplaced_eq_iff.2 ⟨hl, hb, rfl, rfl, rfl⟩

theorem beginCode_follows (p : Place) (h : s.unplaced = s'.unplaced) :
    (beginCode r s (p.down k)).Follows k (beginCode r s' p) := by
  have hc := (unplaced_eq_iff.1 h).2.2.2.1
  unfold beginCode
  rw [hc]
  split
  · exact emit_follows (markCode_unplaced h) rfl
  · exact (indentTo_follows p h).andThen fun _ _ h => emit_follows (markCode_unplaced h) rfl

theorem closeBracket_follows (p : Piece) (h : s.unplaced = s'.unplaced) :
    (closeBracket s (p.down k)).Follows k (closeBracket s' p) := by
  obtain ⟨hl, hb, hh, hc, hj⟩ := unplaced_eq_iff.1 h
  have hn : Layout.unplaced { s with brackets := s.brackets.tail } =
      Layout.unplaced { s' with brackets := s'.brackets.tail } := by
    refine unplaced_eq_iff.2 ⟨hl, ?_, hh, hc, hj⟩
    rw [List.map_tail, List.map_tail, hb]
  have hhead := congrArg List.head? hb
  rw [List.head?_map, List.head?_map] at hhead
  unfold closeBracket
  cases ha : s.brackets.head? with
  | none =>
    cases hb' : s'.brackets.head? with
    | none => exact fail_follows hn
    | some b => simp [ha, hb'] at hhead
  | some a =>
    cases hb' : s'.brackets.head? with
    | none => simp [ha, hb'] at hhead
    | some b =>
      have ho : a.opener = b.opener := by simpa [ha, hb'] using hhead
      simp only [ho, show (p.down k).lead = p.lead from rfl]
      split
      · apply emit_follows hn
        rw [Piece.token_down]
        rfl
      · exact fail_follows hn

theorem endLine_follows (p : Piece) (h : s.unplaced = s'.unplaced) :
    (endLine s (p.down k)).Follows k (endLine s' p) := by
  obtain ⟨hl, hb, hh, hc, hj⟩ := unplaced_eq_iff.1 h
  have he : s.brackets.isEmpty = s'.brackets.isEmpty := by
    have := congrArg List.isEmpty hb
    simpa using this
  unfold endLine
  rw [hh, he]
  split
  · rw [hc]
    split
    · exact emit_follows (unplaced_eq_iff.2 ⟨hl, hb, rfl, rfl, hj⟩) rfl
    · exact emit_follows (unplaced_eq_iff.2 ⟨hl, hb, rfl, rfl, hj⟩) rfl
  · cases hs : s.joined? with
    | none =>
      cases hs' : s'.joined? with
      | none => exact emit_follows h rfl
      | some _ => simp [hs, hs'] at hj
    | some _ =>
      cases hs' : s'.joined? with
      | none => simp [hs, hs'] at hj
      | some _ => exact fail_follows h

/-- A lexeme some lines lower gives the same tokens as many lines lower. -/
theorem step_down (p : Piece) (h : s.unplaced = s'.unplaced) :
    (step r s (p.down k)).Follows k (step r s' p) := by
  obtain ⟨hl, hb, hh, hc, hj⟩ := unplaced_eq_iff.1 h
  have htoken : ∀ kind, [(p.down k).token kind] = [p.token kind].map (Token.down k) := by
    intro kind
    rw [Piece.token_down]
    rfl
  unfold step
  rw [Piece.down_kind]
  cases p.kind with
  | space => exact emit_follows h rfl
  | newline => exact endLine_follows p h
  | continuation => exact emit_follows (unplaced_eq_iff.2 ⟨hl, hb, rfl, hc, rfl⟩) rfl
  | comment => exact emit_follows (unplaced_eq_iff.2 ⟨hl, hb, rfl, hc, rfl⟩) (htoken _)
  | opener =>
    refine (beginCode_follows p.start h).andThen fun t t' ht => emit_follows ?_ (htoken _)
    obtain ⟨hl, hb, hh, hc, hj⟩ := unplaced_eq_iff.1 ht
    exact unplaced_eq_iff.2 ⟨hl, by simp [hb, Piece.down], hh, hc, hj⟩
  | closer => exact (beginCode_follows p.start h).andThen fun _ _ => closeBracket_follows p
  | literal style | word | punct =>
    exact (beginCode_follows p.start h).andThen fun _ _ ht => emit_follows ht (htoken _)

end step

/-! ## Runs -/

theorem run_cons_ok {r : Ruler} {s last : Layout} {p : Piece} {ps : List Piece} {ts : List Token} :
    run r s (p :: ps) = .ok (ts, last) ↔
      (step r s p).fault? = none ∧
        ∃ us, run r (step r s p).next ps = .ok (us, last) ∧ ts = (step r s p).emitted ++ us := by
  rw [run]
  cases hf : (step r s p).fault? with
  | some e => simp
  | none =>
    cases hr : run r (step r s p).next ps with
    | error e => simp
    | ok found =>
      obtain ⟨us, m⟩ := found
      constructor
      · intro h; cases h; exact ⟨rfl, us, rfl, rfl⟩
      · intro hex; obtain ⟨-, us', h, rfl⟩ := hex; cases h; rfl

theorem run_append_ok {r : Ruler} {s last : Layout} {ps qs : List Piece} {ts : List Token} :
    run r s (ps ++ qs) = .ok (ts, last) ↔
      ∃ us m vs, run r s ps = .ok (us, m) ∧ run r m qs = .ok (vs, last) ∧ ts = us ++ vs := by
  induction ps generalizing s ts with
  | nil =>
    constructor
    · intro h; exact ⟨[], s, ts, rfl, h, rfl⟩
    · intro hex; obtain ⟨us, m, vs, h, hq, rfl⟩ := hex; cases h; exact hq
  | cons p ps ih =>
    rw [List.cons_append, run_cons_ok]
    constructor
    · intro hex
      obtain ⟨hf, ws, hr, rfl⟩ := hex
      obtain ⟨us, m, vs, hp, hq, rfl⟩ := ih.1 hr
      exact ⟨_, m, vs, run_cons_ok.2 ⟨hf, us, hp, rfl⟩, hq, by simp⟩
    · intro hex
      obtain ⟨us, m, vs, hp, hq, rfl⟩ := hex
      obtain ⟨hf, ws, hr, rfl⟩ := run_cons_ok.1 hp
      exact ⟨hf, ws ++ vs, ih.2 ⟨ws, m, vs, hr, hq, rfl⟩, by simp⟩

/-- A run without the places that its last state keeps. -/
def reads (r : Ruler) (s : Layout) (ps : List Piece) : Option (List Token × Layout) :=
  match run r s ps with
  | .error _ => none
  | .ok (ts, last) => some (ts, last.unplaced)

section reads

variable {k : Nat} {r : Ruler} {s s' last : Layout} {ts : List Token}

theorem reads_eq_some {ps : List Piece} :
    reads r s ps = some (ts, last) ↔ ∃ m, run r s ps = .ok (ts, m) ∧ m.unplaced = last := by
  unfold reads
  cases run r s ps with
  | error e => simp
  | ok found =>
    obtain ⟨us, m⟩ := found
    constructor
    · intro h; cases h; exact ⟨m, rfl, rfl⟩
    · intro hex; obtain ⟨m', h, rfl⟩ := hex; cases h; rfl

theorem reads_nil : reads r s [] = some (ts, last) ↔ ts = [] ∧ last = s.unplaced := by
  rw [reads_eq_some, run]
  constructor
  · intro hex; obtain ⟨m, h, rfl⟩ := hex; cases h; exact ⟨rfl, rfl⟩
  · intro hex; obtain ⟨rfl, rfl⟩ := hex; exact ⟨s, rfl, rfl⟩

theorem reads_cons {p : Piece} {ps : List Piece} :
    reads r s (p :: ps) = some (ts, last) ↔
      (step r s p).fault? = none ∧
        ∃ us, reads r (step r s p).next ps = some (us, last) ∧ ts = (step r s p).emitted ++ us := by
  simp only [reads_eq_some, run_cons_ok]
  constructor
  · intro hex; obtain ⟨m, ⟨hf, us, hr, rfl⟩, rfl⟩ := hex; exact ⟨hf, us, ⟨m, hr, rfl⟩, rfl⟩
  · intro hex; obtain ⟨hf, us, ⟨m, hr, rfl⟩, rfl⟩ := hex; exact ⟨m, ⟨hf, us, hr, rfl⟩, rfl⟩

/-- The same for all lexemes of a text. -/
theorem reads_down {ps : List Piece} (h : s.unplaced = s'.unplaced) :
    reads r s (ps.map (Piece.down k)) = some (ts, last) ↔
      ∃ us, reads r s' ps = some (us, last) ∧ ts = us.map (Token.down k) := by
  induction ps generalizing s s' ts with
  | nil =>
    rw [List.map_nil, reads_nil, h]
    constructor
    · intro hex; obtain ⟨rfl, rfl⟩ := hex; exact ⟨[], reads_nil.2 ⟨rfl, rfl⟩, rfl⟩
    · intro hex
      obtain ⟨us, hr, rfl⟩ := hex
      obtain ⟨rfl, rfl⟩ := reads_nil.1 hr
      exact ⟨rfl, rfl⟩
  | cons p ps ih =>
    have hstep := step_down (k := k) (r := r) p h
    rw [List.map_cons, reads_cons, hstep.fault_eq_none, hstep.emitted]
    constructor
    · intro hex
      obtain ⟨hf, us, hr, rfl⟩ := hex
      obtain ⟨vs, hrest, rfl⟩ := (ih hstep.next).1 hr
      exact ⟨_, reads_cons.2 ⟨hf, vs, hrest, rfl⟩, by simp⟩
    · intro hex
      obtain ⟨us, hr, rfl⟩ := hex
      obtain ⟨hf, vs, hrest, rfl⟩ := reads_cons.1 hr
      exact ⟨hf, _, (ih hstep.next).2 ⟨vs, hrest, rfl⟩, by simp⟩

theorem reads_congr (ps : List Piece) (h : s.unplaced = s'.unplaced) :
    reads r s ps = reads r s' ps := by
  have h0 : ps.map (Piece.down 0) = ps := List.map_id ps
  have ht : ∀ us : List Token, us.map (Token.down 0) = us := fun us => List.map_id us
  refine Option.ext fun ⟨ts, last⟩ => ?_
  rw [← h0, reads_down h, h0]
  simp [ht]

/-- Reading goes on where it stopped. -/
theorem reads_append {ps qs : List Piece} :
    reads r s (ps ++ qs) = some (ts, last) ↔
      ∃ us m vs, reads r s ps = some (us, m) ∧ reads r m qs = some (vs, last) ∧ ts = us ++ vs := by
  constructor
  · intro h
    obtain ⟨last, hrun, rfl⟩ := reads_eq_some.1 h
    obtain ⟨us, m, vs, hp, hq, rfl⟩ := run_append_ok.1 hrun
    refine ⟨us, m.unplaced, vs, reads_eq_some.2 ⟨m, hp, rfl⟩, ?_, rfl⟩
    rw [reads_congr qs (unplaced_unplaced m)]
    exact reads_eq_some.2 ⟨last, hq, rfl⟩
  · intro hex
    obtain ⟨us, m, vs, hp, hq, rfl⟩ := hex
    obtain ⟨m, hrun, rfl⟩ := reads_eq_some.1 hp
    rw [reads_congr qs (unplaced_unplaced m)] at hq
    obtain ⟨last, hrun', rfl⟩ := reads_eq_some.1 hq
    exact reads_eq_some.2 ⟨last, run_append_ok.2 ⟨us, m, vs, hrun, hrun', rfl⟩, rfl⟩

theorem reads_space {p : Place} {w : Text} {c : Char} {ps : List Piece} :
    reads r s (⟨.space, p, w, c⟩ :: ps) = reads r s ps := by
  have hstep : step r s ⟨.space, p, w, c⟩ = .emit s [] := rfl
  refine Option.ext fun ⟨ts, last⟩ => ?_
  rw [reads_cons, hstep]
  simp [Step.emit]

end reads

end Layout

end Offside
