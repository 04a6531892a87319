import Offside.Layout.Tokenize
import Offside.Proofs.Bytes.Literal
import Offside.Proofs.Bytes.Position
import Offside.Proofs.Text.Ending

/-!
# The layout machine at byte offsets

The layout machine as it works on a text and byte offsets of it: each lexeme comes with
the offsets between which it stands, and whatever the machine wants of the text it cuts
out there. Lexemes come one behind the other, so that every offset falls between two
characters and every column reaches back to the start of a line.

Results:
* `step_eq`: a move on a lexeme of a text;
* `finish_eq`: the end of a text;
* `read_eq`: all moves on what is left of a text;
* `tokenize_eq`: the tokens of every text.
-/
namespace Offside

namespace Checked

open Text

/-- A text with the offsets at which its lines start. -/
structure Source where
  text : Text
  starts : List Nat
  deriving DecidableEq, Repr

namespace Source

def of (t : Text) : Source := ⟨t, lineStarts t⟩

/-- The position of a byte offset. -/
def position (s : Source) (offset : Nat) : Option Position := Checked.position s.starts offset

/-- The character at a byte offset, or NUL at the end. -/
def charAt (s : Source) (offset : Nat) : Option Char := (behind offset s.text).map Piece.leadOf

/-- What stands on its line before a byte offset, the position of which is known. -/
def margin (s : Source) (offset : Nat) (p : Position) : Option Text := do
  let start ← sub offset p.column
  slice start offset s.text

/-- The token between two byte offsets. -/
def token (s : Source) (kind : Token.Kind) (start stop : Nat) : Option Token := do
  let first ← s.position start
  let last ← s.position stop
  let text ← slice start stop s.text
  return ⟨kind, first, last, text⟩

/-- A lexical failure at a byte offset. -/
def error (s : Source) (cause : Lexeme.Fault) (offset : Nat) : Option LexError := do
  let p ← s.position offset
  match cause with
  | .unterminated .single => return .unterminatedString p
  | .unterminated .triple => return .unterminatedTripleString p
  | .unexpectedCharacter => do
    let found ← s.charAt offset
    return .unexpectedCharacter p found

end Source

section

variable (src : Source) (s : Layout)

/-- One move after another; the second is not made if the first fails. -/
def andThen (a : Layout.Step) (f : Layout → Option Layout.Step) : Option Layout.Step :=
  match a.fault? with
  | some _ => some a
  | none => do
    let b ← f a.next
    return ⟨a.emitted ++ b.emitted, b.next, b.fault?⟩

/-- Brings the levels in line with the depth of a logical line whose first code stands at
a byte offset. -/
def indentTo (offset : Nat) : Option Layout.Step := do
  let p ← src.position offset
  let margin ← src.margin offset p
  return Layout.indentTo .standard s ⟨p.line, margin.reverse⟩

/-- Code begins at a byte offset. -/
def beginCode (offset : Nat) : Option Layout.Step :=
  if s.codeSeen then return .emit s.markCode []
  else do
    let a ← indentTo src s offset
    andThen a fun s => return .emit s.markCode []

/-- Closes the innermost bracket, which must be of the same shape. -/
def closeBracket (offset : Nat) : Option Layout.Step := do
  let found ← src.charAt offset
  let left := { s with brackets := s.brackets.tail }
  if s.brackets.head?.any fun b => Lexeme.closerOf b.opener = found then return .emit left []
  else do
    let p ← src.position offset
    return .fail left (.unmatchedBracket p found)

/-- A newline between two byte offsets ends the current line. -/
def endLine (start stop : Nat) : Option Layout.Step := do
  let first ← src.position start
  let last : Position := ⟨first.line, first.column + (stop - start)⟩
  match s.joined?.filter fun _ => !s.lineHeld with
  | some line => return .fail s (.unfinished line)
  | none =>
    let ended := { s with lineHeld := false }
    if !s.lineHeld then do
      let text ← src.margin start first
      return .emit ended [⟨.blankLine, ⟨first.line, 0⟩, first, text⟩]
    else do
      let text ← slice start stop src.text
      if s.brackets.isEmpty && s.codeSeen then
        return .emit { ended with codeSeen := false } [⟨.newline, first, last, text⟩]
      else return .emit ended [⟨.lineBreak, first, last, text⟩]

/-- The machine's move on one lexeme between two byte offsets. -/
def step (kind : Lexeme.Kind) (start stop : Nat) : Option Layout.Step :=
  match kind with
  | .space => return .emit s []
  | .newline => endLine src s start stop
  | .continuation => do
    let p ← src.position start
    return .emit { s with lineHeld := false, joined? := some p.line } []
  | .comment => do
    let t ← src.token .comment start stop
    return .emit { s with lineHeld := true, joined? := none } [t]
  | .opener => do
    let a ← beginCode src s start
    andThen a fun s => do
      let opener ← src.charAt start
      let p ← src.position start
      let t ← src.token .code start stop
      return .emit { s with brackets := ⟨opener, p⟩ :: s.brackets } [t]
  | .closer => do
    let a ← beginCode src s start
    andThen a fun s => do
      let b ← closeBracket src s start
      andThen b fun s => do
        let t ← src.token .code start stop
        return .emit s [t]
  | .literal _ | .word | .punct => do
    let a ← beginCode src s start
    andThen a fun s => do
      let t ← src.token .code start stop
      return .emit s [t]

/-- What closes the last line of a text. -/
def closeLine (stop : Position) : Option (List Token) :=
  if s.lineHeld then return [.mark (if s.codeSeen then .newline else .lineBreak) stop]
  else if 0 < stop.column then do
    let start ← sub src.text.byteSize stop.column
    let text ← behind start src.text
    return [⟨.blankLine, ⟨stop.line, 0⟩, stop, text⟩]
  else return []

/-- The end of a text: closes the last line and every level. -/
def finish : Option (Except LexError (List Token)) :=
  match s.brackets.getLast?, s.joined? with
  | some outermost, _ => return .error (.unfinished outermost.place.line)
  | none, some line => return .error (.unfinished line)
  | none, none => do
    let stop ← src.position src.text.byteSize
    let last ← closeLine src s stop
    let past : Position := ⟨src.text.lines.length + 1, 0⟩
    return .ok (last ++ s.levels.map (fun _ => .mark .dedent past) ++ [.mark .endMarker past])

/-- All moves on the text `t` that is left from a byte offset on. -/
def read (s : Layout) (offset : Nat) (t : Text) : Option (Except LexError (List Token)) :=
  match t with
  | [] => finish src s
  | c :: rest =>
    match _h : front c rest with
    | none => none
    | some (.fault cause) => do
      let e ← src.error cause offset
      return .error e
    | some (.lexeme l after) => do
      let stop := offset + l.text.byteSize
      let a ← step src s l.kind offset stop
      match a.fault? with
      | some e => return .error e
      | none => do
        match ← read a.next stop after with
        | .error e => return .error e
        | .ok ts => return .ok (a.emitted ++ ts)
termination_by t.length
decreasing_by
  rw [front_eq] at _h
  exact Lexeme.front_length_lt (Option.some.inj _h)

end

/-- The token stream of a text. -/
def tokenize (t : Text) : Option (Except LexError (List Token)) := read (.of t) .start 0 t

/-! ## What is cut out of a text -/

theorem exists_margin (t : Text) : ∃ before, t = before ++ (Place.start.advance t).margin := by
  induction t using List.reverseRecOn with
  | nil => exact ⟨[], rfl⟩
  | append_singleton t c ih =>
    obtain ⟨before, ht⟩ := ih
    rw [Place.advance_append, Place.advance_cons, Place.advance_nil, Place.step]
    split
    · exact ⟨t ++ [c], (List.append_nil _).symm⟩
    · refine ⟨before, ?_⟩
      rw [Place.margin, List.reverse_cons, ← List.append_assoc]
      exact congrArg (· ++ [c]) ht

/-! ## Moves -/

theorem andThen_eq {f : Layout → Option Layout.Step} {g : Layout → Layout.Step}
    (h : ∀ s, f s = some (g s)) (a : Layout.Step) : andThen a f = some (a.andThen g) := by
  rw [andThen, Layout.Step.andThen]
  cases a.fault? with
  | some e => rfl
  | none => rw [h]; rfl

section

variable (pre x post : Text)

theorem position_start : (Source.of (pre ++ x ++ post)).position (byteSize pre) =
    some (Place.start.advance pre).position := by
  rw [Source.position, Source.of, List.append_assoc]
  exact position_eq pre (x ++ post)

theorem position_stop : (Source.of (pre ++ x ++ post)).position (byteSize pre + byteSize x) =
    some ((Place.start.advance pre).advance x).position := by
  rw [Source.position, Source.of, ← byteSize_append, ← Place.advance_append]
  exact position_eq (pre ++ x) post

theorem charAt_start (hx : x ≠ []) : (Source.of (pre ++ x ++ post)).charAt (byteSize pre) =
    some (Piece.leadOf x) := by
  rw [Source.charAt, Source.of, List.append_assoc, behind_byteSize_append]
  cases x with
  | nil => exact absurd rfl hx
  | cons c x => rfl

theorem slice_piece :
    slice (byteSize pre) (byteSize pre + byteSize x) (Source.of (pre ++ x ++ post)).text = some x :=
  slice_append pre x post

theorem margin_start : (Source.of (pre ++ x ++ post)).margin (byteSize pre)
    (Place.start.advance pre).position = some (Place.start.advance pre).margin := by
  obtain ⟨before, hpre⟩ := exists_margin pre
  have hcolumn : (Place.start.advance pre).position.column = byteSize (Place.start.advance pre).margin :=
    (byteSize_reverse _).symm
  have hsize : byteSize pre = byteSize before + byteSize (Place.start.advance pre).margin := by
    conv_lhs => rw [hpre, byteSize_append]
  have hslice := slice_append before (Place.start.advance pre).margin (x ++ post)
  rw [← hsize, ← hpre, ← List.append_assoc] at hslice
  rw [Source.margin, hcolumn, sub_of_le (by omega), hsize, Nat.add_sub_cancel, ← hsize]
  exact hslice

theorem token_piece (kind : Token.Kind) (k : Lexeme.Kind) (lead : Char) :
    (Source.of (pre ++ x ++ post)).token kind (byteSize pre) (byteSize pre + byteSize x) =
      some (Piece.token ⟨k, Place.start.advance pre, x, lead⟩ kind) := by
  rw [Source.token, position_start, position_stop, slice_piece]
  rfl

theorem indentTo_eq (s : Layout) : indentTo (Source.of (pre ++ x ++ post)) s (byteSize pre) =
    some (Layout.indentTo .standard s (Place.start.advance pre)) := by
  simp only [indentTo, position_start, margin_start, Option.bind_eq_bind, Option.bind_some,
    Place.margin, List.reverse_reverse]
  rfl

theorem beginCode_eq (s : Layout) : beginCode (Source.of (pre ++ x ++ post)) s (byteSize pre) =
    some (Layout.beginCode .standard s (Place.start.advance pre)) := by
  rw [beginCode, Layout.beginCode, indentTo_eq]
  split
  · rfl
  · rw [Option.bind_eq_bind, Option.bind_some]
    exact andThen_eq (fun s => rfl) _

theorem closeBracket_eq (hx : x ≠ []) (k : Lexeme.Kind) (s : Layout) :
    (closeBracket (Source.of (pre ++ x ++ post)) s (byteSize pre)).bind (fun b => andThen b fun s => do
      let t ← (Source.of (pre ++ x ++ post)).token .code (byteSize pre) (byteSize pre + byteSize x)
      return .emit s [t]) =
      some (Layout.closeBracket s ⟨k, Place.start.advance pre, x, Piece.leadOf x⟩) := by
  simp only [closeBracket, charAt_start pre x post hx, position_start, token_piece pre x post _ k
    (Piece.leadOf x), Option.bind_eq_bind, Option.bind_some, Layout.closeBracket]
  cases s.brackets.head? with
  | none => rfl
  | some b =>
    by_cases hb : Lexeme.closerOf b.opener = Piece.leadOf x
    · simp only [Option.any_some, hb, decide_true, if_true]
      rfl
    · simp only [Option.any_some, hb, decide_false, if_false]
      rfl

theorem endLine_eq (k : Lexeme.Kind) (lead : Char) (s : Layout) :
    endLine (Source.of (pre ++ x ++ post)) s (byteSize pre) (byteSize pre + byteSize x) =
      some (Layout.endLine s ⟨k, Place.start.advance pre, x, lead⟩) := by
  simp only [endLine, position_start, margin_start, slice_piece, Option.bind_eq_bind,
    Option.bind_some, Layout.endLine, Nat.add_sub_cancel_left]
  obtain ⟨levels, brackets, lineHeld, codeSeen, joined?⟩ := s
  cases lineHeld with
  | true =>
    have hnone : joined?.filter (fun _ => !true) = none := by cases joined? <;> rfl
    rw [hnone]
    cases brackets.isEmpty && codeSeen <;> rfl
  | false => cases joined? <;> rfl

/-- A move on a lexeme of a text. -/
theorem step_eq (hx : x ≠ []) (k : Lexeme.Kind) (s : Layout) :
    step (Source.of (pre ++ x ++ post)) s k (byteSize pre) (byteSize pre + byteSize x) =
      some (Layout.step .standard s ⟨k, Place.start.advance pre, x, Piece.leadOf x⟩) := by
  have htoken := fun kind => token_piece pre x post kind k (Piece.leadOf x)
  have hcode : ∀ s, (do
      let t ← (Source.of (pre ++ x ++ post)).token .code (byteSize pre) (byteSize pre + byteSize x)
      return Layout.Step.emit s [t]) = some (Layout.Step.emit s
        [Piece.token ⟨k, Place.start.advance pre, x, Piece.leadOf x⟩ .code]) := fun s => by
    rw [htoken]
    rfl
  cases k <;> rw [step, Layout.step]
  case newline => exact endLine_eq pre x post _ _ s
  case space => rfl
  case comment => rw [htoken]; rfl
  case continuation => rw [position_start]; rfl
  case opener =>
    rw [beginCode_eq, Option.bind_eq_bind, Option.bind_some]
    refine andThen_eq (fun s => ?_) _
    rw [charAt_start pre x post hx, position_start, htoken]
    rfl
  case closer =>
    rw [beginCode_eq, Option.bind_eq_bind, Option.bind_some]
    exact andThen_eq (fun s => closeBracket_eq pre x post hx _ s) _
  case literal | word | punct =>
    rw [beginCode_eq, Option.bind_eq_bind, Option.bind_some]
    exact andThen_eq hcode _

end

/-! ## Whole texts -/

theorem error_eq (cause : Lexeme.Fault) (pre : Text) {rest : Text} (hrest : rest ≠ []) :
    (Source.of (pre ++ rest)).error cause (byteSize pre) =
      some (cause.error (Place.start.advance pre).position rest) := by
  have hposition := position_start pre rest []
  have hchar := charAt_start pre rest [] hrest
  rw [List.append_nil] at hposition hchar
  simp only [Source.error, hposition, hchar, Option.bind_eq_bind, Option.bind_some]
  rcases cause with _ | (_ | _) <;> rfl

theorem closeLine_eq (t : Text) (s : Layout) :
    closeLine (Source.of t) s (Place.start.advance t).position =
      some (Layout.closeLine s (Place.start.advance t)) := by
  obtain ⟨before, ht⟩ := exists_margin t
  generalize Place.start.advance t = p at ht ⊢
  have hcolumn : p.position.column = byteSize p.margin := (byteSize_reverse _).symm
  rw [closeLine, Layout.closeLine, hcolumn]
  split
  · rfl
  · by_cases hp : p.behind = []
    · simp [hp, Place.margin]
    · have hpos : 0 < byteSize p.margin := Nat.pos_of_ne_zero fun hz =>
        hp (List.reverse_eq_nil_iff.1 (byteSize_eq_zero.1 hz))
      have hsub : sub (Source.of t).text.byteSize (byteSize p.margin) = some (byteSize before) := by
        rw [Source.of, ht, byteSize_append, sub_of_le (Nat.le_add_left _ _), Nat.add_sub_cancel]
      have hbehind : behind (byteSize before) (Source.of t).text = some p.margin := by
        rw [Source.of, ht, behind_byteSize_append]
      rw [if_pos hpos, if_neg (by simpa using hp), hsub, Option.bind_eq_bind, Option.bind_some, hbehind]
      rfl

/-- The end of a text. -/
theorem finish_eq (t : Text) (s : Layout) :
    finish (Source.of t) s = some (s.finish (Place.start.advance t)) := by
  have hposition : (Source.of t).position (Source.of t).text.byteSize =
      some (Place.start.advance t).position := by
    have h := position_start t [] []
    rwa [List.append_nil, List.append_nil] at h
  have hpast : (⟨(Source.of t).text.lines.length + 1, 0⟩ : Position) = (Place.start.advance t).pastEnd := by
    rw [pastEnd_advance, Nat.add_comm]
    rfl
  rw [finish, Layout.finish, hposition, hpast]
  cases s.brackets.getLast? with
  | some b => rfl
  | none =>
    cases s.joined? with
    | some line => rfl
    | none =>
      simp only [Option.bind_eq_bind, Option.bind_some, closeLine_eq]
      rfl

theorem read_of_lexeme {c : Char} {rest after : Text} {l : Lexeme} (src : Source) (s : Layout)
    (offset : Nat) (h : Lexeme.front c rest = .lexeme l after) :
    read src s offset (c :: rest) = do
      let a ← step src s l.kind offset (offset + l.text.byteSize)
      match a.fault? with
      | some e => return .error e
      | none => do
        match ← read src a.next (offset + l.text.byteSize) after with
        | .error e => return .error e
        | .ok ts => return .ok (a.emitted ++ ts) := by
  have hfront : front c rest = some (.lexeme l after) := by rw [front_eq, h]
  rw [read]
  split
  · next h' => rw [hfront] at h'; cases h'
  · next h' => rw [hfront] at h'; cases h'
  · next h' => rw [hfront] at h'; cases h'; rfl

theorem read_of_fault {c : Char} {rest : Text} {cause : Lexeme.Fault} (src : Source) (s : Layout)
    (offset : Nat) (h : Lexeme.front c rest = .fault cause) :
    read src s offset (c :: rest) = (src.error cause offset).map .error := by
  have hfront : front c rest = some (.fault cause) := by rw [front_eq, h]
  rw [read]
  split
  · next h' => rw [hfront] at h'; cases h'
  · next h' => rw [hfront] at h'; cases h'; exact Option.map_eq_bind.symm
  · next h' => rw [hfront] at h'; cases h'

/-- What the machine makes of a text that was cut up, the first lexeme being at `p` and
the end of the text at `stop`. -/
def outcome (s : Layout) (p stop : Place) (cut : Lexeme.Scan) : Except LexError (List Token) :=
  match s.run .standard (Piece.placed p cut.lexemes) with
  | .error e => .error e
  | .ok (ts, last) =>
    match cut.stop? with
    | some found => .error (found.cause.error (p.advance (Lexeme.textOf cut.lexemes)).position found.rest)
    | none =>
      match last.finish stop with
      | .error e => .error e
      | .ok closing => .ok (ts ++ closing)

theorem outcome_nil (s : Layout) (p stop : Place) : outcome s p stop ⟨[], none⟩ = s.finish stop := by
  simp only [outcome, Piece.placed, Layout.run]
  cases s.finish stop <;> rfl

theorem outcome_cons (s : Layout) (p stop : Place) (l : Lexeme) (cut : Lexeme.Scan) :
    outcome s p stop ⟨l :: cut.lexemes, cut.stop?⟩ =
      let a := s.step .standard ⟨l.kind, p, l.text, Piece.leadOf l.text⟩
      match a.fault? with
      | some e => .error e
      | none =>
        match outcome a.next (p.advance l.text) stop cut with
        | .error e => .error e
        | .ok ts => .ok (a.emitted ++ ts) := by
  have htext : Lexeme.textOf (l :: cut.lexemes) = l.text ++ Lexeme.textOf cut.lexemes := rfl
  simp only [outcome, Piece.placed, Layout.run, htext, Place.advance_append]
  generalize s.step .standard ⟨l.kind, p, l.text, Piece.leadOf l.text⟩ = a
  cases a.fault? with
  | some e => rfl
  | none =>
    cases a.next.run .standard (Piece.placed (p.advance l.text) cut.lexemes) with
    | error e => rfl
    | ok result =>
      obtain ⟨ts, last⟩ := result
      cases cut.stop? with
      | some found => rfl
      | none =>
        dsimp only
        cases last.finish stop with
        | error e => rfl
        | ok closing => exact congrArg _ (List.append_assoc _ _ _)

/-- All moves on what is left of a text. -/
theorem read_eq (pre t : Text) (s : Layout) :
    read (Source.of (pre ++ t)) s (byteSize pre) t =
      some (outcome s (Place.start.advance pre) (Place.start.advance (pre ++ t)) (Lexeme.scan t)) := by
  -- `pre` grows by the lexeme that was read, so that the offset is always its size
  fun_induction Lexeme.scan t generalizing pre s with
  | case1 => rw [read, List.append_nil, finish_eq, outcome_nil]
  | case2 c rest l after h _ ih =>
    have htext : c :: rest = l.text ++ after := Lexeme.front_eq h
    have hstep := step_eq pre l.text after (Lexeme.front_text_ne_nil h) l.kind s
    have hread := ih (pre ++ l.text)
    rw [byteSize_append, Place.advance_append, List.append_assoc, ← htext] at hread
    rw [List.append_assoc, ← htext] at hstep
    rw [read_of_lexeme _ _ _ h, hstep, Option.bind_eq_bind, Option.bind_some, outcome_cons]
    dsimp only
    generalize s.step .standard ⟨l.kind, _, l.text, _⟩ = a
    cases a.fault? with
    | some e => rfl
    | none =>
      dsimp only
      rw [hread, Option.bind_eq_bind, Option.bind_some]
      cases outcome a.next _ _ _ <;> rfl
  | case3 c rest cause h =>
    rw [read_of_fault _ _ _ h, error_eq cause pre (List.cons_ne_nil c rest)]
    rfl

/-- The tokens of every text. -/
theorem tokenize_eq (t : Text) : tokenize t = some (Offside.tokenize t) := read_eq [] t .start

end Checked

end Offside
