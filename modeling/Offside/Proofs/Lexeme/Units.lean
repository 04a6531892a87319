import Offside.Proofs.Lexeme.Reline

/-!
# Reading literals

The body of a literal is read unit by unit: a unit is a character, or a backslash and the
character it escapes, or a backslash and a carriage return and newline. The literal ends
behind the first closing marks that stand where a unit begins. It has no end if the text
ends before there are any, and with one mark, if a line does.

Results:
* `opening?_eq_some_iff`: where a literal opens;
* `closing?_eq_some_iff`, `closing?_eq_none_iff`: where its body ends, and when it does not;
* `scan_literal_iff`, `scan_unterminated_iff`: when a literal is cut off a text, and when
  cutting stops at one.
-/
namespace Offside

namespace Lexeme

/-! ## Openings -/

/-- A literal opens at the front of a text: at most two prefix letters, the marks, and the
text behind them. Three marks are never read as one. -/
structure Opens (t letters : Text) (d : Delimiter) (body : Text) : Prop where
  text : t = letters ++ d.text ++ body
  few : letters.length ≤ 2
  letters : ∀ c ∈ letters, isPrefixLetter c = true
  mark : isMark d.mark = true
  alone : d.style = .single → ¬ [d.mark, d.mark] <+: body

theorem opening?_eq_some_iff {t letters body : Text} {d : Delimiter} :
    opening? t = some (letters, d, body) ↔ Opens t letters d body := by
  constructor
  · intro h
    obtain ⟨hfew, hletters, u, -, hd⟩ := openingWithin_spec h
    refine ⟨openingWithin_eq h, hfew, hletters, delimiter?_isMark hd, fun hs hp => ?_⟩
    obtain ⟨v, hv⟩ := hp
    exact delimiter?_single hd hs v hv.symm
  · intro h
    obtain ⟨mark, style⟩ := d
    have hd : delimiter? (Delimiter.text ⟨mark, style⟩ ++ body) = some (⟨mark, style⟩, body) := by
      cases style with
      | single => exact delimiter?_of_single h.mark fun u hu => h.alone rfl ⟨u, hu.symm⟩
      | triple => exact delimiter?_triple body h.mark
    rw [opening?, h.text, List.append_assoc]
    exact openingWithin_letters hd h.letters h.few

/-! ## Bodies -/

/-- What is read of a body at a time. -/
def units : Text → List Text
  | [] => []
  | '\\' :: '\r' :: '\n' :: rest => ['\\', '\r', '\n'] :: units rest
  | '\\' :: c :: rest => ['\\', c] :: units rest
  | c :: rest => [c] :: units rest

/-- The first closing marks stand behind `k` units, and no line ends before them if one
mark closes. -/
structure Delimiter.ClosesAt (d : Delimiter) (us : List Text) (k : Nat) : Prop where
  marks : d.text <+: (us.drop k).flatten
  first : ∀ j < k, ¬ d.text <+: (us.drop j).flatten
  line : d.style = .single → ∀ j < k, us[j]? ≠ some ['\n']

/-- Behind `k` units the text ends, or the line if one mark closes, and closing marks
stand neither there nor before. -/
structure Delimiter.OpenAt (d : Delimiter) (us : List Text) (k : Nat) : Prop where
  stops : k = us.length ∨ d.style = .single ∧ us[k]? = some ['\n']
  none : ∀ j ≤ k, ¬ d.text <+: (us.drop j).flatten

theorem flatten_units (t : Text) : (units t).flatten = t := by
  fun_induction units t with
  | case1 => rfl
  | case2 _ ih | case3 _ _ _ ih | case4 _ _ _ _ ih => rw [List.flatten_cons, ih]; rfl

example : units ['\\', 'é', '\\', '\r', '\n', '\''] = [['\\', 'é'], ['\\', '\r', '\n'], ['\'']] := by
  decide

/-- What reading a body of these units comes to. -/
inductive Delimiter.Ends (d : Delimiter) (us : List Text) : Option (Text × Text) → Prop
  | closed {k : Nat} {after : Text} (h : d.ClosesAt us k)
    (hafter : d.text ++ after = (us.drop k).flatten) :
    d.Ends us (some ((us.take k).flatten ++ d.text, after))
  | unclosed {k : Nat} (h : d.OpenAt us k) : d.Ends us none

namespace Delimiter

variable {d : Delimiter} {us : List Text} {u : Text} {k : Nat}

theorem ClosesAt.cons (h : d.ClosesAt us k) (hu : ¬ d.text <+: (u :: us).flatten)
    (hline : d.style = .single → u ≠ ['\n']) : d.ClosesAt (u :: us) (k + 1) := by
  refine ⟨h.marks, fun j hj => ?_, fun hs j hj => ?_⟩
  · cases j with
    | zero => exact hu
    | succ j => exact h.first j (Nat.lt_of_succ_lt_succ hj)
  · cases j with
    | zero => simpa using hline hs
    | succ j => exact h.line hs j (Nat.lt_of_succ_lt_succ hj)

theorem OpenAt.cons (h : d.OpenAt us k) (hu : ¬ d.text <+: (u :: us).flatten) :
    d.OpenAt (u :: us) (k + 1) := by
  refine ⟨h.stops.imp (congrArg (· + 1)) id, fun j hj => ?_⟩
  cases j with
  | zero => exact hu
  | succ j => exact h.none j (Nat.le_of_succ_le_succ hj)

theorem Ends.cons {e : Option (Text × Text)} (h : d.Ends us e)
    (hu : ¬ d.text <+: (u :: us).flatten) (hline : d.style = .single → u ≠ ['\n']) :
    d.Ends (u :: us) (e.map fun (inside, after) => (u ++ inside, after)) := by
  cases h with
  | @closed k after h hafter =>
    have hclosed := Ends.closed (h.cons hu hline) hafter
    rwa [List.take_succ_cons, List.flatten_cons, List.append_assoc] at hclosed
  | unclosed h => exact .unclosed (h.cons hu)

theorem ClosesAt.unique {j : Nat} (h : d.ClosesAt us j) (h' : d.ClosesAt us k) : j = k := by
  rcases Nat.lt_trichotomy j k with hlt | heq | hlt
  · exact absurd h.marks (h'.first j hlt)
  · exact heq
  · exact absurd h'.marks (h.first k hlt)

theorem ClosesAt.not_openAt {j : Nat} (h : d.ClosesAt us k) : ¬ d.OpenAt us j := by
  intro ho
  have hlt : j < k := Nat.lt_of_not_le fun hle => ho.none k hle h.marks
  rcases ho.stops with rfl | ⟨hs, hj⟩
  · have hnil : us.drop k = [] := List.drop_eq_nil_of_le (Nat.le_of_lt hlt)
    have hmarks := h.marks
    rw [hnil] at hmarks
    rcases d.text_eq with e | e <;> simp [e] at hmarks
  · exact h.line hs j hlt hj

end Delimiter

variable {d : Delimiter} {t : Text}

theorem not_marks_prefix {c : Char} (hc : c ≠ d.mark) (u : Text) : ¬ d.text <+: c :: u := by
  intro hp
  rcases d.text_eq with e | e <;> rw [e, List.cons_prefix_cons] at hp <;> exact hc hp.1.symm

theorem closing?_ends (hm : isMark d.mark = true) : d.Ends (units t) (closing? d t) := by
  obtain ⟨hnewline, -, hbackslash⟩ := newline_ne_of_isMark hm
  have hescape : ∀ u us, ¬ d.text <+: ((('\\' :: u) :: us : List Text)).flatten := fun u us =>
    not_marks_prefix hbackslash.symm _
  fun_induction closing? d t with
  | case1 =>
    refine .unclosed (k := 0) ⟨Or.inl rfl, fun j hj hp => ?_⟩
    rcases d.text_eq with e | e <;> simp [e, units] at hp
  | case2 rest ih =>
    rw [units]
    exact ih.cons (hescape _ _) fun _ => by simp
  | case3 c rest hne ih =>
    rw [units]
    · exact ih.cons (hescape _ _) fun _ => by simp
    · exact hne
  | case4 c rest h2 h3 h =>
    have hprefix : d.text <+: c :: rest := List.isPrefixOf_iff_prefix.1 h.2
    have hflat := flatten_units (c :: rest)
    have hat : d.ClosesAt (units (c :: rest)) 0 :=
      ⟨by rwa [List.drop_zero, hflat], fun j hj => absurd hj j.not_lt_zero,
        fun _ j hj => absurd hj j.not_lt_zero⟩
    have hafter : d.text ++ (c :: rest).drop d.text.length = ((units (c :: rest)).drop 0).flatten := by
      rw [List.drop_zero, hflat]
      exact List.prefix_iff_eq_append.1 hprefix
    exact .closed hat hafter
  | case5 c rest h2 h3 h4 h5 =>
    refine .unclosed (k := 0) ⟨Or.inr ⟨h5.2, ?_⟩, fun j hj => ?_⟩
    · rw [units]
      · simp [h5.1]
      · exact h2
      · exact h3
    · rw [Nat.le_zero.1 hj, List.drop_zero, flatten_units, h5.1]
      exact not_marks_prefix hnewline.symm rest
  | case6 c rest h2 h3 h4 h5 ih =>
    have hunits : units (c :: rest) = [c] :: units rest := by
      rw [units]
      · exact h2
      · exact h3
    rw [hunits]
    refine ih.cons (fun hp => ?_) fun hs hc => h5 ⟨List.singleton_inj.1 hc, hs⟩
    rw [List.flatten_cons, flatten_units, List.singleton_append] at hp
    refine h4 ⟨?_, List.isPrefixOf_iff_prefix.2 hp⟩
    by_contra hc
    exact not_marks_prefix hc rest hp

/-- A body ends behind the first closing marks that stand where a unit begins. -/
theorem closing?_eq_some_iff (hm : isMark d.mark = true) {inside after : Text} :
    closing? d t = some (inside, after) ↔ t = inside ++ after ∧
      ∃ k, d.ClosesAt (units t) k ∧ inside = ((units t).take k).flatten ++ d.text := by
  have hends := closing?_ends (t := t) hm
  constructor
  · intro h
    refine ⟨closing?_eq h, ?_⟩
    rw [h] at hends
    cases hends with
    | closed hk _ => exact ⟨_, hk, rfl⟩
  · intro hex
    obtain ⟨ht, k, hk, rfl⟩ := hex
    generalize hc : closing? d t = e at hends
    cases hends with
    | @closed j after' hj _ =>
      obtain rfl := hj.unique hk
      rw [List.append_cancel_left ((closing?_eq hc).symm.trans ht)]
    | unclosed ho => exact absurd ho hk.not_openAt

/-- A body has no end if it stays open as far as the text goes, or the line. -/
theorem closing?_eq_none_iff (hm : isMark d.mark = true) :
    closing? d t = none ↔ ∃ k, d.OpenAt (units t) k := by
  have hends := closing?_ends (t := t) hm
  constructor
  · intro h
    rw [h] at hends
    cases hends with
    | unclosed ho => exact ⟨_, ho⟩
  · intro hex
    obtain ⟨k, ho⟩ := hex
    generalize closing? d t = e at hends
    cases hends with
    | closed hk _ => exact absurd ho hk.not_openAt
    | unclosed => rfl

/-! ## The front of a text -/

/-- A literal of this style stands at the front of the text `t` and takes up `x`: an
opening, and the body up to and with its first closing marks. -/
def TakesLiteral (style : QuoteStyle) (t x : Text) : Prop :=
  ∃ letters d body k, Opens t letters d body ∧ d.style = style ∧ d.ClosesAt (units body) k ∧
    x = letters ++ d.text ++ ((units body).take k).flatten ++ d.text

/-- A literal of this style opens at the front of the text `t` and has no end. -/
def BreaksLiteral (style : QuoteStyle) (t : Text) : Prop :=
  ∃ letters d body k, Opens t letters d body ∧ d.style = style ∧ d.OpenAt (units body) k

/-- What stands at the front is no literal, whole or without its end. -/
def Front.IsPlain : Front → Prop
  | .lexeme l _ => ∀ style, l.kind ≠ .literal style
  | .fault cause => cause = .unexpectedCharacter

section front

variable {c : Char} {rest after x : Text} {style : QuoteStyle}

theorem plain_isPlain (c : Char) (rest : Text) : (plain c rest).IsPlain := by
  unfold plain run continuation
  repeat' split
  all_goals first | rfl | exact nofun

theorem front_literal_iff : (∃ after, front c rest = .lexeme ⟨.literal style, x⟩ after) ↔
    TakesLiteral style (c :: rest) x := by
  constructor
  · intro hex
    obtain ⟨after, h⟩ := hex
    unfold front at h
    split at h
    · next letters d body ho =>
      have hopens := opening?_eq_some_iff.1 ho
      unfold literal at h
      split at h
      · next inside after' hc =>
        obtain ⟨-, k, hk, rfl⟩ := (closing?_eq_some_iff hopens.mark).1 hc
        cases h
        exact ⟨letters, d, body, k, hopens, rfl, hk, by rw [List.append_assoc _ _ d.text]⟩
      · cases h
    · have hplain := plain_isPlain c rest
      rw [h] at hplain
      exact absurd rfl (hplain style)
  · intro hex
    obtain ⟨letters, d, body, k, hopens, rfl, hk, rfl⟩ := hex
    obtain ⟨after, hafter⟩ := hk.marks
    have hbody : body = ((units body).take k).flatten ++ d.text ++ after := by
      rw [List.append_assoc, hafter, ← List.flatten_append, List.take_append_drop, flatten_units]
    have hclosing := (closing?_eq_some_iff hopens.mark).2 ⟨hbody, k, hk, rfl⟩
    refine ⟨after, ?_⟩
    rw [front, opening?_eq_some_iff.2 hopens]
    simp only [literal, hclosing, List.append_assoc]

theorem front_unterminated_iff : front c rest = .fault (.unterminated style) ↔
    BreaksLiteral style (c :: rest) := by
  constructor
  · intro h
    unfold front at h
    split at h
    · next letters d body ho =>
      have hopens := opening?_eq_some_iff.1 ho
      unfold literal at h
      split at h
      · cases h
      · next hc =>
        obtain ⟨k, hk⟩ := (closing?_eq_none_iff hopens.mark).1 hc
        cases h
        exact ⟨letters, d, body, k, hopens, rfl, hk⟩
    · have hplain := plain_isPlain c rest
      rw [h] at hplain
      cases hplain
  · intro hex
    obtain ⟨letters, d, body, k, hopens, rfl, hk⟩ := hex
    have hclosing := (closing?_eq_none_iff hopens.mark).2 ⟨k, hk⟩
    rw [front, opening?_eq_some_iff.2 hopens]
    simp only [literal, hclosing]

end front

/-! ## The lexemes of a text -/

variable {x : Text} {style : QuoteStyle}

theorem Opens.ne_nil {letters body : Text} (h : Opens t letters d body) : t ≠ [] := by
  rw [h.text]
  rcases d.text_eq with e | e <;> simp [e]

/-- The first lexeme of a text is a literal exactly if one stands at its front. -/
theorem scan_literal_iff : (∃ ls, (scan t).lexemes = ⟨.literal style, x⟩ :: ls) ↔
    TakesLiteral style t x := by
  cases t with
  | nil =>
    rw [scan_nil]
    exact iff_of_false nofun fun ⟨_, _, _, _, hopens, _⟩ => hopens.ne_nil rfl
  | cons c rest =>
    rw [← front_literal_iff]
    cases hf : front c rest with
    | lexeme l after => simp [scan_of_lexeme hf]
    | fault cause => simp [scan_of_fault hf]

/-- Cutting a text stops before all of it, at a literal, exactly if one opens at its front
and has no end. -/
theorem scan_unterminated_iff : scan t = ⟨[], some ⟨.unterminated style, t⟩⟩ ↔
    BreaksLiteral style t := by
  cases t with
  | nil =>
    rw [scan_nil]
    exact iff_of_false nofun fun ⟨_, _, _, _, hopens, _⟩ => hopens.ne_nil rfl
  | cons c rest =>
    rw [← front_unterminated_iff]
    cases hf : front c rest with
    | lexeme l after => simp [scan_of_lexeme hf]
    | fault cause => simp [scan_of_fault hf]

end Lexeme

end Offside
