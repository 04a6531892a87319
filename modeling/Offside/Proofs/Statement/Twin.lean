import Offside.Proofs.Statement.Run
import Mathlib.Data.List.Forall2

/-!
# Readers in step

Nothing but the kinds of tokens and the words of code decides how statements are
put together, so two streams that agree in these make two readers go in step. They
stop at the same token, and what they find wrong is the same: only the places
differ, of which `P` tells those that stand for each other.

Results:
* `step_twin`: a token keeps readers in step, or stops both;
* `run_twin`: readers in step get through as much of their streams;
* `outline_twin`: both streams have statements, or the same is wrong with both.
-/
namespace Offside

/-- The same kind of token, and the same word where it is code. -/
structure Token.Akin (a b : Token) : Prop where
  kind : a.kind = b.kind
  word : a.kind = .code → ∀ w : Text, '\n' ∉ w → (a.text = w ↔ b.text = w)

theorem Token.Akin.refl (t : Token) : t.Akin t := ⟨rfl, fun _ _ _ => Iff.rfl⟩

/-- Akin tokens at places that stand for each other, where a line does not end with
them. -/
structure Token.AkinAt (P : Position → Position → Prop) (a b : Token) : Prop extends a.Akin b where
  place : a.kind ≠ .newline → P a.start b.start

/-- The same is wrong at places that stand for each other. -/
structure StructureError.Same (P : Position → Position → Prop) (e e' : StructureError) : Prop where
  place : P e.place e'.place
  found : e.found = e'.found

/-- Two streams both have statements, or the same is wrong with both. -/
inductive SameOutcome (P : Position → Position → Prop) :
    Except StructureError (List Node) → Except StructureError (List Node) → Prop
  | ok (nodes nodes' : List Node) : SameOutcome P (.ok nodes) (.ok nodes')
  | error {e e' : StructureError} : e.Same P e' → SameOutcome P (.error e) (.error e')

theorem rel_some_left {α β : Type} {R : α → β → Prop} {a : α} {b? : Option β}
    (h : Option.Rel R (some a) b?) : ∃ b, b? = some b ∧ R a b := by
  cases h with
  | some h => exact ⟨_, rfl, h⟩

theorem rel_getLast {α β : Type} {R : α → β → Prop} {as : List α} {bs : List β}
    (h : List.Forall₂ R as bs) : Option.Rel R as.getLast? bs.getLast? := by
  have hrev := List.rel_reverse h
  rw [List.getLast?_eq_head?_reverse, List.getLast?_eq_head?_reverse]
  generalize as.reverse = cs, bs.reverse = ds at hrev ⊢
  cases hrev with
  | nil => exact .none
  | cons h _ => exact .some h

namespace Outliner

/-! ## What readers in step hold -/

section

variable (P : Position → Position → Prop)

/-- The same word, at places that stand for each other. -/
structure HeadTwin (t t' : Token) : Prop where
  place : P t.start t'.start
  text : t.text = t'.text

/-- Lines that play the same part. -/
structure LineTwin (l l' : OpenLine) : Prop where
  role : l.role = l'.role
  owns : Role.ownerWords.contains l.head.text = Role.ownerWords.contains l'.head.text
  opens : l.opensBlock = l'.opensBlock
  clause : l.role = .clause → HeadTwin P l.head l'.head

/-- Statements that may grow in the same way. -/
structure DraftTwin (d d' : Draft) : Prop where
  takes : d.takesClauses = d'.takesClauses
  faults : List.Forall₂ (StructureError.Same P) d.faults d'.faults
  clause : Option.Rel (HeadTwin P) d.clause? d'.clause?
  after : d.afterLine? = d'.afterLine?

inductive PendingTwin : Pending → Pending → Prop
  | nothing : PendingTwin .nothing .nothing
  | decorated (p q : Position) : PendingTwin (.decorated p) (.decorated q)
  | statement {d d' : Draft} : DraftTwin P d d' → PendingTwin (.statement d) (.statement d')

structure LevelTwin (l l' : Level) : Prop where
  faults : List.Forall₂ (StructureError.Same P) l.faults l'.faults
  pending : PendingTwin P l.pending l'.pending

/-- Levels around, and the tokens that opened the suites in them. -/
structure AroundTwin (a b : Level × Token) : Prop where
  level : LevelTwin P a.1 b.1
  opener : P a.2.start b.2.start

/-- Readers in step. -/
structure Twin (o o' : Outliner) : Prop where
  line : Option.Rel (LineTwin P) o.line? o'.line?
  level : LevelTwin P o.level o'.level
  around : List.Forall₂ (AroundTwin P) o.around o'.around

end

variable {P : Position → Position → Prop}

theorem levelTwin_empty : LevelTwin P .empty .empty := ⟨.nil, .nothing⟩

theorem twin_start : Twin P start start := ⟨.none, levelTwin_empty, .nil⟩

theorem PendingTwin.isDecorated {p q : Pending} (h : PendingTwin P p q) :
    p.isDecorated = q.isDecorated := by
  cases h <;> rfl

theorem DraftTwin.breaches {d d' : Draft} (h : DraftTwin P d d') :
    List.Forall₂ (StructureError.Same P) d.breaches d'.breaches := by
  have hclause := h.clause
  unfold Draft.breaches
  rw [h.takes]
  generalize d.clause? = c, d'.clause? = c' at hclause ⊢
  cases hclause with
  | none => exact h.faults
  | some hhead =>
    dsimp only
    split
    · exact h.faults
    · exact List.rel_append h.faults (.cons ⟨hhead.place, congrArg Unexpected.code hhead.text⟩ .nil)

theorem LevelTwin.settle {l l' : Level} (h : LevelTwin P l l') :
    LevelTwin P l.settle l'.settle := by
  obtain ⟨nodes, faults, pending⟩ := l
  obtain ⟨nodes', faults', pending'⟩ := l'
  obtain ⟨hf, hp⟩ := h
  cases hp with
  | nothing => exact ⟨hf, .nothing⟩
  | decorated p q => exact ⟨hf, .decorated p q⟩
  | statement hd => exact ⟨List.rel_append hf hd.breaches, .nothing⟩

theorem LevelTwin.addLine {l l' : Level} {line line' : OpenLine} (h : LevelTwin P l l')
    (hl : LineTwin P line line') (n n' : Nat) :
    LevelTwin P (l.addLine line n) (l'.addLine line' n') := by
  obtain ⟨nodes, faults, pending⟩ := l
  obtain ⟨nodes', faults', pending'⟩ := l'
  obtain ⟨hf, hp⟩ := h
  have hheader : ∀ p p', DraftTwin P (.ofHeader p line n) (.ofHeader p' line' n') := fun p p' =>
    ⟨hl.owns, .nil, .none, congrArg some hl.opens⟩
  have hclause := hl.clause
  unfold Level.addLine
  rw [← hl.role]
  cases hr : line.role with
  | decorator => exact ⟨hf, .decorated _ _⟩
  | header => exact ⟨hf, .statement (hheader _ _)⟩
  | clause =>
    cases hp with
    | nothing => exact ⟨hf, .nothing⟩
    | decorated p q => exact ⟨hf, .decorated p q⟩
    | @statement d d' hd =>
      refine ⟨hf, .statement ⟨hd.takes, hd.faults, ?_, congrArg some hl.opens⟩⟩
      have hfirst := hd.clause
      unfold Draft.addClause
      dsimp only
      generalize d.clause? = c, d'.clause? = c' at hfirst ⊢
      cases hfirst with
      | none => exact .some (hclause hr)
      | some hhead => exact .some hhead

theorem DraftTwin.addSuite {d d' : Draft} {t t' : Token} {faults faults' : List StructureError}
    (h : DraftTwin P d d') (ht : P t.start t'.start)
    (hf : List.Forall₂ (StructureError.Same P) faults faults') (nodes nodes' : List Node) :
    DraftTwin P (d.addSuite t nodes faults) (d'.addSuite t' nodes' faults') := by
  refine ⟨h.takes, ?_, h.clause, rfl⟩
  unfold Draft.addSuite
  rw [h.after]
  refine List.rel_append (List.rel_append h.faults hf) ?_
  split
  · exact .nil
  · exact .cons ⟨ht, rfl⟩ .nil

/-! ## Words -/

section words

variable {t t' : Token}

theorem mem_words_iff (h : t.Akin t') (hk : t.kind = .code) {ws : List Text}
    (hw : ∀ w ∈ ws, '\n' ∉ w) : ws.contains t.text = ws.contains t'.text := by
  rw [Bool.eq_iff_iff, List.contains_iff_mem, List.contains_iff_mem]
  constructor
  · intro hm; exact ((h.word hk _ (hw _ hm)).1 rfl) ▸ hm
  · intro hm; exact ((h.word hk _ (hw _ hm)).2 rfl) ▸ hm

theorem role_eq (h : t.Akin t') (hk : t.kind = .code) :
    Role.ofWord t.text = Role.ofWord t'.text := by
  have ha : (t.text = ['@']) = (t'.text = ['@']) := propext (h.word hk _ (by decide))
  have hc : Role.clauseWords.contains t.text = Role.clauseWords.contains t'.text :=
    mem_words_iff h hk (by decide)
  simp only [Role.ofWord, ha, hc]

theorem text_eq_of_clause (h : t.Akin t') (hk : t.kind = .code)
    (hr : Role.ofWord t.text = .clause) : t.text = t'.text := by
  have hmem : t.text ∈ Role.clauseWords := by
    unfold Role.ofWord at hr
    split at hr
    · cases hr
    · split at hr
      · next hc => exact List.contains_iff_mem.1 hc
      · cases hr
  have hword : ∀ w ∈ Role.clauseWords, '\n' ∉ w := by decide
  exact ((h.word hk _ (hword _ hmem)).1 rfl).symm

theorem lineTwin_of_akin (h : t.AkinAt P t') (hk : t.kind = .code) :
    LineTwin P ⟨.ofWord t.text, t, t.text⟩ ⟨.ofWord t'.text, t', t'.text⟩ := by
  refine ⟨role_eq h.toAkin hk, mem_words_iff h.toAkin hk (by decide), ?_, fun hr =>
    ⟨h.place (by simp [hk]), text_eq_of_clause h.toAkin hk hr⟩⟩
  rw [OpenLine.opensBlock, OpenLine.opensBlock, Bool.eq_iff_iff, beq_iff_eq, beq_iff_eq]
  exact h.word hk _ (by decide)

end words

/-! ## Steps of readers in step -/

section steps

variable {o o' n n' : Outliner} {t t' : Token} {ts ts' rest rest' : List Token}

theorem Twin.beginLine (h : Twin P o o') (ht : t.AkinAt P t') (hk : t.kind = .code) :
    Option.Rel (Twin P) (o.beginLine t) (o'.beginLine t') := by
  have hline := lineTwin_of_akin ht hk
  have hp := h.level.pending
  have hset := h.level.settle
  unfold Outliner.beginLine
  rw [← role_eq ht.toAkin hk] at hline ⊢
  cases hr : Role.ofWord t.text with
  | clause =>
    rw [hr] at hline
    cases hq : o.level.pending <;> cases hq' : o'.level.pending <;> rw [hq, hq'] at hp <;>
      cases hp
    · exact .none
    · exact .none
    · exact .some ⟨.some hline, h.level, h.around⟩
  | header | decorator =>
    rw [hr] at hline
    exact .some ⟨.some hline, hset, h.around⟩

theorem Twin.openSuite (h : Twin P o o') (ht : P t.start t'.start) :
    Option.Rel (Twin P) (o.openSuite t) (o'.openSuite t') := by
  have hp := h.level.pending
  unfold Outliner.openSuite
  cases hq : o.level.pending <;> cases hq' : o'.level.pending <;> rw [hq, hq'] at hp <;>
    cases hp
  · exact .none
  · exact .none
  · next hd =>
    dsimp only
    rw [hd.after]
    split
    · exact .some ⟨.none, levelTwin_empty, .cons ⟨h.level, ht⟩ h.around⟩
    · exact .none

theorem Twin.closeSuite (h : Twin P o o') :
    Option.Rel (Twin P) o.closeSuite o'.closeSuite := by
  obtain ⟨line?, level, around⟩ := o
  obtain ⟨line?', level', around'⟩ := o'
  obtain ⟨-, hl, ha⟩ := h
  have hset := hl.settle
  have hp := hl.pending
  unfold Outliner.closeSuite
  dsimp only at hl ha hset hp ⊢
  cases hq : level.pending <;> cases hq' : level'.pending <;> rw [hq, hq'] at hp <;> cases hp
  · exact .none
  · exact .none
  · cases ha with
    | nil => exact .none
    | @cons a b as bs hab hrest =>
      obtain ⟨⟨nodes, faults, pending⟩, i⟩ := a
      obtain ⟨⟨nodes', faults', pending'⟩, i'⟩ := b
      obtain ⟨⟨hf, hpo⟩, hi⟩ := hab
      cases hpo with
      | nothing => exact .none
      | decorated p q => exact .none
      | statement hd =>
        exact .some ⟨.none, ⟨hf, .statement (hd.addSuite hi hset.faults _ _)⟩, hrest⟩

/-- A token keeps readers in step, or stops both. -/
theorem step_twin (h : Twin P o o') (ht : t.AkinAt P t') :
    Option.Rel (Twin P) (o.step t) (o'.step t') := by
  have hl := h.line
  unfold Outliner.step
  rw [← ht.kind]
  cases hline : o.line? <;> cases hline' : o'.line? <;> rw [hline, hline'] at hl <;> cases hl
  · cases hk : t.kind with
    | code => exact h.beginLine ht hk
    | indent => exact h.openSuite (ht.place (by simp [hk]))
    | dedent => exact h.closeSuite
    | newline | lineBreak | blankLine | comment | endMarker => exact .none
  · next hl =>
    cases hk : t.kind with
    | code =>
      refine .some ⟨.some ⟨hl.role, hl.owns, (lineTwin_of_akin ht hk).opens, hl.clause⟩, h.level,
        h.around⟩
    | newline => exact .some ⟨.none, h.level.addLine hl _ _, h.around⟩
    | lineBreak | blankLine | indent | dedent | comment | endMarker => exact .none

/-- Readers in step get through as much of their streams, and are in step then. -/
theorem run_twin (h : Twin P o o') (hts : List.Forall₂ (Token.AkinAt P) ts ts') :
    Twin P (o.run ts).1 (o'.run ts').1 ∧
      List.Forall₂ (Token.AkinAt P) (o.run ts).2 (o'.run ts').2 := by
  induction hts generalizing o o' with
  | nil => exact ⟨h, .nil⟩
  | @cons t t' ts ts' ht hts ih =>
    have hstep := step_twin h ht
    rw [run, run]
    cases hs : o.step t <;> cases hs' : o'.step t' <;> rw [hs, hs'] at hstep <;> cases hstep
    · exact ⟨h, .cons ht hts⟩
    · next hm => exact ih hm

theorem Twin.breaches (h : Twin P o o') :
    List.Forall₂ (StructureError.Same P) o.breaches o'.breaches := by
  have hlast := rel_getLast h.around
  unfold Outliner.breaches
  generalize o.around.getLast? = a, o'.around.getLast? = a' at hlast ⊢
  cases hlast with
  | none => exact h.level.settle.faults
  | some ha => exact ha.level.settle.faults

theorem Twin.nodes (h : Twin P o o') : o.nodes? = none ↔ o'.nodes? = none := by
  obtain ⟨line?, level, around⟩ := o
  obtain ⟨line?', level', around'⟩ := o'
  obtain ⟨hl, hlevel, ha⟩ := h
  have hp := hlevel.pending
  unfold nodes?
  dsimp only at hl ha hp ⊢
  generalize level.pending = p, level'.pending = p' at hp ⊢
  cases hl <;> cases ha <;> cases hp <;> simp

end steps

end Outliner

/-! ## Whole streams -/

theorem ofToken_eq {n : Outliner} {t t' : Token} (ht : t.Akin t') (hs : n.step t = none)
    (hsig : t.kind.isSignificant = true) : Unexpected.ofToken t = .ofToken t' := by
  unfold Unexpected.ofToken
  rw [← ht.kind]
  cases hk : t.kind with
  | indent | dedent | newline => rfl
  | lineBreak | blankLine | comment | endMarker => rw [hk] at hsig; cases hsig
  | code =>
    refine congrArg Unexpected.code (Outliner.text_eq_of_clause ht hk ?_)
    unfold Outliner.step at hs
    cases hl : n.line? with
    | some line => simp [hl, hk] at hs
    | none =>
      simp only [hl, hk, Outliner.beginLine] at hs
      split at hs
      · cases hs
      · assumption
      · cases hs

/-- Streams that agree in kinds and words both have statements, or the same is wrong
with both at tokens that stand for each other, unless that is the end of a line. -/
theorem outline_twin {P : Position → Position → Prop} {ts ts' : List Token}
    (h : List.Forall₂ (Token.AkinAt P) (Token.significant ts) (Token.significant ts'))
    (hend : P (endOfTokens ts) (endOfTokens ts'))
    (hstop : ∀ n t rest, Outliner.start.run (Token.significant ts) = (n, t :: rest) →
      t.kind ≠ .newline) : SameOutcome P (outline ts) (outline ts') := by
  have hrun := Outliner.run_twin (P := P) Outliner.twin_start h
  unfold outline
  generalize hfound : Outliner.start.run (Token.significant ts) = found at hrun hstop ⊢
  generalize Outliner.start.run (Token.significant ts') = found' at hrun ⊢
  obtain ⟨n, rest⟩ := found
  obtain ⟨n', rest'⟩ := found'
  obtain ⟨htwin, hrest⟩ := hrun
  dsimp only at htwin hrest ⊢
  have hbreaches := htwin.breaches
  generalize n.breaches = es, n'.breaches = es' at hbreaches ⊢
  cases hbreaches with
  | cons he _ => exact .error he
  | nil =>
    cases hrest with
    | @cons t t' _ _ ht _ =>
      obtain ⟨us, hsplit, -, hs⟩ := Outliner.run_spec hfound
      have hmem : t ∈ Token.significant ts := by simp [hsplit]
      have hsig : t.kind.isSignificant = true := (List.mem_filter.1 hmem).2
      exact .error ⟨ht.place (hstop n t _ rfl), ofToken_eq ht.toAkin (hs t rfl) hsig⟩
    | nil =>
      have hnodes := htwin.nodes
      cases hn : n.nodes? <;> cases hn' : n'.nodes? <;> simp only [hn, hn'] at hnodes ⊢
      · exact .error ⟨hend, rfl⟩
      · simp at hnodes
      · simp at hnodes
      · exact .ok _ _

end Offside
