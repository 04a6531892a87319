import Offside.Proofs.Statement.Draft

/-!
# The reader and the grammar

The state of the reader is a tree that is not finished yet: finished statements
and one that may still grow at every level, and the line being read (`Sketch`).
As long as no rule is broken every token goes on with the tree.

Results:
* `clean_of_step`, `clean_of_run`: a breach that the reader found stays;
* `Sketch.step`, `Sketch.run`: tokens go on with the tree;
* `outline_grammar`: a stream has statements exactly if the grammar derives it,
  from one tree alone, and they are what is kept of the tree.
-/
namespace Offside

open Grammar

/-! ## Breaches stay -/

/-- A clause goes on with a statement; any other line stands where none may still
grow. -/
def Level.Fits (l : Level) (role : Role) : Prop :=
  (role = .clause ∧ ∃ d, l.pending = .statement d) ∨ (role ≠ .clause ∧ l.settle = l)

theorem Level.breaches_of_addLine {l : Level} {line : OpenLine} {k : Nat} (hfits : l.Fits line.role)
    (h : (l.addLine line k).breaches = []) : l.breaches = [] := by
  unfold addLine at h
  rcases hfits with ⟨hr, d, hp⟩ | ⟨hr, hset⟩
  · rw [hr, hp] at h
    obtain ⟨hf, hd⟩ := breaches_eq_nil.1 h
    obtain ⟨hdf, hclause⟩ := Draft.breaches_eq_nil.1 (hd _ rfl)
    refine breaches_eq_nil.2 ⟨hf, fun d' hd' => ?_⟩
    rw [hp] at hd'
    cases hd'
    refine Draft.breaches_eq_nil.2 ⟨hdf, hclause.imp_left fun hnone => ?_⟩
    simp [Draft.addClause] at hnone
  · rw [breaches, hset]
    cases hrole : line.role with
    | clause => exact absurd hrole hr
    | decorator | header =>
      rw [hrole] at h
      exact (breaches_eq_nil.1 h).1

namespace Outliner

/-- No level holds a breach. -/
def Clean (o : Outliner) : Prop := o.level.breaches = [] ∧ ∀ a ∈ o.around, a.1.breaches = []

/-- A line that is being read stands on a level that has room for it. -/
def LineFits (o : Outliner) : Prop := ∀ line, o.line? = some line → o.level.Fits line.role

theorem lineFits_start : start.LineFits := nofun

theorem lineFits_of_none {o : Outliner} (h : o.line? = none) : o.LineFits :=
  fun _ hl => nomatch h.symm.trans hl

section

variable {o n : Outliner} {t : Token} {ts : List Token}

theorem LineFits.step (h : o.LineFits) (hs : o.step t = some n) : n.LineFits := by
  intro line hl
  rcases step_spec hs with ⟨l, ho, -, rfl⟩ | ⟨l, -, -, rfl⟩ | ⟨-, -, hb⟩ | ⟨-, -, hb⟩ | ⟨-, -, hb⟩
  · cases hl
    exact h l ho
  · cases hl
  · rcases beginLine_spec hb with ⟨-, hd, rfl⟩ | ⟨hr, rfl⟩
    · cases hl
      exact Or.inl ⟨rfl, hd⟩
    · cases hl
      exact Or.inr ⟨hr, Level.settle_settle _⟩
  · obtain ⟨d, -, -, rfl⟩ := openSuite_spec hb
    cases hl
  · obtain ⟨e, outer, opener, around, d, -, -, -, rfl⟩ := closeSuite_spec hb
    cases hl

theorem LineFits.run (h : o.LineFits) (hr : o.run ts = (n, [])) : n.LineFits := by
  induction ts generalizing o with
  | nil =>
    cases hr
    exact h
  | cons t ts ih =>
    obtain ⟨m, hs, hr⟩ := run_cons.1 hr
    exact ih (h.step hs) hr

/-- A breach that the reader found stays. -/
theorem clean_of_step (hfits : o.LineFits) (hs : o.step t = some n) (h : n.Clean) : o.Clean := by
  obtain ⟨hl, ha⟩ := h
  rcases step_spec hs with ⟨l, ho, -, rfl⟩ | ⟨l, ho, -, rfl⟩ | ⟨-, -, hb⟩ | ⟨-, -, hb⟩ | ⟨-, -, hb⟩
  · exact ⟨hl, ha⟩
  · exact ⟨Level.breaches_of_addLine (hfits l ho) hl, ha⟩
  · rcases beginLine_spec hb with ⟨-, -, rfl⟩ | ⟨-, rfl⟩
    · exact ⟨hl, ha⟩
    · refine ⟨?_, ha⟩
      rwa [Level.breaches, Level.settle_settle] at hl
  · obtain ⟨d, -, -, rfl⟩ := openSuite_spec hb
    exact ⟨ha (o.level, t) (by simp), fun a hm => ha a (by simp [hm])⟩
  · obtain ⟨e, outer, opener, around, d, -, haround, hd, rfl⟩ := closeSuite_spec hb
    obtain ⟨hf, hgrown⟩ := Level.breaches_eq_nil.1 hl
    obtain ⟨hfaults, hclause⟩ := Draft.breaches_eq_nil.1 (hgrown _ rfl)
    simp only [Draft.addSuite, List.append_eq_nil_iff] at hfaults
    obtain ⟨⟨hdf, hinner⟩, -⟩ := hfaults
    refine ⟨hinner, fun a hm => ?_⟩
    rw [haround, List.mem_cons] at hm
    rcases hm with rfl | hm
    · refine Level.breaches_eq_nil.2 ⟨hf, fun d' hd' => ?_⟩
      rw [hd] at hd'
      cases hd'
      exact Draft.breaches_eq_nil.2 ⟨hdf, hclause⟩
    · exact ha a hm

theorem clean_of_run (hfits : o.LineFits) (hr : o.run ts = (n, [])) (h : n.Clean) : o.Clean := by
  induction ts generalizing o with
  | nil => cases hr; exact h
  | cons t ts ih =>
    obtain ⟨m, hs, hr⟩ := run_cons.1 hr
    exact clean_of_step hfits hs (ih (hfits.step hs) hr)

end

end Outliner

/-! ## A tree that is not finished -/

/-- A header and the clauses behind it. -/
def ValidBlocks : List Block → Prop
  | [] => True
  | header :: clauses => header.Valid .header ∧ ∀ c ∈ clauses, c.Valid .clause

theorem ValidBlocks.addClause {bs : List Block} {line : Line} (h : ValidBlocks bs) (hne : bs ≠ [])
    (hl : line.Valid .clause) : ValidBlocks (bs ++ [⟨line, none⟩]) := by
  obtain ⟨b, bs, rfl⟩ := List.exists_cons_of_ne_nil hne
  exact ⟨h.1, List.forall_mem_append.2 ⟨h.2, List.forall_mem_singleton.2 (by rwa [Block.Valid])⟩⟩

theorem ValidBlocks.addSuite {bs : List Block} {line : Line} {suite : Suite}
    (h : ValidBlocks (bs ++ [⟨line, none⟩])) (hcolon : line.last = [':']) (hs : suite.Valid) :
    ValidBlocks (bs ++ [⟨line, some suite⟩]) := by
  have hlast : ∀ role, Block.Valid role ⟨line, none⟩ → Block.Valid role ⟨line, some suite⟩ := by
    intro role hl
    rw [Block.Valid] at hl
    rw [Block.Valid]
    exact ⟨hl, hcolon, hs⟩
  cases bs with
  | nil => exact ⟨hlast _ h.1, nofun⟩
  | cons b bs =>
    obtain ⟨hbs, hl⟩ := List.forall_mem_append.1 h.2
    exact ⟨h.1, List.forall_mem_append.2
      ⟨hbs, List.forall_mem_singleton.2 (hlast _ (List.forall_mem_singleton.1 hl))⟩⟩

/-- What may still grow on a level, and its tokens. -/
inductive PendingOf : Pending → List Token → Prop
  | nothing : PendingOf .nothing []
  | decorated {p : Position} (ds : List Line) (valid : ∀ l ∈ ds, l.Valid .decorator)
      (first : ds.head?.map (·.head.start) = some p) :
      PendingOf (.decorated p) (ds.flatMap Line.tokens)
  | statement {d : Draft} (ds : List Line) (bs : List Block) (valid : ∀ l ∈ ds, l.Valid .decorator)
      (blocks : ValidBlocks bs) (draft : DraftOf d ds bs) :
      PendingOf (.statement d) (ds.flatMap Line.tokens ++ bs.flatMap (·.tokens))

/-- A level of statements without a breach, and its tokens. -/
inductive LevelOf : Level → List Token → Prop
  | mk {ss : List Statement} {pending : Pending} {ts us : List Token} (finished : Derives ss ts)
      (grows : PendingOf pending us) : LevelOf ⟨ss.map (·.node), [], pending⟩ (ts ++ us)

/-- The levels around, and their tokens: on each a statement waits for the suite. -/
inductive AroundOf : List (Level × Token) → List Token → Prop
  | nil : AroundOf [] []
  | cons {level : Level} {opener : Token} {around : List (Level × Token)} {ts us : List Token}
      {d : Draft} (outer : AroundOf around ts) (here : LevelOf level us)
      (pending : level.pending = .statement d) (after : d.afterLine?.isSome = true)
      (opens : opener.kind = .indent) : AroundOf ((level, opener) :: around) (ts ++ us ++ [opener])

/-- The line being read, and its tokens. -/
inductive LineOf : Option OpenLine → List Token → Prop
  | between : LineOf none []
  | within (head : Token) (more : List Token) (head_code : head.kind = .code)
      (code : ∀ t ∈ more, t.kind = .code) :
      LineOf (some ⟨.ofWord head.text, head, (more.getLast?.getD head).text⟩) (head :: more)

/-- The reader holds the tree of these tokens, as far as it goes. -/
def Sketch (o : Outliner) (ts : List Token) : Prop :=
  ∃ us vs ws, AroundOf o.around us ∧ LevelOf o.level vs ∧ LineOf o.line? ws ∧ ts = us ++ vs ++ ws

theorem derives_nil : Derives [] [] := ⟨nofun, rfl⟩

theorem Grammar.Derives.append {ss : List Statement} {s : Statement} {ts : List Token}
    (h : Derives ss ts) (hs : s.Valid) : Derives (ss ++ [s]) (ts ++ s.tokens) :=
  ⟨List.forall_mem_append.2 ⟨h.valid, List.forall_mem_singleton.2 hs⟩, by simp [h.spells]⟩

theorem levelOf_empty : LevelOf .empty [] := .mk derives_nil .nothing

theorem sketch_start : Sketch .start [] := ⟨[], [], [], .nil, levelOf_empty, .between, rfl⟩

theorem PendingOf.finish {d : Draft} {us : List Token} (h : PendingOf (.statement d) us)
    (hd : d.breaches = []) : ∃ s : Statement, s.Valid ∧ s.tokens = us ∧ s.node = d.node := by
  cases h with
  | @statement _ ds bs hds hbs draft =>
    obtain ⟨b, bs, rfl⟩ := List.exists_cons_of_ne_nil draft.ne_nil
    refine ⟨⟨ds, b, bs⟩, ?_, ?_, draft.node_eq.symm⟩
    · rw [Statement.Valid]
      exact ⟨hds, hbs.1, hbs.2, draft.breaches_eq_nil.1 hd⟩
    · rw [Statement.tokens, List.flatMap_cons]

theorem LevelOf.settle {l : Level} {ts : List Token} (h : LevelOf l ts) (hl : l.breaches = []) :
    LevelOf l.settle ts := by
  cases h with
  | @mk ss pending ts us hts hus =>
    cases pending with
    | nothing => exact .mk hts hus
    | decorated p => exact .mk hts hus
    | statement d =>
      have hd := (Level.breaches_eq_nil.1 hl).2 d rfl
      obtain ⟨s, hv, rfl, hnode⟩ := hus.finish hd
      have hsettle : Level.settle ⟨ss.map (·.node), [], .statement d⟩ =
          ⟨(ss ++ [s]).map (·.node), [], .nothing⟩ := by
        simp [Level.settle, hd, hnode]
      rw [hsettle, ← List.append_nil (ts ++ s.tokens)]
      exact .mk (hts.append hv) .nothing

theorem LevelOf.finished {l : Level} {ts : List Token} (h : LevelOf l ts)
    (hp : l.pending = .nothing) : ∃ ss, Derives ss ts ∧ ss.map (·.node) = l.nodes := by
  cases h with
  | @mk ss pending ts us hts hus =>
    cases hp
    cases hus
    exact ⟨ss, by rwa [List.append_nil], rfl⟩

theorem LineOf.finish {line : OpenLine} {t : Token} {ws : List Token} (h : LineOf (some line) ws)
    (ht : t.kind = .newline) :
    ∃ l : Line, l.Valid line.role ∧ l.tokens = ws ++ [t] ∧ l.opened line.role = line ∧
      l.stop = t := by
  cases h with
  | @within head more hhead hmore => exact ⟨⟨head, more, t⟩, ⟨hhead, rfl, hmore, ht⟩, rfl, rfl, rfl⟩

/-- Where no statement may grow decorators wait, the first of which a statement
would start with. -/
theorem PendingOf.decorators {l : Level} {us : List Token} (h : PendingOf l.pending us)
    (hset : l.settle = l) :
    ∃ ds : List Line, (∀ k ∈ ds, k.Valid .decorator) ∧ us = ds.flatMap Line.tokens ∧
      ∀ line : Line, (ds ++ [line]).head?.map (·.head.start) =
        some (l.startFor line.head.start) := by
  obtain ⟨nodes, faults, pending⟩ := l
  dsimp only at h
  cases h with
  | nothing => exact ⟨[], nofun, rfl, fun _ => rfl⟩
  | decorated ds hds hfirst =>
    refine ⟨ds, hds, rfl, fun line => ?_⟩
    cases ds with
    | nil => cases hfirst
    | cons d ds => exact hfirst
  | statement => exact absurd (congrArg Level.pending hset) (by simp [Level.settle])

theorem LevelOf.addLine {l : Level} {line : Line} {role : Role} {ts : List Token}
    (h : LevelOf l ts) (hv : line.Valid role) (hfits : l.Fits role) :
    LevelOf (l.addLine (line.opened role) line.stop.start.line) (ts ++ line.tokens) := by
  cases h with
  | @mk ss pending ts us hts hus =>
    rw [List.append_assoc]
    rcases hfits with ⟨rfl, d, hp⟩ | ⟨hr, hset⟩
    · cases hp
      cases hus with
      | @statement _ ds bs hds hbs draft =>
        have hnew := PendingOf.statement ds _ hds (hbs.addClause draft.ne_nil hv) draft.addClause
        simp only [List.flatMap_append, List.flatMap_singleton, Block.tokens,
          ← List.append_assoc] at hnew
        exact .mk hts hnew
    · obtain ⟨ds, hds, rfl, hstart⟩ := hus.decorators hset
      cases role with
      | clause => exact absurd rfl hr
      | decorator =>
        have hnew := PendingOf.decorated (ds ++ [line])
          (List.forall_mem_append.2 ⟨hds, List.forall_mem_singleton.2 hv⟩) (hstart line)
        rw [List.flatMap_append, List.flatMap_singleton] at hnew
        exact .mk hts hnew
      | header =>
        have hnew := PendingOf.statement ds [⟨line, none⟩] hds ⟨by rwa [Block.Valid], nofun⟩
          (DraftOf.ofHeader (hstart line))
        rw [List.flatMap_singleton, Block.tokens] at hnew
        exact .mk hts hnew

theorem DraftOf.opens {d : Draft} {ds : List Line} {bs : List Block} {opener : Token}
    {nodes : List Node} (h : DraftOf d ds bs) (ha : d.afterLine?.isSome = true)
    (hf : (d.addSuite opener nodes []).faults = []) :
    ∃ bs' line, bs = bs' ++ [⟨line, none⟩] ∧ line.last = [':'] := by
  obtain ⟨bs', ⟨line, suite?⟩, rfl⟩ := List.eq_nil_or_concat bs |>.resolve_left h.ne_nil
  have hafter := h.after
  rw [List.concat_eq_append, List.getLast?_concat, Option.bind_some] at hafter
  cases suite? with
  | some suite =>
    rw [hafter] at ha
    cases ha
  | none =>
    refine ⟨bs', line, List.concat_eq_append, ?_⟩
    simp only [Draft.addSuite, hafter, Block.after, List.append_eq_nil_iff] at hf
    simpa using hf.2

theorem LevelOf.addSuite {outer : Level} {opener closer : Token} {d : Draft} {ss : List Statement}
    {us vs : List Token} (h : LevelOf outer us) (hd : outer.pending = .statement d)
    (ha : d.afterLine?.isSome = true) (hopen : opener.kind = .indent)
    (hclose : closer.kind = .dedent) (hs : Derives ss vs) (hne : ss ≠ [])
    (hf : (d.addSuite opener (ss.map (·.node)) []).faults = []) :
    LevelOf ⟨outer.nodes, outer.faults, .statement (d.addSuite opener (ss.map (·.node)) [])⟩
      (us ++ opener :: (vs ++ [closer])) := by
  cases h with
  | @mk ss' pending ts us hts hus =>
    cases hd
    cases hus with
    | @statement _ ds bs hds hbs draft =>
      obtain ⟨bs, line, rfl, hcolon⟩ := draft.opens ha hf
      have hsuite : Suite.Valid ⟨opener, ss, closer⟩ := by
        rw [Suite.Valid]
        exact ⟨hopen, hne, hs.valid, hclose⟩
      have hnew := PendingOf.statement ds _ hds (hbs.addSuite hcolon hsuite)
        (draft.addSuite hcolon hne)
      simp only [List.flatMap_append, List.flatMap_singleton, Block.tokens, Suite.tokens,
        hs.spells] at hnew ⊢
      simpa only [List.append_assoc] using LevelOf.mk hts hnew

/-- A token goes on with the tree, if no breach is found. -/
theorem Sketch.step {o n : Outliner} {t : Token} {ts : List Token} (h : Sketch o ts)
    (hfits : o.LineFits) (hs : o.step t = some n) (hn : n.Clean) : Sketch n (ts ++ [t]) := by
  obtain ⟨us, vs, ws, ha, hl, hw, rfl⟩ := h
  have hclean := Outliner.clean_of_step hfits hs hn
  rcases Outliner.step_spec hs with
    ⟨line, ho, hk, rfl⟩ | ⟨line, ho, hk, rfl⟩ | ⟨ho, hk, hb⟩ | ⟨ho, hk, hb⟩ | ⟨ho, hk, hb⟩
  · rw [ho] at hw
    cases hw with
    | @within head more hhead hmore =>
      have hline := LineOf.within head (more ++ [t]) hhead
        (List.forall_mem_append.2 ⟨hmore, List.forall_mem_singleton.2 hk⟩)
      rw [List.getLast?_concat] at hline
      exact ⟨us, vs, _, ha, hl, hline, by simp⟩
  · rw [ho] at hw
    obtain ⟨l, hv, htokens, hopened, rfl⟩ := hw.finish hk
    have hnew := hl.addLine hv (hfits line ho)
    rw [hopened, htokens] at hnew
    exact ⟨us, _, [], ha, hnew, .between, by simp⟩
  · rw [ho] at hw
    cases hw
    have hline : LineOf (some ⟨.ofWord t.text, t, t.text⟩) [t] := .within t [] hk nofun
    rcases Outliner.beginLine_spec hb with ⟨hr, -, rfl⟩ | ⟨-, rfl⟩
    · rw [hr] at hline
      exact ⟨us, vs, [t], ha, hl, hline, by simp⟩
    · exact ⟨us, vs, [t], ha, hl.settle hclean.1, hline, by simp⟩
  · rw [ho] at hw
    cases hw
    obtain ⟨d, hp, hafter, rfl⟩ := Outliner.openSuite_spec hb
    exact ⟨_, [], [], .cons ha hl hp hafter hk, levelOf_empty, .between, by simp⟩
  · rw [ho] at hw
    cases hw
    obtain ⟨e, outer, opener, around, d, he, haround, hd, rfl⟩ := Outliner.closeSuite_spec hb
    rw [haround] at ha
    cases ha with
    | @cons _ _ _ us' us d' hrest houter hd' hafter hopen =>
      rw [hd] at hd'
      cases hd'
      have hset := hl.settle hclean.1
      obtain ⟨ss, hss, hnodes⟩ := hset.finished (Level.settle_pending (by rw [he]; rfl))
      have hne : ss ≠ [] := by
        rintro rfl
        simp [Level.settle, he] at hnodes
      have hfaults : o.level.settle.faults = [] := hclean.1
      rw [hfaults, ← hnodes] at hn ⊢
      have hgrown := (Level.breaches_eq_nil.1 hn.1).2 _ rfl
      have hnew := houter.addSuite hd hafter hopen hk hss hne (Draft.breaches_eq_nil.1 hgrown).1
      exact ⟨us', _, [], hrest, hnew, .between, by simp⟩

theorem Sketch.run {o n : Outliner} {ts us : List Token} (h : Sketch o us) (hfits : o.LineFits)
    (hr : o.run ts = (n, [])) (hn : n.Clean) : Sketch n (us ++ ts) := by
  induction ts generalizing o us with
  | nil =>
    cases hr
    rwa [List.append_nil]
  | cons t ts ih =>
    obtain ⟨m, hs, hr⟩ := Outliner.run_cons.1 hr
    -- breaches count at the end only: that there is none then is carried back to here
    have hm := Outliner.clean_of_run (hfits.step hs) hr hn
    have hrest := ih (h.step hfits hs hm) (hfits.step hs) hr
    rwa [List.append_assoc] at hrest

/-! ## The statements of a stream -/

theorem derives_of_outline {ts : List Token} {nodes : List Node} (h : outline ts = .ok nodes) :
    ∃ ss, Derives ss (Token.significant ts) ∧ ss.map (·.node) = nodes := by
  obtain ⟨n, hr, hb, hn⟩ := outline_eq_ok.1 h
  obtain ⟨hl, ha, hp, rfl⟩ := Outliner.nodes_eq_some.1 hn
  have hlevel : n.level.breaches = [] := by simpa [Outliner.breaches, ha] using hb
  obtain ⟨us, vs, ws, haround, hlev, hline, hts⟩ :=
    sketch_start.run Outliner.lineFits_start hr ⟨hlevel, by simp [ha]⟩
  rw [ha] at haround
  rw [hl] at hline
  cases haround
  cases hline
  rw [List.nil_append, List.nil_append, List.append_nil] at hts
  rw [hts]
  exact (hlev.settle hlevel).finished (Level.settle_pending hp)

/-- A stream has statements exactly if its significant tokens are spelled by a
program of the grammar. There is one such program then, and the statements are
what is kept of it. -/
theorem outline_grammar (ts : List Token) :
    (∀ nodes, outline ts = .ok nodes ↔
      ∃ ss, Derives ss (Token.significant ts) ∧ ss.map (·.node) = nodes) ∧
    ∀ ss ss', Derives ss (Token.significant ts) → Derives ss' (Token.significant ts) →
      ss = ss' := by
  refine ⟨fun nodes => ⟨derives_of_outline, ?_⟩, fun ss ss' => derives_unique⟩
  rintro ⟨ss, h, rfl⟩
  exact outline_of_derives h

end Offside
