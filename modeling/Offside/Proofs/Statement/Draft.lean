import Offside.Proofs.Statement.Run
import Offside.Proofs.Statement.Tree

/-!
# What the reader makes of a tree

A statement that may still grow stands for the decorators and blocks that were
read of it (`DraftOf`). The reader goes through the tokens of a statement of the
grammar without a breach, and keeps of it what is to be kept.

Results:
* `DraftOf.addClause`, `DraftOf.addSuite`: a draft stands for one block more, or
  for one that has got its suite;
* `Statement.run`: the reader on the tokens of a statement;
* `outline_of_derives`: tokens that a program of the grammar spells have its
  statements.
-/
namespace Offside

open Grammar

/-! ## Drafts -/

/-- A suite may follow the block, which then has to open one; nothing may where a
suite has been read. -/
def Grammar.Block.after : Block → Option Bool
  | ⟨line, none⟩ => some (line.last == [':'])
  | ⟨_, some _⟩ => none

/-- The tokens of the suite of a block, if it has one. -/
def Grammar.Block.rest : Block → List Token
  | ⟨_, none⟩ => []
  | ⟨_, some suite⟩ => suite.tokens

theorem Grammar.Block.tokens_split (b : Block) : b.tokens = b.line.tokens ++ b.rest := by
  obtain ⟨line, suite?⟩ := b
  cases suite? <;> simp [Block.tokens, Block.line, Block.rest]

def Grammar.Suite.opener : Suite → Token
  | ⟨opener, _, _⟩ => opener

/-- The lines that the blocks reach. -/
def Grammar.Block.reaches (b : Block) : List Nat := b.line.reaches b.body

/-- What the reader holds of a statement of which these decorators and blocks have
been read, the header first. -/
structure DraftOf (d : Draft) (ds : List Line) (bs : List Block) : Prop where
  start : (ds ++ bs.map (·.line)).head?.map (·.head.start) = some d.start
  takes : (bs.map (·.line)).head?.map (Role.ownerWords.contains ·.head.text) = some d.takesClauses
  endLine : d.endLine = largest (bs.flatMap (·.reaches))
  body : d.body = bs.flatMap (·.body)
  faults : d.faults = []
  clause : d.clause? = (bs.map (·.line)).tail.head?.map (·.head)
  after : d.afterLine? = bs.getLast?.bind (·.after)

/-- A line as the reader holds it at its end. -/
def Grammar.Line.opened (role : Role) (l : Line) : OpenLine := ⟨role, l.head, l.last⟩

namespace DraftOf

variable {d : Draft} {ds : List Line} {bs : List Block} {line : Line}

theorem ne_nil (h : DraftOf d ds bs) : bs ≠ [] := by
  intro hnil
  have := h.takes
  rw [hnil] at this
  cases this

theorem ofHeader {start : Position}
    (hstart : (ds ++ [line]).head?.map (·.head.start) = some start) :
    DraftOf (.ofHeader start (line.opened .header) line.stop.start.line) ds [⟨line, none⟩] := by
  refine ⟨hstart, rfl, ?_, ?_, rfl, rfl, rfl⟩
  · simp [Draft.ofHeader, Block.reaches, Line.reaches, Block.line, Block.body, largest]
  · simp [Draft.ofHeader, Block.body]

theorem addClause (h : DraftOf d ds bs) :
    DraftOf (d.addClause (line.opened .clause) line.stop.start.line) ds (bs ++ [⟨line, none⟩]) := by
  obtain ⟨b, bs, rfl⟩ := List.exists_cons_of_ne_nil h.ne_nil
  refine ⟨?_, h.takes, ?_, ?_, h.faults, ?_, ?_⟩
  · have := h.start
    cases ds <;> exact this
  · rw [List.flatMap_append, largest_append, ← h.endLine]
    simp [Draft.addClause, Block.reaches, Line.reaches, Block.line, Block.body, largest]
  · rw [List.flatMap_append, ← h.body]
    simp [Draft.addClause, Block.body]
  · have hclause := h.clause
    simp only [Draft.addClause, hclause]
    cases bs <;> rfl
  · rw [List.getLast?_concat]
    rfl

/-- The last block gets its suite, if it opens one. -/
theorem addSuite {opener closer : Token} {body : List Statement} (hcolon : line.last = [':'])
    (hne : body ≠ []) (h : DraftOf d ds (bs ++ [⟨line, none⟩])) :
    DraftOf (d.addSuite opener (body.map (·.node)) []) ds
      (bs ++ [⟨line, some ⟨opener, body, closer⟩⟩]) := by
  have hlines : (bs ++ [Block.mk line (some ⟨opener, body, closer⟩)]).map (·.line) =
      (bs ++ [Block.mk line none]).map (·.line) := by simp [Block.line]
  have hbody : Block.body ⟨line, some ⟨opener, body, closer⟩⟩ = body.map (·.node) := by
    rw [Block.body, Suite.nodes]
  refine ⟨by rw [hlines]; exact h.start, by rw [hlines]; exact h.takes, ?_, ?_, ?_,
    by rw [hlines]; exact h.clause, ?_⟩
  · have hend := h.endLine
    rw [List.flatMap_append, largest_append] at hend ⊢
    simp only [Draft.addSuite, hend, List.flatMap_singleton, Block.reaches, hbody]
    simp only [Block.line, Block.body, Line.reaches, List.getLast?_nil, Option.map_none,
      Option.toList_none]
    obtain ⟨n, hn⟩ : ∃ n, (body.map (·.node)).getLast? = some n :=
      ⟨_, List.getLast?_eq_some_getLast (by simpa using hne)⟩
    simp [hn, largest]
  · have := h.body
    rw [List.flatMap_append] at this ⊢
    simp [Draft.addSuite, this, hbody, Block.body]
  · have := h.after
    simp [Block.after, hcolon] at this
    simp [Draft.addSuite, this, h.faults]
  · simp [Draft.addSuite, Block.after]

theorem node_eq {b : Block} (h : DraftOf d ds (b :: bs)) : d.node = Statement.node ⟨ds, b, bs⟩ := by
  have hstart := h.start
  have hbody := h.body
  have hend := h.endLine
  rw [Statement.node, Draft.node]
  congr 1
  cases ds <;> exact (Option.some.inj hstart).symm

theorem breaches_eq_nil {b : Block} (h : DraftOf d ds (b :: bs)) :
    d.breaches = [] ↔ (bs ≠ [] → b.line.head.text ∈ Role.ownerWords) := by
  have htakes : d.takesClauses = true ↔ b.line.head.text ∈ Role.ownerWords := by
    rw [← Option.some.inj h.takes, List.contains_iff_mem]
  rw [Draft.breaches_eq_nil, htakes, h.clause]
  cases bs <;> simp [h.faults]

end DraftOf

/-! ## The reader on a tree -/

namespace Outliner

variable {o : Outliner} {d : Draft}

theorem run_more {line : OpenLine} {more : List Token} (hl : o.line? = some line)
    (hm : ∀ t ∈ more, t.kind = .code) : o.run more =
      ({ o with line? := some { line with last := (more.getLast?.map (·.text)).getD line.last } },
        []) := by
  induction more generalizing o line with
  | nil => rw [run, List.getLast?_nil, Option.map_none, Option.getD_none, ← hl]
  | cons t more ih =>
    have hs : o.step t = some { o with line? := some { line with last := t.text } } := by
      unfold step
      rw [hl, hm t (by simp)]
    rw [run, hs]
    refine (ih rfl fun u hu => hm u (by simp [hu])).trans ?_
    rw [List.getLast?_cons]
    cases more.getLast? <;> rfl

theorem run_line {role : Role} {l : Line} {m : Outliner} (hv : l.Valid role) (hl : o.line? = none)
    (hb : o.beginLine l.head = some m) (hm : m.line? = some ⟨role, l.head, l.head.text⟩) :
    o.run l.tokens =
      (⟨none, m.level.addLine (l.opened role) l.stop.start.line, m.around⟩, []) := by
  have hhead : o.run [l.head] = (m, []) := by
    refine run_cons.2 ⟨m, ?_, rfl⟩
    unfold step
    rw [hl, hv.head]
    exact hb
  have hlast : ((l.more.getLast?.map (·.text)).getD l.head.text) = l.last := by
    unfold Line.last
    cases l.more.getLast? <;> rfl
  have hmore := run_more hm hv.more
  have hstop := hv.stop
  rw [hlast] at hmore
  rw [Line.tokens, ← List.singleton_append, run_append hhead, run_append hmore, run]
  simp only [step, hstop]
  rfl

theorem run_start {role : Role} {l : Line} (hv : l.Valid role) (hrole : role ≠ .clause)
    (hl : o.line? = none) : o.run l.tokens =
      (⟨none, o.level.settle.addLine (l.opened role) l.stop.start.line, o.around⟩, []) := by
  refine run_line hv hl (m := ⟨some ⟨role, l.head, l.head.text⟩, o.level.settle, o.around⟩) ?_ rfl
  unfold beginLine
  rw [hv.role]
  cases role with
  | clause => exact absurd rfl hrole
  | decorator | header => rfl

theorem run_clause {l : Line} (hv : l.Valid .clause) (hl : o.line? = none)
    (hp : o.level.pending = .statement d) : o.run l.tokens =
      (⟨none, { o.level with
        pending := .statement (d.addClause (l.opened .clause) l.stop.start.line) }, o.around⟩,
        []) := by
  refine (run_line hv hl (m := { o with line? := some ⟨.clause, l.head, l.head.text⟩ })
    ?_ rfl).trans ?_
  · unfold beginLine
    rw [hv.role, hp]
  · unfold Level.addLine
    rw [hp]
    rfl

theorem run_decorators {ds : List Line} (hne : ds ≠ []) (hd : ∀ l ∈ ds, l.Valid .decorator)
    (hl : o.line? = none) : o.run (ds.flatMap Line.tokens) =
      (⟨none, { o.level.settle with
        pending := .decorated ((o.level.settle.startFor (ds.head hne).head.start)) }, o.around⟩,
        []) := by
  induction ds generalizing o with
  | nil => exact absurd rfl hne
  | cons l ds ih =>
    have hline := run_start (hd l (by simp)) (by decide) hl
    rw [List.flatMap_cons, run_append hline]
    by_cases hds : ds = []
    · subst hds
      rfl
    · refine (ih hds (fun k hk => hd k (by simp [hk])) rfl).trans ?_
      rfl

/-- What the reader has to make of a statement. -/
def ReadsStatement (s : Statement) : Prop :=
  ∀ ⦃o : Outliner⦄, o.line? = none → o.level.pending.isDecorated = false →
    ∃ d, o.run s.tokens = (⟨none, { o.level.settle with pending := .statement d }, o.around⟩, []) ∧
      d.node = s.node ∧ d.breaches = []

/-- What the reader has to make of the suite of a block, behind its line. -/
def ReadsSuite (b : Block) : Prop :=
  ∀ ⦃o : Outliner⦄ ⦃d : Draft⦄ ⦃ds : List Line⦄ ⦃bs : List Block⦄, o.line? = none →
    o.level.pending = .statement d → DraftOf d ds (bs ++ [⟨b.line, none⟩]) →
    ∃ d', o.run b.rest = (⟨none, { o.level with pending := .statement d' }, o.around⟩, []) ∧
      DraftOf d' ds (bs ++ [b])

theorem run_statements {ss : List Statement} (hrun : ∀ s ∈ ss, ReadsStatement s)
    (hl : o.line? = none) (hp : o.level.pending.isDecorated = false) :
    ∃ l, o.run (ss.flatMap (·.tokens)) = (⟨none, l, o.around⟩, []) ∧
      l.pending.isDecorated = false ∧
      l.settle = ⟨o.level.settle.nodes ++ ss.map (·.node), o.level.settle.faults, .nothing⟩ ∧
      (ss ≠ [] → ∃ d, l.pending = .statement d) := by
  induction ss generalizing o with
  | nil =>
    refine ⟨o.level, ?_, hp, ?_, fun h => absurd rfl h⟩
    · rw [List.flatMap_nil, run, ← hl]
    · rw [List.map_nil, List.append_nil, ← Level.settle_pending hp]
  | cons s ss ih =>
    obtain ⟨d, hs, hnode, hbreach⟩ := hrun s (by simp) hl hp
    obtain ⟨l, hrest, hdec, hsettle, hsome⟩ := ih
      (o := ⟨none, { o.level.settle with pending := .statement d }, o.around⟩)
      (fun k hk => hrun k (by simp [hk])) rfl rfl
    refine ⟨l, ?_, hdec, ?_, fun _ => ?_⟩
    · rw [List.flatMap_cons, run_append hs, hrest]
    · rw [hsettle]
      simp [Level.settle, hnode, hbreach]
    · by_cases hss : ss = []
      · subst hss
        cases hrest
        exact ⟨d, rfl⟩
      · exact hsome hss

theorem run_clauses {cs : List Block} {ds : List Line} {bs : List Block}
    (hv : ∀ c ∈ cs, c.Valid .clause) (hrun : ∀ c ∈ cs, ReadsSuite c) (hl : o.line? = none)
    (hp : o.level.pending = .statement d) (hd : DraftOf d ds bs) :
    ∃ d', o.run (cs.flatMap (·.tokens)) =
        (⟨none, { o.level with pending := .statement d' }, o.around⟩, []) ∧
      DraftOf d' ds (bs ++ cs) := by
  induction cs generalizing o d bs with
  | nil =>
    refine ⟨d, ?_, by rwa [List.append_nil]⟩
    rw [List.flatMap_nil, run, ← hl, ← hp]
  | cons c cs ih =>
    have hline := run_clause (Block.line_valid (hv c (by simp))) hl hp
    have hmore : DraftOf _ ds (bs ++ [⟨c.line, none⟩]) := hd.addClause
    obtain ⟨e, hrest, he⟩ := hrun c (by simp) (o := ⟨none, { o.level with
      pending := .statement (d.addClause (c.line.opened .clause) c.line.stop.start.line) },
      o.around⟩) rfl rfl hmore
    obtain ⟨f, hclauses, hf⟩ := ih
      (o := ⟨none, { o.level with pending := .statement e }, o.around⟩)
      (fun k hk => hv k (by simp [hk])) (fun k hk => hrun k (by simp [hk])) rfl rfl he
    refine ⟨f, ?_, by simpa using hf⟩
    rw [List.flatMap_cons, c.tokens_split, List.append_assoc, run_append hline, run_append hrest,
      hclauses]

end Outliner

open Outliner

mutual
theorem Grammar.Statement.run : (s : Statement) → s.Valid → ReadsStatement s
  | ⟨ds, h, cs⟩, hv => by
    have hheader := h.run .header
    have hclauses := fun c (_ : c ∈ cs) => c.run .clause
    rw [Statement.Valid] at hv
    obtain ⟨hd, hh, hc, howner⟩ := hv
    intro o hl hp
    obtain ⟨l, hdec, hlevel, hstart⟩ : ∃ l : Level,
        o.run (ds.flatMap Line.tokens) = (⟨none, l, o.around⟩, []) ∧
        (l.settle.nodes = o.level.settle.nodes ∧ l.settle.faults = o.level.settle.faults) ∧
        (ds ++ [h.line]).head?.map (·.head.start) =
          some (l.settle.startFor h.line.head.start) := by
      by_cases hds : ds = []
      · subst hds
        refine ⟨o.level, by rw [List.flatMap_nil, Outliner.run, ← hl], ⟨rfl, rfl⟩, ?_⟩
        rw [Level.startFor, Level.settle_pending hp]
        rfl
      · refine ⟨_, run_decorators hds hd hl, ⟨rfl, rfl⟩, ?_⟩
        obtain ⟨d, ds, rfl⟩ := List.exists_cons_of_ne_nil hds
        have hfirst : o.level.settle.startFor d.head.start = d.head.start := by
          rw [Level.startFor, Level.settle_pending hp]
        exact congrArg some hfirst.symm
    have hline := run_start (o := ⟨none, l, o.around⟩) (Block.line_valid hh) (by decide) rfl
    have hfirst : DraftOf _ ds ([] ++ [⟨h.line, none⟩]) := DraftOf.ofHeader hstart
    obtain ⟨d, hrest, hd1⟩ := hheader hh (o := ⟨none, l.settle.addLine (h.line.opened .header)
      h.line.stop.start.line, o.around⟩) rfl rfl hfirst
    obtain ⟨d', hmore, hd2⟩ := run_clauses (o := ⟨none, { l.settle with pending := .statement d },
      o.around⟩) hc (fun c hm => hclauses c hm (hc c hm)) rfl rfl hd1
    refine ⟨d', ?_, hd2.node_eq, hd2.breaches_eq_nil.2 howner⟩
    rw [Statement.tokens, h.tokens_split, run_append hdec, List.append_assoc, run_append hline,
      run_append hrest]
    exact hmore.trans (by simp [hlevel])
theorem Grammar.Block.run : (b : Block) → (role : Role) → b.Valid role → ReadsSuite b
  | ⟨line, none⟩, _, _ => by
    intro o d ds bs hl hp hd
    refine ⟨d, ?_, hd⟩
    rw [Block.rest, Outliner.run, ← hl, ← hp]
  | ⟨line, some ⟨opener, body, closer⟩⟩, role, hv => by
    have hsuite := Suite.run ⟨opener, body, closer⟩
    intro o d ds bs hl hp hd
    rw [Block.Valid] at hv
    obtain ⟨-, hcolon, hs⟩ := hv
    have ha : d.afterLine?.isSome = true := by
      rw [hd.after, List.getLast?_concat]
      simp [Block.line, Block.after]
    have hne : body ≠ [] := by
      rw [Suite.Valid] at hs
      exact hs.2.1
    have hrun := hsuite hs hl hp ha
    rw [Suite.nodes] at hrun
    exact ⟨_, hrun, hd.addSuite hcolon hne⟩
theorem Grammar.Suite.run : (s : Suite) → s.Valid → ∀ ⦃o : Outliner⦄ ⦃d : Draft⦄, o.line? = none →
    o.level.pending = .statement d → d.afterLine?.isSome = true →
    o.run s.tokens = (⟨none, { o.level with
      pending := .statement (d.addSuite s.opener s.nodes []) }, o.around⟩, [])
  | ⟨opener, body, closer⟩, hv => by
    have hbody := fun s (_ : s ∈ body) => s.run
    intro o d hl hp ha
    rw [Suite.Valid] at hv
    obtain ⟨hopen, hne, hb, hclose⟩ := hv
    obtain ⟨l, hrun, -, hsettle, hsome⟩ := run_statements
      (o := ⟨none, .empty, (o.level, opener) :: o.around⟩) (fun s hm => hbody s hm (hb s hm))
      rfl rfl
    obtain ⟨e, he⟩ := hsome hne
    have hfirst : o.run [opener] = (⟨none, .empty, (o.level, opener) :: o.around⟩, []) := by
      refine run_cons.2 ⟨_, ?_, rfl⟩
      simp [step, hl, hopen, openSuite, hp, ha]
    rw [Suite.tokens, ← List.singleton_append, run_append hfirst, run_append hrun]
    refine run_cons.2 ⟨_, ?_, rfl⟩
    simp only [step, hclose, closeSuite, he, hp, hsettle, Suite.nodes]
    rfl
end

/-- Tokens that a program of the grammar spells have its statements. -/
theorem outline_of_derives {ss : List Statement} {ts : List Token}
    (h : Derives ss (Token.significant ts)) : outline ts = .ok (ss.map (·.node)) := by
  obtain ⟨l, hrun, hdec, hsettle, -⟩ := run_statements (o := .start)
    (fun s hm => s.run (h.valid s hm)) rfl rfl
  rw [h.spells] at hrun
  refine outline_eq_ok.2 ⟨_, hrun, ?_, nodes_eq_some.2 ⟨rfl, rfl, hdec, ?_⟩⟩
  · exact congrArg (·.faults) hsettle
  · exact (congrArg (·.nodes) hsettle).symm

end Offside
