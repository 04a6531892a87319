import Offside.Proofs.Statement.Grammar
import Mathlib.Data.List.Forall2
import Mathlib.Order.MinMax

/-!
# Lines counted anew

The statements of a stream are put together from its tokens alone, wherever these
stand: if the lines of all tokens are counted anew, in the same order, so are the
lines of the statements. Where a level is closed leaves no trace in them.

Results:
* `step_recount`: a token counted anew takes a reader counted anew to the state
  that the token takes the reader to, counted anew;
* `outline_recount`: the statements of a stream counted anew;
* `outline_append`: the statements of two streams put together.
-/
namespace Offside

/-! ## What is counted anew -/

section

variable (f : Nat → Nat)

/-- The same column of the line counted anew. -/
def Position.recount (p : Position) : Position := ⟨f p.line, p.column⟩

def Token.recount (t : Token) : Token := ⟨t.kind, t.start.recount f, t.stop.recount f, t.text⟩

/-- The statement, and those in it, on the lines counted anew. -/
def Node.recount : Node → Node
  | ⟨start, endLine, body⟩ => ⟨start.recount f, f endLine, body.map recount⟩

/-- The fault, where `f` counts the lines anew. -/
def StructureError.recount (e : StructureError) : StructureError :=
  ⟨⟨f e.place.line, e.place.column⟩, e.found⟩

def OpenLine.recount (l : OpenLine) : OpenLine := { l with head := l.head.recount f }

def Draft.recount (d : Draft) : Draft where
  start := d.start.recount f
  takesClauses := d.takesClauses
  endLine := f d.endLine
  body := d.body.map (Node.recount f)
  faults := d.faults.map (StructureError.recount f)
  clause? := d.clause?.map (Token.recount f)
  afterLine? := d.afterLine?

def Pending.recount : Pending → Pending
  | .nothing => .nothing
  | .decorated p => .decorated (p.recount f)
  | .statement d => .statement (d.recount f)

def Level.recount (l : Level) : Level :=
  ⟨l.nodes.map (Node.recount f), l.faults.map (StructureError.recount f), l.pending.recount f⟩

def Outliner.recount (o : Outliner) : Outliner where
  line? := o.line?.map (OpenLine.recount f)
  level := o.level.recount f
  around := o.around.map fun (l, t) => (l.recount f, t.recount f)

end

variable {f : Nat → Nat}

@[simp] theorem Node.recount_endLine (n : Node) : (n.recount f).endLine = f n.endLine := by
  cases n
  rw [Node.recount]

/-! ## Drafts and levels -/

namespace Draft

theorem recount_addClause (hf : Monotone f) (d : Draft) (l : OpenLine) (endLine : Nat) :
    (d.addClause l endLine).recount f = (d.recount f).addClause (l.recount f) (f endLine) := by
  have hclause : ((d.clause?.or (some l.head)).map (Token.recount f)) =
      (d.clause?.map (Token.recount f)).or (some (l.head.recount f)) := by
    cases d.clause? <;> rfl
  simp only [addClause, recount, hclause, hf.map_max]
  rfl

theorem recount_addSuite (hf : Monotone f) (d : Draft) (indent : Token) (nodes : List Node)
    (faults : List StructureError) :
    (d.addSuite indent nodes faults).recount f = (d.recount f).addSuite (indent.recount f)
      (nodes.map (Node.recount f)) (faults.map (StructureError.recount f)) := by
  have hend : f (max d.endLine ((nodes.getLast?.map (·.endLine)).getD 0)) =
      max (f d.endLine) (((nodes.map (Node.recount f)).getLast?.map (·.endLine)).getD 0) := by
    rw [List.getLast?_map]
    cases nodes.getLast? with
    | none => simp
    | some n => simp [hf.map_max]
  have hfaults : List.map (StructureError.recount f)
        (if d.afterLine? = some true then [] else [⟨indent.start, .indent⟩]) =
      if d.afterLine? = some true then [] else [⟨(indent.recount f).start, .indent⟩] := by
    split <;> rfl
  simp only [addSuite, recount, hend, List.map_append, hfaults]
  rfl

@[simp] theorem recount_node (d : Draft) : (d.recount f).node = d.node.recount f := by
  rw [node, node, Node.recount]
  rfl

@[simp] theorem recount_breaches (d : Draft) :
    (d.recount f).breaches = d.breaches.map (StructureError.recount f) := by
  unfold breaches recount
  cases d.clause? with
  | none => rfl
  | some head =>
    simp only [Option.map_some]
    split
    · rfl
    · rw [List.map_append]
      rfl

end Draft

namespace Level

@[simp] theorem recount_settle (l : Level) : (l.recount f).settle = l.settle.recount f := by
  obtain ⟨nodes, faults, pending⟩ := l
  cases pending <;> simp [settle, recount, Pending.recount]

@[simp] theorem recount_breaches (l : Level) :
    (l.recount f).breaches = l.breaches.map (StructureError.recount f) := by
  rw [breaches, recount_settle]
  rfl

theorem recount_startFor (l : Level) (head : Position) :
    (l.recount f).startFor (head.recount f) = (l.startFor head).recount f := by
  obtain ⟨nodes, faults, pending⟩ := l
  cases pending <;> rfl

theorem recount_addLine (hf : Monotone f) (l : Level) (line : OpenLine) (endLine : Nat) :
    (l.recount f).addLine (line.recount f) (f endLine) = (l.addLine line endLine).recount f := by
  have hstart := recount_startFor (f := f) l line.head.start
  obtain ⟨role, head, last⟩ := line
  cases role with
  | decorator =>
    exact congrArg (fun p => Level.mk _ _ (.decorated p)) hstart
  | header =>
    exact congrArg (fun p => Level.mk _ _ (.statement (.ofHeader p _ _))) hstart
  | clause =>
    obtain ⟨nodes, faults, pending⟩ := l
    cases pending with
    | nothing | decorated p => rfl
    | statement d =>
      exact congrArg (fun d => Level.mk _ _ (.statement d)) (d.recount_addClause hf _ _).symm

end Level

/-! ## Readers -/

namespace Outliner

variable {o n : Outliner} {t u : Token} {ts us : List Token}

theorem beginLine_recount (o : Outliner) (t : Token) :
    (o.recount f).beginLine (t.recount f) = (o.beginLine t).map (recount f) := by
  obtain ⟨line?, ⟨nodes, faults, pending⟩, around⟩ := o
  unfold beginLine
  have htext : (t.recount f).text = t.text := rfl
  simp only [htext]
  cases Role.ofWord t.text with
  | clause => cases pending <;> rfl
  | decorator | header =>
    refine congrArg some ?_
    have hsettle := Level.recount_settle (f := f) ⟨nodes, faults, pending⟩
    exact congrArg (fun l => Outliner.mk _ l _) hsettle

theorem openSuite_recount (o : Outliner) (t : Token) :
    (o.recount f).openSuite (t.recount f) = (o.openSuite t).map (recount f) := by
  obtain ⟨line?, ⟨nodes, faults, pending⟩, around⟩ := o
  cases pending with
  | nothing | decorated p => rfl
  | statement d =>
    simp only [openSuite, recount, Level.recount, Pending.recount, Draft.recount]
    split <;> rfl

theorem closeSuite_recount (hf : Monotone f) (o : Outliner) :
    (o.recount f).closeSuite = o.closeSuite.map (recount f) := by
  obtain ⟨line?, ⟨nodes, faults, pending⟩, around⟩ := o
  cases pending with
  | nothing | decorated p => rfl
  | statement e =>
    cases around with
    | nil => rfl
    | cons a around =>
      obtain ⟨⟨nodes', faults', pending'⟩, indent⟩ := a
      cases pending' with
      | nothing | decorated p => rfl
      | statement d =>
        generalize hl : Level.mk nodes faults (.statement e) = l
        have hgrown : (d.recount f).addSuite (indent.recount f) (l.recount f).settle.nodes
            (l.recount f).settle.faults =
              (d.addSuite indent l.settle.nodes l.settle.faults).recount f := by
          rw [Level.recount_settle, d.recount_addSuite hf]
          rfl
        subst hl
        exact congrArg (fun d => some (Outliner.mk none (.mk _ _ (.statement d)) _)) hgrown

/-- A token counted anew takes a reader counted anew to the state that the token
takes the reader to, counted anew. -/
theorem step_recount (hf : Monotone f) (o : Outliner) (t : Token) :
    (o.recount f).step (t.recount f) = (o.step t).map (recount f) := by
  have hkind : (t.recount f).kind = t.kind := rfl
  unfold step
  rw [hkind]
  cases hl : o.line? with
  | some line =>
    have hline : (o.recount f).line? = some (line.recount f) := by simp [recount, hl]
    rw [hline]
    cases t.kind with
    | newline =>
      have hadd := o.level.recount_addLine hf line t.start.line
      exact congrArg (fun l => some (Outliner.mk none l _)) hadd
    | code | indent | dedent | lineBreak | blankLine | comment | endMarker => rfl
  | none =>
    have hline : (o.recount f).line? = none := by simp [recount, hl]
    rw [hline]
    cases t.kind with
    | code => exact beginLine_recount o t
    | indent => exact openSuite_recount o t
    | dedent => exact closeSuite_recount hf o
    | newline | lineBreak | blankLine | comment | endMarker => rfl

theorem step_of_dedents (o : Outliner) (ht : t.kind = .dedent) (hu : u.kind = .dedent) :
    o.step u = o.step t := by
  unfold step
  rw [ht, hu]

end Outliner

/-- The token counted anew; where a level is closed the mark of it may stand
anywhere. -/
def Token.Carried (f : Nat → Nat) (t u : Token) : Prop :=
  u = t.recount f ∨ t.kind = .dedent ∧ u.kind = .dedent

theorem Outliner.step_carried (hf : Monotone f) {o n : Outliner} {t u : Token}
    (h : t.Carried f u) (hs : o.step t = some n) : (o.recount f).step u = some (n.recount f) := by
  have hrecount : (o.recount f).step (t.recount f) = some (n.recount f) := by
    rw [step_recount hf, hs]
    rfl
  rcases h with rfl | ⟨ht, hu⟩
  · exact hrecount
  · rwa [step_of_dedents (t := t.recount f) _ ht hu]

theorem Outliner.run_carried (hf : Monotone f) {o n : Outliner} {ts us : List Token}
    (h : List.Forall₂ (Token.Carried f) ts us) (hr : o.run ts = (n, [])) :
    (o.recount f).run us = (n.recount f, []) := by
  induction h generalizing o with
  | nil =>
    cases hr
    rfl
  | cons ht _ ih =>
    obtain ⟨m, hs, hr⟩ := run_cons.1 hr
    exact run_cons.2 ⟨m.recount f, step_carried hf ht hs, ih hr⟩

/-- The statements of a stream counted anew are its statements counted anew. -/
theorem outline_recount (hf : Monotone f) {ts us : List Token} {nodes : List Node}
    (h : List.Forall₂ (Token.Carried f) (Token.significant ts) (Token.significant us))
    (ho : outline ts = .ok nodes) : outline us = .ok (nodes.map (Node.recount f)) := by
  obtain ⟨n, hr, hb, hn⟩ := outline_eq_ok.1 ho
  obtain ⟨hl, ha, hp, rfl⟩ := Outliner.nodes_eq_some.1 hn
  have hrun : Outliner.start.run (Token.significant us) = (n.recount f, []) :=
    Outliner.run_carried hf h hr
  refine outline_eq_ok.2 ⟨n.recount f, hrun, ?_, Outliner.nodes_eq_some.2 ⟨?_, ?_, ?_, ?_⟩⟩
  · have hlevel : n.level.breaches = [] := by simpa [Outliner.breaches, ha] using hb
    simp [Outliner.breaches, Outliner.recount, ha, hlevel]
  · simp [Outliner.recount, hl]
  · simp [Outliner.recount, ha]
  · revert hp
    simp only [Outliner.recount, Level.recount]
    cases n.level.pending <;> exact id
  · have hsettle := Level.recount_settle (f := f) n.level
    exact (congrArg Level.nodes hsettle).symm

/-- The statements of two streams put together are those of both. -/
theorem outline_append {ts us vs : List Token} {nodes nodes' : List Node}
    (h : Token.significant vs = Token.significant ts ++ Token.significant us)
    (hts : outline ts = .ok nodes) (hus : outline us = .ok nodes') :
    outline vs = .ok (nodes ++ nodes') := by
  obtain ⟨ss, hss, rfl⟩ := derives_of_outline hts
  obtain ⟨ss', hss', rfl⟩ := derives_of_outline hus
  have hvs : Grammar.Derives (ss ++ ss') (Token.significant vs) := by
    refine ⟨fun s hs => ?_, by rw [List.flatMap_append, hss.spells, hss'.spells, h]⟩
    exact (List.mem_append.1 hs).elim (hss.valid s) (hss'.valid s)
  rw [outline_of_derives hvs, List.map_append]

end Offside
