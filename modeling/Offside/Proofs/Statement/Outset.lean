import Offside.Proofs.Statement.Head
import Offside.Proofs.Statement.Twin

/-!
# Where statements begin

A statement of the outermost level begins with a head. Streams that agree in kinds
and words have statements that begin with the same of their heads.

Results:
* `starts_step`: one token adds at most its own place to the starts;
* `run_starts`: readers in step find statements at the same of the heads;
* `outline_starts_twin`, `outline_starts`: the same for the statements of streams.
-/
namespace Offside

/-! ## Where the statements of the outermost level start -/

/-- Where the pending statement starts, if there is one. -/
def Pending.start? : Pending → Option Position
  | .nothing => none
  | .decorated p => some p
  | .statement d => some d.start

/-- Where the statements of a level start, the pending one last. -/
def Level.starts (l : Level) : List Position := l.nodes.map (·.start) ++ l.pending.start?.toList

theorem Level.starts_settle (l : Level) : l.settle.starts = l.starts := by
  obtain ⟨nodes, faults, pending⟩ := l
  cases pending <;> simp [settle, starts, Pending.start?, Draft.node]

namespace Outliner

/-- Where the statements of the outermost level start, with the line that is
being read. -/
def starts (o : Outliner) : List Position :=
  match o.around.getLast?, o.line? with
  | some (outermost, _), _ => outermost.starts
  | none, none => o.level.starts
  | none, some line =>
    if line.role = .clause then o.level.starts
    else o.level.nodes.map (·.start) ++ [o.level.startFor line.head.start]

/-- Whether a statement of the outermost level starts with the token. -/
def adds (o : Outliner) (t : Token) : Bool :=
  o.around.isEmpty && o.line?.isNone && t.kind == .code && Role.ofWord t.text != .clause &&
    !o.level.pending.isDecorated

section starts

variable {o n : Outliner} {t : Token}

theorem starts_of_around {a : Level × Token} (h : o.around.getLast? = some a) :
    o.starts = a.1.starts := by
  simp [starts, h]

theorem around_eq_nil_of_getLast {around : List (Level × Token)} (h : around.getLast? = none) :
    around = [] := by simpa using h

theorem starts_addLine {line : OpenLine} (hl : o.line? = some line) (k : Nat) :
    starts { o with line? := none, level := o.level.addLine line k } = o.starts := by
  unfold starts
  cases ha : o.around.getLast? with
  | some a => rfl
  | none =>
    simp only [hl]
    obtain ⟨⟨nodes, faults, pending⟩, around⟩ := o.level, o.around
    unfold Level.addLine
    cases hr : line.role with
    | decorator | header => simp [Level.starts, Pending.start?, Draft.ofHeader]
    | clause => cases pending <;> simp [Level.starts, Pending.start?, Draft.addClause]

theorem starts_beginLine (hl : o.line? = none) (hk : t.kind = .code) (h : o.beginLine t = some n) :
    n.starts = o.starts ++ if o.adds t then [t.start] else [] := by
  obtain ⟨line?, ⟨nodes, faults, pending⟩, around⟩ := o
  dsimp only at hl
  subst hl
  rcases beginLine_spec h with ⟨hr, -, rfl⟩ | ⟨hr, rfl⟩
  · have hadd : adds ⟨none, ⟨nodes, faults, pending⟩, around⟩ t = false := by simp [adds, hr]
    rw [hadd]
    cases ha : around.getLast? <;> simp [starts, ha]
  · cases ha : around.getLast? with
    | some a =>
      have hne : around ≠ [] := by intro heq; subst heq; cases ha
      simp [starts, ha, adds, hne]
    | none =>
      obtain rfl : around = [] := by simpa using ha
      cases pending <;>
        simp [starts, adds, hk, hr, Level.settle, Level.starts, Level.startFor, Pending.start?,
          Pending.isDecorated, Draft.node]

theorem starts_openSuite (hl : o.line? = none) (h : o.openSuite t = some n) :
    n.starts = o.starts := by
  obtain ⟨d, -, -, rfl⟩ := openSuite_spec h
  cases ha : o.around.getLast? with
  | none => simp [starts, hl, around_eq_nil_of_getLast ha]
  | some a =>
    have hlast : ((o.level, t) :: o.around).getLast? = some a := by
      rw [List.getLast?_cons, ha]; rfl
    rw [starts_of_around hlast, starts_of_around ha]

theorem starts_closeSuite (h : o.closeSuite = some n) : n.starts = o.starts := by
  obtain ⟨e, outer, opener, around, d, -, ha, hd, rfl⟩ := closeSuite_spec h
  cases hr : around.getLast? with
  | none =>
    have hnil := around_eq_nil_of_getLast hr
    simp [starts, ha, hnil, Level.starts, hd, Pending.start?, Draft.addSuite]
  | some a => simp [starts, ha, List.getLast?_cons, hr]

/-- One token adds at most its own place to the starts. -/
theorem starts_step (h : o.step t = some n) :
    n.starts = o.starts ++ if o.adds t then [t.start] else [] := by
  rcases step_spec h with
    ⟨line, hl, -, rfl⟩ | ⟨line, hl, -, rfl⟩ | ⟨hl, hk, hb⟩ | ⟨hl, hk, hb⟩ | ⟨hl, hk, hb⟩
  · have hstarts : starts { o with line? := some { line with last := t.text } } = o.starts := by
      unfold starts
      rw [hl]
      cases o.around.getLast? <;> rfl
    simpa [adds, hl] using hstarts
  · simpa [adds, hl] using starts_addLine hl t.start.line
  · exact starts_beginLine hl hk hb
  · simpa [adds, hk] using starts_openSuite hl hb
  · simpa [adds, hk] using starts_closeSuite hb

/-- Between lines of the outermost level a statement can begin. -/
def Frees (o : Outliner) (free : Bool) : Prop := o.line? = none → o.around = [] → free = true

theorem frees_start : start.Frees true := fun _ _ => rfl

theorem Frees.step {free : Bool} (h : o.step t = some n) : n.Frees (t.frees free) := by
  intro hl ha
  rcases step_spec h with
    ⟨line, -, -, rfl⟩ | ⟨line, -, hk, rfl⟩ | ⟨-, -, hb⟩ | ⟨-, -, hb⟩ | ⟨-, hk, -⟩
  · cases hl
  · simp [Token.frees, hk]
  · rcases beginLine_spec hb with ⟨-, -, rfl⟩ | ⟨-, rfl⟩ <;> cases hl
  · obtain ⟨d, -, -, rfl⟩ := openSuite_spec hb
    cases ha
  · simp [Token.frees, hk]

theorem adds_spec {free : Bool} (hf : o.Frees free) (h : o.adds t = true) :
    free = true ∧ t.kind = .code := by
  simp only [adds, Bool.and_eq_true, List.isEmpty_iff, Option.isNone_iff_eq_none, beq_iff_eq] at h
  exact ⟨hf h.1.1.1.2 h.1.1.1.1, h.1.1.2⟩

theorem adds_twin {P : Position → Position → Prop} {o' : Outliner} {t' : Token}
    (h : Twin P o o') (ht : t.Akin t') : o.adds t = o'.adds t' := by
  have ha : o.around.isEmpty = o'.around.isEmpty := by
    have := h.around
    cases hx : o.around <;> cases hy : o'.around <;> simp [hx, hy] at this ⊢
  have hl : o.line?.isNone = o'.line?.isNone := by
    have := h.line
    cases hx : o.line? <;> cases hy : o'.line? <;> rw [hx, hy] at this <;> first | rfl | cases this
  unfold adds
  rw [ha, hl, h.level.pending.isDecorated, ← ht.kind]
  by_cases hk : t.kind = .code
  · rw [role_eq ht hk]
  · have hc : (t.kind == .code) = false := by simpa using hk
    simp only [hc, Bool.and_false, Bool.false_and]

end starts

/-! ## Whole streams -/

/-- Readers in step find statements that start with the same of the heads. -/
theorem run_starts {P : Position → Position → Prop} {o o' n n' : Outliner} {free : Bool}
    {ts ts' : List Token} (h : List.Forall₂ (Token.AkinAt P) ts ts') (ht : Twin P o o')
    (hf : o.Frees free) (hf' : o'.Frees free) (hr : o.run ts = (n, []))
    (hr' : o'.run ts' = (n', [])) :
    ∃ pairs, List.Sublist pairs ((heads free ts).zip (heads free ts')) ∧
      n.starts = o.starts ++ pairs.map (·.1.start) ∧
      n'.starts = o'.starts ++ pairs.map (·.2.start) := by
  induction h generalizing o o' free with
  | nil =>
    cases hr
    cases hr'
    exact ⟨[], List.nil_sublist _, by simp, by simp⟩
  | @cons t t' ts ts' hk _ ih =>
    obtain ⟨m, hs, hr⟩ := run_cons.1 hr
    obtain ⟨m', hs', hr'⟩ := run_cons.1 hr'
    have hm := step_twin ht hk
    rw [hs, hs', Option.rel_some_some] at hm
    have hfrees : t'.frees free = t.frees free := by simp [Token.frees, hk.kind]
    obtain ⟨pairs, hsub, h1, h2⟩ := ih hm (Frees.step hs) (hfrees ▸ Frees.step hs') hr hr'
    have hadd := starts_step hs
    have hadd' := starts_step hs'
    rw [← adds_twin ht hk.toAkin] at hadd'
    rw [hadd] at h1
    rw [hadd'] at h2
    cases ha : o.adds t with
    | false =>
      simp only [ha, Bool.false_eq_true, if_false, List.append_nil] at h1 h2
      refine ⟨pairs, ?_, h1, h2⟩
      simp only [heads, hfrees, ← hk.kind]
      split
      · exact hsub.cons _
      · exact hsub
    | true =>
      have hcode := adds_spec hf ha
      simp only [ha, if_true, List.append_assoc, List.singleton_append] at h1 h2
      refine ⟨(t, t') :: pairs, ?_, by simpa using h1, by simpa using h2⟩
      simp only [heads, hfrees, ← hk.kind, if_pos hcode]
      exact hsub.cons_cons _

theorem starts_of_nodes {o : Outliner} {nodes : List Node} (h : o.nodes? = some nodes) :
    o.starts = nodes.map (·.start) := by
  obtain ⟨hl, ha, hp, rfl⟩ := nodes_eq_some.1 h
  have hs : o.starts = o.level.starts := by simp [starts, hl, ha]
  rw [hs, ← Level.starts_settle]
  cases hq : o.level.pending with
  | nothing => simp [Level.starts, Level.settle, hq, Pending.start?]
  | decorated p => rw [hq] at hp; cases hp
  | statement d => simp [Level.starts, Level.settle, hq, Pending.start?]

end Outliner

/-- Streams that agree in kinds and words both have statements, which begin with
the same of their heads. -/
theorem outline_starts_twin {ts ts' : List Token} {nodes : List Node}
    (h : List.Forall₂ Token.Akin (Token.significant ts) (Token.significant ts'))
    (ho : outline ts = .ok nodes) :
    ∃ nodes' pairs, outline ts' = .ok nodes' ∧
      List.Sublist pairs ((heads true ts).zip (heads true ts')) ∧
      nodes.map (·.start) = pairs.map (·.1.start) ∧
      nodes'.map (·.start) = pairs.map (·.2.start) := by
  have hall : List.Forall₂ (Token.AkinAt fun _ _ => True) (Token.significant ts)
      (Token.significant ts') := h.imp fun _ _ ht => ⟨ht, fun _ => trivial⟩
  obtain ⟨n, hr, hb, hn⟩ := outline_eq_ok.1 ho
  obtain ⟨nodes', ho'⟩ : ∃ nodes', outline ts' = .ok nodes' := by
    have hsame := outline_twin hall trivial fun m t rest hstop => by
      rw [hr] at hstop
      cases hstop
    rw [ho] at hsame
    generalize outline ts' = found' at hsame
    cases hsame
    exact ⟨_, rfl⟩
  obtain ⟨n', hr', -, hn'⟩ := outline_eq_ok.1 ho'
  obtain ⟨pairs, hsub, h1, h2⟩ := Outliner.run_starts hall Outliner.twin_start
    Outliner.frees_start Outliner.frees_start hr hr'
  refine ⟨nodes', pairs, ho', ?_, ?_, ?_⟩
  · rwa [heads_significant, heads_significant] at hsub
  · rw [← Outliner.starts_of_nodes hn, h1]
    rfl
  · rw [← Outliner.starts_of_nodes hn', h2]
    rfl

/-- The statements of a stream start with heads, in their order. -/
theorem outline_starts {ts : List Token} {nodes : List Node} (ho : outline ts = .ok nodes) :
    List.Sublist (nodes.map (·.start)) ((heads true ts).map (·.start)) := by
  have hself : List.Forall₂ Token.Akin (Token.significant ts) (Token.significant ts) :=
    List.forall₂_same.2 fun t _ => .refl t
  obtain ⟨_, pairs, -, hsub, h1, -⟩ := outline_starts_twin hself ho
  rw [h1]
  have hfst := hsub.map Prod.fst
  rw [List.map_fst_zip (Nat.le_refl _)] at hfst
  simpa only [List.map_map, Function.comp_def] using hfst.map (·.start)

end Offside
