import Offside.Proofs.Statement.Leads
import Offside.Proofs.Statement.Viable

/-!
# How reading goes on

Within a suite the reader does what it does at the outermost level, until the suite
ends (`Outliner.above`). A suite is read to its end or never left; a line as well. So
what goes on with a statement is a suite or a clause, and what comes behind a statement
decides whether its breach is told of.

Results:
* `Outliner.suite_fate`, `Outliner.line_fate`: the two ways in which a suite and a
  line are read;
* `suite_of_run`: a suite that is read without a breach is one of the grammar;
* `Outliner.goesOn_fate`: what can go on with a statement;
* `Outliner.settled_fate`, `Outliner.halted_fate`: the breach of a statement that
  nothing goes on with, or nothing that comes to an end.
-/
namespace Offside

open Grammar

theorem Grammar.Suite.tokens_eq (s : Suite) : ∃ ts, s.tokens = s.opener :: ts := by
  obtain ⟨opener, body, closer⟩ := s
  exact ⟨_, by rw [Suite.tokens]; rfl⟩

theorem Grammar.Suite.tokens_ne_nil (s : Suite) : s.tokens ≠ [] := by
  obtain ⟨ts, hts⟩ := s.tokens_eq
  simp [hts]

theorem Grammar.Suite.opener_kind {s : Suite} (h : s.Valid) : s.opener.kind = .indent := by
  obtain ⟨opener, body, closer⟩ := s
  rw [Suite.Valid] at h
  exact h.1

namespace Outliner

/-- The reader with more levels around. -/
def above (base : List (Level × Token)) (o : Outliner) : Outliner :=
  { o with around := o.around ++ base }

section

variable {o n : Outliner} {t : Token} {ts rest : List Token} {base : List (Level × Token)}

theorem beginLine_above : (o.above base).beginLine t = (o.beginLine t).map (above base) := by
  unfold beginLine
  cases hr : Role.ofWord t.text <;> cases hp : o.level.pending <;> simp [above, hp]

theorem openSuite_above : (o.above base).openSuite t = (o.openSuite t).map (above base) := by
  unfold openSuite
  cases hp : o.level.pending with
  | nothing | decorated p => simp [above, hp]
  | statement d => cases hd : d.afterLine? <;> simp [above, hp, hd]

theorem step_above (hs : o.step t = some n) : (o.above base).step t = some (n.above base) := by
  rcases step_spec hs with
    ⟨line, hl, hk, rfl⟩ | ⟨line, hl, hk, rfl⟩ | ⟨hl, hk, hb⟩ | ⟨hl, hk, hb⟩ | ⟨hl, hk, hb⟩
  · simp [step, above, hl, hk]
  · simp [step, above, hl, hk]
  · have hb' : (o.above base).beginLine t = some (n.above base) := by
      rw [beginLine_above, hb]
      rfl
    simpa [step, above, hl, hk] using hb'
  · have hb' : (o.above base).openSuite t = some (n.above base) := by
      rw [openSuite_above, hb]
      rfl
    simpa [step, above, hl, hk] using hb'
  · obtain ⟨e, outer, opener, around, d, he, ha, hd, rfl⟩ := closeSuite_spec hb
    simp [step, above, hl, hk, closeSuite, he, ha, hd]

theorem run_above (hr : o.run ts = (n, [])) : (o.above base).run ts = (n.above base, []) := by
  induction ts generalizing o with
  | nil =>
    cases hr
    rfl
  | cons t ts ih =>
    obtain ⟨m, hs, hr⟩ := run_cons.1 hr
    exact run_cons.2 ⟨_, step_above hs, ih hr⟩

theorem close_above (hs : o.step t = none) (ha : (o.above base).step t = some n) :
    o.AtTop ∧ t.kind = .dedent ∧ (o.above base).closeSuite = some n := by
  rcases step_spec ha with
    ⟨line, hl, hk, -⟩ | ⟨line, hl, hk, -⟩ | ⟨hl, hk, hb⟩ | ⟨hl, hk, hb⟩ | ⟨hl, hk, hb⟩
  · replace hl : o.line? = some line := hl
    simp [step, hl, hk] at hs
  · replace hl : o.line? = some line := hl
    simp [step, hl, hk] at hs
  · replace hl : o.line? = none := hl
    have hb' : o.beginLine t = none := by simpa [step, hl, hk] using hs
    rw [beginLine_above, hb'] at hb
    cases hb
  · replace hl : o.line? = none := hl
    have hb' : o.openSuite t = none := by simpa [step, hl, hk] using hs
    rw [openSuite_above, hb'] at hb
    cases hb
  · replace hl : o.line? = none := hl
    refine ⟨⟨hl, ?_⟩, hk, hb⟩
    obtain ⟨e, outer, opener, around, d, he, haround, hd, rfl⟩ := closeSuite_spec hb
    replace he : o.level.pending = .statement e := he
    cases ho : o.around with
    | nil => rfl
    | cons a inner =>
      have hfirst : a = (outer, opener) := by
        simp only [above, ho, List.cons_append, List.cons.injEq] at haround
        exact haround.1
      subst hfirst
      simp [step, hl, hk, closeSuite, he, ho, hd] at hs

/-- A suite is read to its end, or never left. -/
theorem suite_fate (hbase : base ≠ []) (hr : (o.above base).run ts = (n, rest)) :
    (∃ us c vs k q, ts = us ++ c :: vs ∧ o.run us = (k, []) ∧ k.AtTop ∧ c.kind = .dedent ∧
      (k.above base).closeSuite = some q) ∨
    ((∃ inner, n.around = inner ++ base) ∧ ¬ (o.above base).Surfaces ts) := by
  have hopen : ∀ p : Outliner, ¬ (p.above base).AtTop := fun p htop => by
    simpa [above, hbase] using htop.2
  induction ts generalizing o with
  | nil =>
    cases hr
    exact Or.inr ⟨⟨_, rfl⟩, fun h => hopen o (surfaces_nil.1 h)⟩
  | cons t ts ih =>
    rw [run] at hr
    have hnot : (∀ p, (o.above base).step t = some p → ¬ p.Surfaces ts) →
        ¬ (o.above base).Surfaces (t :: ts) := fun hrest h => by
      rcases surfaces_cons.1 h with htop | ⟨p, hp, hsurf⟩
      · exact hopen o htop
      · exact hrest p hp hsurf
    cases hs : o.step t with
    | some m =>
      have hs' : (o.above base).step t = _ := step_above hs
      rw [hs'] at hr
      rcases ih hr with ⟨us, c, vs, k, q, rfl, hk, hend⟩ | ⟨hinner, hsub⟩
      · exact Or.inl ⟨t :: us, c, vs, k, q, rfl, run_cons.2 ⟨m, hs, hk⟩, hend⟩
      · refine Or.inr ⟨hinner, hnot fun p hp => ?_⟩
        cases hs'.symm.trans hp
        exact hsub
    | none =>
      cases hs' : (o.above base).step t with
      | some q =>
        obtain ⟨htop, hk, hclose⟩ := close_above hs hs'
        exact Or.inl ⟨[], t, ts, o, q, rfl, rfl, htop, hk, hclose⟩
      | none =>
        rw [hs'] at hr
        cases hr
        exact Or.inr ⟨⟨_, rfl⟩, hnot fun p hp => nomatch hs'.symm.trans hp⟩

/-- A line that is being read comes to its end, or reading stops in it. -/
theorem line_fate {line : OpenLine} (hl : o.line? = some line) (hr : o.run ts = (n, rest)) :
    (∃ more stop vs, ts = more ++ stop :: vs ∧ (∀ u ∈ more, u.kind = .code) ∧
      stop.kind = .newline) ∨
    (n.level = o.level ∧ n.around = o.around ∧ ¬ o.Surfaces ts) := by
  have hnot : ¬ o.AtTop := fun htop => nomatch hl.symm.trans htop.1
  induction ts generalizing o line with
  | nil =>
    cases hr
    exact Or.inr ⟨rfl, rfl, fun h => hnot (surfaces_nil.1 h)⟩
  | cons t ts ih =>
    rw [run] at hr
    cases hs : o.step t with
    | none =>
      rw [hs] at hr
      cases hr
      refine Or.inr ⟨rfl, rfl, fun h => ?_⟩
      rcases surfaces_cons.1 h with htop | ⟨p, hp, -⟩
      · exact hnot htop
      · cases hs.symm.trans hp
    | some p =>
      rw [hs] at hr
      rcases step_spec hs with ⟨l, -, hk, rfl⟩ | ⟨l, -, hk, rfl⟩ | ⟨ho, -⟩ | ⟨ho, -⟩ | ⟨ho, -⟩
      · rcases ih rfl hr (fun htop => nomatch htop.1) with
          ⟨more, stop, vs, rfl, hmore, hstop⟩ | ⟨hlevel, haround, hsub⟩
        · exact Or.inl ⟨t :: more, stop, vs, rfl, List.forall_mem_cons.2 ⟨hk, hmore⟩, hstop⟩
        · refine Or.inr ⟨hlevel, haround, fun h => ?_⟩
          rcases surfaces_cons.1 h with htop | ⟨p, hp, hsurf⟩
          · exact hnot htop
          · cases hs.symm.trans hp
            exact hsub hsurf
      · exact Or.inl ⟨[], t, ts, rfl, nofun, hk⟩
      all_goals rw [hl] at ho; cases ho

theorem breaches_of_around {g : Outliner} {w : Token} {inner : List (Level × Token)}
    (hn : n.around = inner ++ (g.level, w) :: g.around) : n.breaches = g.breaches := by
  unfold breaches
  rw [hn, List.getLast?_append, List.getLast?_cons]
  cases g.around.getLast? <;> rfl

theorem breaches_eq_nil_of_around (hne : o.around ≠ []) (h : ∀ a ∈ o.around, a.1.breaches = []) :
    o.breaches = [] := by
  unfold breaches
  rw [List.getLast?_eq_some_getLast hne]
  exact h _ (List.getLast_mem hne)

end

end Outliner

open Outliner

/-- A suite that is read without a breach is one of the grammar. -/
theorem suite_of_run {opener closer : Token} {us : List Token} {k : Outliner} {e : Draft}
    (hk : start.run us = (k, [])) (htop : k.AtTop) (he : k.level.pending = .statement e)
    (hb : k.level.breaches = []) (hopen : opener.kind = .indent) (hclose : closer.kind = .dedent) :
    ∃ ss : List Statement, Suite.Valid ⟨opener, ss, closer⟩ ∧
      Suite.tokens ⟨opener, ss, closer⟩ = opener :: (us ++ [closer]) := by
  have hok : outline us = .ok k.level.settle.nodes := by
    refine outline_eq_ok.2 ⟨k, by rw [significant_of_run hk]; exact hk, ?_,
      nodes_eq_some.2 ⟨htop.1, htop.2, by rw [he]; rfl, rfl⟩⟩
    simpa [Outliner.breaches, htop.2] using hb
  obtain ⟨ss, hss, hnodes⟩ := derives_of_outline hok
  rw [significant_of_run hk] at hss
  have hne : ss ≠ [] := by
    rintro rfl
    simp [Level.settle, he] at hnodes
  refine ⟨ss, ?_, ?_⟩
  · rw [Suite.Valid]
    exact ⟨hopen, hne, hss.valid, hclose⟩
  · rw [Suite.tokens, hss.spells]

namespace Outliner

section

variable {g n : Outliner} {t w : Token} {ts rest left : List Token} {f e : StructureError}
  {d : Draft}

theorem leads_suite {s : Suite} (hl : g.line? = none) (hd : g.level.pending = .statement d)
    (hafter : d.afterLine? = some false) (hfound : g.level.found = [])
    (ha : ∀ a ∈ g.around, a.1.breaches = []) (hs : s.Valid) :
    ∃ m, g.run s.tokens = (m, []) ∧ m.line? = none ∧ m.around = g.around ∧
      m.Leads ⟨s.opener.start, .indent⟩ g.around.length := by
  refine ⟨_, s.run hs hl hd (by rw [hafter]; rfl), rfl, rfl,
    [], _, _, rfl, by simp, ?_, by simpa using ha⟩
  simp only [Level.found, hd, List.append_eq_nil_iff] at hfound
  simp [Level.found, Draft.addSuite, hfound, hafter]

theorem opened_fate (hfound : g.level.found = []) (ha : ∀ a ∈ g.around, a.1.breaches = [])
    (hw : w.kind = .indent) (hr : (start.above ((g.level, w) :: g.around)).run rest = (n, left)) :
    (∃ (s : Suite) (vs : List Token), s.Valid ∧ s.opener = w ∧ w :: rest = s.tokens ++ vs) ∨
    ((∀ f, n.breaches.head? = some f → f.Blames (· ∈ rest)) ∧
      (g.around = [] → (start.above ((g.level, w) :: g.around)).Surfaces rest)) ∨
    (n.breaches = g.breaches ∧
      ¬ (start.above ((g.level, w) :: g.around)).Surfaces rest) := by
  rcases suite_fate (by simp) hr with
    ⟨us, c, vs, k, q, rfl, hk, htop, hc, hclose⟩ | ⟨⟨inner, hn⟩, hno⟩
  · obtain ⟨e, outer, opener, around, d', he, haround, hd', rfl⟩ := closeSuite_spec hclose
    replace he : k.level.pending = .statement e := he
    simp only [above, htop.2, List.nil_append, List.cons.injEq, Prod.mk.injEq] at haround
    obtain ⟨⟨rfl, rfl⟩, rfl⟩ := haround
    cases hb : k.level.breaches with
    | nil =>
      obtain ⟨ss, hs, htokens⟩ := suite_of_run hk htop he hb hw hc
      exact Or.inl ⟨⟨w, ss, c⟩, vs, hs, rfl, by simp [htokens]⟩
    | cons f' fs =>
      have hstep : (k.above ((g.level, w) :: g.around)).step c =
          (k.above ((g.level, w) :: g.around)).closeSuite := by
        simp only [step, above, htop.1, hc]
      rw [hclose] at hstep
      refine Or.inr (Or.inl ⟨fun f hf => ?_, fun hg => ?_⟩)
      · -- the first breach of the suite leads from its end on
        rw [run_append (run_above hk), run, hstep] at hr
        have hleads := leads_of_close w (congrArg List.head? hb) hd' hfound ha
        obtain ⟨rfl, -⟩ := (hleads.fate nofun hr).1 hf
        have hblames := tidy_start.blames.run lineFits_start hk
          (S := (· ∈ us ++ c :: vs)) fun t ht _ => by simp [ht]
        exact hblames.level f (by rw [hb]; simp)
      · have hend : (start.above ((g.level, w) :: g.around)).run (us ++ [c]) = _ :=
          (run_append (run_above hk)).trans (run_cons.2 ⟨_, hstep, rfl⟩)
        have hret : Returns _ (us ++ [c] ++ vs) :=
          returns_append hend (by simp) (surfaces_iff.2 (Or.inl ⟨rfl, hg⟩))
        rw [List.append_assoc] at hret
        exact surfaces_iff.2 (Or.inr hret)
  · exact Or.inr (Or.inr ⟨breaches_of_around hn, hno⟩)

/-! ## What comes behind a statement -/

theorem settled_leads {m : Outliner} (hl : g.line? = none) (hb : g.level.breaches = [f])
    (ha : ∀ a ∈ g.around, a.1.breaches = []) (ht : ¬ GoesOnStatement t)
    (hs : g.step t = some m) :
    ∃ k, m.Leads f k ∧ (k = 0 → g.AtTop ∨ m.AtTop) ∧ (g.AtTop → k = 0) := by
  rcases step_spec hs with
    ⟨l, ho, -⟩ | ⟨l, ho, -⟩ | ⟨-, hk, hbegin⟩ | ⟨-, hk, -⟩ | ⟨-, -, hclose⟩
  · cases hl.symm.trans ho
  · cases hl.symm.trans ho
  · rcases beginLine_spec hbegin with ⟨hrole, -⟩ | ⟨-, rfl⟩
    · exact absurd (Or.inr ⟨hk, hrole⟩) ht
    · refine ⟨g.around.length, ⟨[], g.level.settle, g.around.map (·.1), rfl, by simp, ?_, ?_⟩,
        fun hzero => Or.inl ⟨hl, List.eq_nil_of_length_eq_zero hzero⟩, fun htop => by simp [htop.2]⟩
      · rw [Level.found_settle, hb]
        rfl
      · simpa using ha
  · exact absurd (Or.inl hk) ht
  · obtain ⟨e', outer, opener, around, d, -, haround, hd, rfl⟩ := closeSuite_spec hclose
    rw [haround] at ha
    obtain ⟨houter, hrest⟩ := List.forall_mem_cons.1 ha
    refine ⟨around.length, leads_of_close opener (congrArg List.head? hb) hd
      (Level.found_eq_nil houter) hrest, fun hzero => Or.inr ⟨rfl, ?_⟩, fun htop => ?_⟩
    · exact List.eq_nil_of_length_eq_zero hzero
    · simp [htop.2] at haround

/-- The breach of a statement that nothing goes on with is told of if reading gets to the
outermost level. -/
theorem settled_fate (hl : g.line? = none) (hb : g.level.breaches = [f])
    (ha : ∀ a ∈ g.around, a.1.breaches = []) (hav : Avoids GoesOnStatement ts)
    (hr : g.run ts = (n, rest)) :
    n.breaches.head? = some e ↔ e = f ∧ g.Surfaces ts := by
  have hhere : g.breaches.head? = some e ↔ e = f ∧ g.AtTop := by
    by_cases hg : g.around = []
    · simp [Outliner.breaches, hg, hb, AtTop, hl, eq_comm]
    · rw [breaches_eq_nil_of_around hg ha]
      simp [AtTop, hg]
  cases ts with
  | nil =>
    cases hr
    rw [surfaces_nil]
    exact hhere
  | cons t ts =>
    rw [run] at hr
    cases hs : g.step t with
    | none =>
      rw [hs] at hr
      cases hr
      simpa [surfaces_cons, hs] using hhere
    | some m =>
      rw [hs] at hr
      obtain ⟨k, hleads, hzero, htop⟩ := settled_leads hl hb ha (avoids_cons.1 hav) hs
      have hsurf : g.Surfaces (t :: ts) ↔ k = 0 ∨ m.Surfaces ts := by
        simp only [surfaces_cons, hs, Option.some.injEq, exists_eq_left']
        constructor
        · exact Or.imp_left htop
        · rintro (hk | h)
          · exact (hzero hk).imp_right fun hm => surfaces_iff.2 (Or.inl hm)
          · exact Or.inr h
      rw [hsurf]
      exact hleads.fate ((lineFits_of_none hl).step hs) hr

/-- What goes on with a statement is a suite or a clause that keeps the rules, or a breach
within comes first, or reading stops in it. -/
theorem goesOn_fate (hl : g.line? = none) (hfound : g.level.found = [])
    (ha : ∀ a ∈ g.around, a.1.breaches = []) (hw : GoesOnStatement w)
    (hr : g.run (w :: rest) = (n, left)) :
    (∃ (s : Suite) (vs : List Token) (d : Draft), s.Valid ∧ s.opener = w ∧
      w :: rest = s.tokens ++ vs ∧ g.level.pending = .statement d ∧ d.afterLine?.isSome = true) ∨
    (∃ (l : Line) (vs : List Token) (d : Draft), l.Valid .clause ∧
      w :: rest = l.tokens ++ vs ∧ g.level.pending = .statement d) ∨
    ((∀ f, n.breaches.head? = some f → f.Blames (· ∈ rest)) ∧
      (g.around = [] → g.Returns (w :: rest))) ∨
    (n.breaches = g.breaches ∧ ¬ g.Returns (w :: rest)) := by
  rw [run] at hr
  cases hs : g.step w with
  | none =>
    rw [hs] at hr
    cases hr
    refine Or.inr (Or.inr (Or.inr ⟨rfl, fun hret => ?_⟩))
    obtain ⟨p, hp, -⟩ := returns_cons.1 hret
    cases hs.symm.trans hp
  | some p =>
    rw [hs] at hr
    have hreturns : g.Returns (w :: rest) ↔ p.Surfaces rest := by simp [returns_cons, hs]
    rw [hreturns]
    rcases hw with hk | ⟨hk, hrole⟩
    · obtain ⟨d, hd, hafter, rfl⟩ : ∃ d, g.level.pending = .statement d ∧
          d.afterLine?.isSome = true ∧ p = start.above ((g.level, w) :: g.around) :=
        openSuite_spec (by simpa [step, hl, hk] using hs)
      rcases opened_fate hfound ha hk hr with ⟨s, vs, hs, ho, heq⟩ | hblames | hstops
      · exact Or.inl ⟨s, vs, d, hs, ho, heq, hd, hafter⟩
      · exact Or.inr (Or.inr (Or.inl hblames))
      · exact Or.inr (Or.inr (Or.inr hstops))
    · have hb : g.beginLine w = some p := by simpa [step, hl, hk] using hs
      rcases beginLine_spec hb with ⟨-, ⟨d, hd⟩, rfl⟩ | ⟨hno, -⟩
      · rcases line_fate rfl hr with ⟨more, stop, vs, rfl, hmore, hstop⟩ | ⟨hlevel, haround, hno⟩
        · exact Or.inr (Or.inl ⟨⟨w, more, stop⟩, vs, d, ⟨hk, hrole, hmore, hstop⟩,
            by simp [Line.tokens], hd⟩)
        · refine Or.inr (Or.inr (Or.inr ⟨?_, hno⟩))
          rw [Outliner.breaches, Outliner.breaches, hlevel, haround]
      · exact absurd hrole hno

theorem eq_some_false {b? : Option Bool} (h : b?.isSome = true) (hne : b? ≠ some true) :
    b? = some false := by
  obtain ⟨b, rfl⟩ := Option.isSome_iff_exists.1 h
  cases b with
  | true => exact absurd rfl hne
  | false => rfl

theorem exists_of_not_avoids {p : Token → Prop} (h : ¬ Avoids p ts) :
    ∃ w us, ts = w :: us ∧ p w := by
  cases ts with
  | nil => exact absurd nofun h
  | cons w us => exact ⟨w, us, rfl, Classical.not_not.1 fun hw => h (avoids_cons.2 hw)⟩

/-- At the outermost level the breach of a statement is told of if nothing comes to an
end behind it. -/
theorem halted_fate (htop : g.AtTop) (hb : g.level.breaches = [f]) (hfound : g.level.found = [])
    (hno : ¬ g.Returns ts) (hr : g.run ts = (n, rest)) : n.breaches.head? = some f := by
  have ha : ∀ a ∈ g.around, a.1.breaches = [] := by simp [htop.2]
  by_cases hav : Avoids GoesOnStatement ts
  · exact (settled_fate htop.1 hb ha hav hr).2 ⟨rfl, surfaces_iff.2 (Or.inl htop)⟩
  · obtain ⟨w, ts, rfl, hw⟩ := exists_of_not_avoids hav
    rcases goesOn_fate htop.1 hfound ha hw hr with
      ⟨s, vs, d, hs, -, heq, hd, hafter⟩ | ⟨l, vs, d, hl, heq, hd⟩ | ⟨-, hret⟩ | ⟨hbreaches, -⟩
    · rw [heq] at hno
      exact absurd (returns_append (s.run hs htop.1 hd hafter) s.tokens_ne_nil
        (surfaces_iff.2 (Or.inl ⟨rfl, htop.2⟩))) hno
    · rw [heq] at hno
      exact absurd (returns_append (run_clause hl htop.1 hd) (by simp [Line.tokens])
        (surfaces_iff.2 (Or.inl ⟨rfl, htop.2⟩))) hno
    · exact absurd (hret htop.2) hno
    · rw [hbreaches]
      simp [Outliner.breaches, htop.2, hb]

end

end Outliner

end Offside
