import Offside.Proofs.Statement.Grammar

/-!
# What a program can begin with

The reader takes tokens that break a rule and tells of the breach later. Tokens
that a program can begin with are those which it reads while no rule is broken
(`Outliner.Tidy`): from there a program can be brought to an end.

Results:
* `Outliner.Blames.run`: whatever tokens break a rule, breaches are told of them
  alone;
* `Outliner.tidy_of_run`: a rule that is broken stays broken;
* `viable_iff`: what a program can begin with.
-/
namespace Offside

open Grammar

/-- A stream that has statements can begin with these tokens. -/
def Viable (us : List Token) : Prop :=
  ∃ vs nodes, outline vs = .ok nodes ∧ us <+: Token.significant vs

/-! ## Which token a breach is told of -/

/-- The breach is told of a token in `S`. -/
def StructureError.Blames (S : Token → Prop) (e : StructureError) : Prop :=
  ∃ t, S t ∧ e.place = t.start

theorem StructureError.Blames.mono {S T : Token → Prop} {e : StructureError} (h : e.Blames S)
    (hST : ∀ t, S t → T t) : e.Blames T := by
  obtain ⟨t, ht, hplace⟩ := h
  exact ⟨t, hST t ht, hplace⟩

theorem StructureError.not_blames {e : StructureError} : ¬ e.Blames fun _ => False := by
  rintro ⟨t, ht, -⟩
  exact ht

theorem Draft.mem_breaches {d : Draft} {e : StructureError} : e ∈ d.breaches ↔ e ∈ d.faults ∨
    d.takesClauses = false ∧ ∃ head, d.clause? = some head ∧ e = ⟨head.start, .code head.text⟩ := by
  unfold breaches
  cases d.clause? with
  | none => simp
  | some head => cases d.takesClauses <;> simp

theorem Level.mem_breaches {l : Level} {e : StructureError} : e ∈ l.breaches ↔ e ∈ l.faults ∨
    ∃ d, l.pending = .statement d ∧ e ∈ d.breaches := by
  unfold breaches settle
  cases l.pending <;> simp

namespace Outliner

/-- The token breaks one of the two rules. -/
def Breaks (o : Outliner) (t : Token) : Prop :=
  o.line? = none ∧ ∃ d, o.level.pending = .statement d ∧
    ((t.kind = .indent ∧ d.afterLine? ≠ some true) ∨
      (t.kind = .code ∧ Role.ofWord t.text = .clause ∧ d.takesClauses = false))

/-- Only tokens in `S` broke a rule: those of the breaches found on any level, of
the levels around that are no suite of their line, and of a clause being read that
its statement does not take. -/
structure Blames (S : Token → Prop) (o : Outliner) : Prop where
  level : ∀ e ∈ o.level.breaches, e.Blames S
  outer : ∀ a ∈ o.around, ∀ e ∈ a.1.breaches, e.Blames S
  opener : ∀ a ∈ o.around, ∃ d, a.1.pending = .statement d ∧ (d.afterLine? = some true ∨ S a.2)
  line : ∀ l, o.line? = some l → l.role = .clause →
    ∃ d, o.level.pending = .statement d ∧ (d.takesClauses = true ∨ S l.head)

/-- No rule has been broken. -/
def Tidy (o : Outliner) : Prop := o.Blames fun _ => False

theorem tidy_start : start.Tidy where
  level _ he := absurd he List.not_mem_nil
  outer _ ha := absurd ha List.not_mem_nil
  opener _ ha := absurd ha List.not_mem_nil
  line := nofun

section

variable {S : Token → Prop} {o n : Outliner} {t : Token} {ts : List Token}

theorem Tidy.blames (h : o.Tidy) : o.Blames S where
  level e he := absurd (h.level e he) e.not_blames
  outer a ha e he := absurd (h.outer a ha e he) e.not_blames
  opener a ha := by
    obtain ⟨d, hd, hopen⟩ := h.opener a ha
    exact ⟨d, hd, hopen.imp_right False.elim⟩
  line l hl hrole := by
    obtain ⟨d, hd, htakes⟩ := h.line l hl hrole
    exact ⟨d, hd, htakes.imp_right False.elim⟩

theorem Tidy.clean (h : o.Tidy) : o.Clean :=
  ⟨List.eq_nil_iff_forall_not_mem.2 fun e he => e.not_blames (h.level e he),
    fun a ha => List.eq_nil_iff_forall_not_mem.2 fun e he => e.not_blames (h.outer a ha e he)⟩

theorem Clean.breaches (h : o.Clean) : o.breaches = [] := by
  unfold Outliner.breaches
  split
  · next outermost opener hlast => exact h.2 _ (List.mem_of_getLast? hlast)
  · exact h.1

theorem Blames.addLine {line : OpenLine} {k : Nat} (h : o.Blames S) (hfits : o.LineFits)
    (hl : o.line? = some line) : ∀ e ∈ (o.level.addLine line k).breaches, e.Blames S := by
  intro e he
  rcases hfits line hl with ⟨hrole, -⟩ | ⟨hrole, hset⟩
  · obtain ⟨d, hd, htakes⟩ := h.line line hl hrole
    simp only [Level.addLine, hrole, hd, Level.mem_breaches, Pending.statement.injEq,
      exists_eq_left', Draft.mem_breaches] at he
    rcases he with he | he | ⟨hnot, head, hhead, rfl⟩
    · exact h.level e (Level.mem_breaches.2 (Or.inl he))
    · exact h.level e (Level.mem_breaches.2 (Or.inr ⟨d, hd, Draft.mem_breaches.2 (Or.inl he)⟩))
    · -- the first clause is the one that is told of, be it this line or not
      cases hclause : d.clause? with
      | some first =>
        simp only [Draft.addClause, hclause, Option.some_or, Option.some.injEq] at hhead
        subst hhead
        exact h.level _ (Level.mem_breaches.2 (Or.inr ⟨d, hd,
          Draft.mem_breaches.2 (Or.inr ⟨hnot, _, hclause, rfl⟩)⟩))
      | none =>
        simp only [Draft.addClause, hclause, Option.none_or, Option.some.injEq] at hhead
        subst hhead
        exact ⟨_, htakes.resolve_left (Bool.eq_false_iff.1 hnot), rfl⟩
  · have hfaults : e ∈ o.level.faults := by
      cases hr : line.role with
      | clause => exact absurd hr hrole
      | decorator => simpa [Level.addLine, hr, Level.mem_breaches] using he
      | header =>
        simpa [Level.addLine, hr, Level.mem_breaches, Draft.ofHeader, Draft.mem_breaches] using he
    exact h.level e (Level.mem_breaches.2 (Or.inl hfaults))

theorem Blames.step (h : o.Blames S) (hfits : o.LineFits) (hs : o.step t = some n)
    (ht : o.Breaks t → S t) : n.Blames S := by
  rcases step_spec hs with
    ⟨line, hl, -, rfl⟩ | ⟨line, hl, -, rfl⟩ | ⟨hl, hk, hb⟩ | ⟨hl, hk, hb⟩ | ⟨-, -, hb⟩
  · refine ⟨h.level, h.outer, h.opener, fun l hline hrole => ?_⟩
    cases hline
    exact h.line line hl hrole
  · exact ⟨h.addLine hfits hl, h.outer, h.opener, fun l hline => by cases hline⟩
  · rcases beginLine_spec hb with ⟨hr, ⟨d, hd⟩, rfl⟩ | ⟨hr, rfl⟩
    · refine ⟨h.level, h.outer, h.opener, fun l hline _ => ⟨d, hd, ?_⟩⟩
      cases hline
      cases htakes : d.takesClauses with
      | true => exact Or.inl rfl
      | false => exact Or.inr (ht ⟨hl, d, hd, Or.inr ⟨hk, hr, htakes⟩⟩)
    · refine ⟨?_, h.outer, h.opener, fun l hline hrole => ?_⟩
      · rw [Level.breaches, Level.settle_settle]
        exact h.level
      · cases hline
        exact absurd hrole hr
  · obtain ⟨d, hd, -, rfl⟩ := openSuite_spec hb
    have hopen : d.afterLine? = some true ∨ S t := by
      by_cases ha : d.afterLine? = some true
      · exact Or.inl ha
      · exact Or.inr (ht ⟨hl, d, hd, Or.inl ⟨hk, ha⟩⟩)
    exact ⟨fun e he => absurd he List.not_mem_nil, List.forall_mem_cons.2 ⟨h.level, h.outer⟩,
      List.forall_mem_cons.2 ⟨⟨d, hd, hopen⟩, h.opener⟩, fun l hline => by cases hline⟩
  · obtain ⟨e, outer, opener, around, d, -, ha, hd, rfl⟩ := closeSuite_spec hb
    obtain ⟨houter, hrest⟩ := List.forall_mem_cons.1 (ha ▸ h.outer)
    obtain ⟨⟨d', hd', hopen⟩, hopeners⟩ := List.forall_mem_cons.1 (ha ▸ h.opener)
    rw [hd] at hd'
    cases hd'
    refine ⟨fun f hf => ?_, hrest, hopeners, fun l hline => by cases hline⟩
    simp only [Level.mem_breaches, Pending.statement.injEq, exists_eq_left', Draft.mem_breaches,
      Draft.addSuite, List.mem_append] at hf
    rcases hf with hf | ((hf | hf) | hf) | hf
    · exact houter f (Level.mem_breaches.2 (Or.inl hf))
    · exact houter f (Level.mem_breaches.2 (Or.inr ⟨d, hd, Draft.mem_breaches.2 (Or.inl hf)⟩))
    · exact h.level f hf
    · split at hf
      · cases hf
      · next hnot =>
        cases List.mem_singleton.1 hf
        exact ⟨_, hopen.resolve_left hnot, rfl⟩
    · exact houter f (Level.mem_breaches.2 (Or.inr ⟨d, hd, Draft.mem_breaches.2 (Or.inr hf)⟩))

theorem Breaks.goesOn (h : o.Breaks t) : GoesOnStatement t := by
  obtain ⟨-, d, -, ⟨hk, -⟩ | ⟨hk, hr, -⟩⟩ := h
  · exact Or.inl hk
  · exact Or.inr ⟨hk, hr⟩

/-- Whatever tokens break a rule, breaches are told of them alone. -/
theorem Blames.run (h : o.Blames S) (hfits : o.LineFits) (hr : o.run ts = (n, []))
    (hts : ∀ t ∈ ts, GoesOnStatement t → S t) : n.Blames S := by
  induction ts generalizing o with
  | nil =>
    cases hr
    exact h
  | cons t ts ih =>
    obtain ⟨m, hs, hr⟩ := run_cons.1 hr
    obtain ⟨ht, hts⟩ := List.forall_mem_cons.1 hts
    exact ih (h.step hfits hs fun hb => ht hb.goesOn) (hfits.step hs) hr hts

/-! ## A broken rule stays broken -/

theorem tidy_of_step (hfits : o.LineFits) (hs : o.step t = some n) (h : n.Tidy) : o.Tidy := by
  obtain ⟨hlevel, houter⟩ := clean_of_step hfits hs h.clean
  have hl : ∀ e ∈ o.level.breaches, e.Blames fun _ => False := by simp [hlevel]
  have ha : ∀ a ∈ o.around, ∀ e ∈ a.1.breaches, e.Blames fun _ => False := fun a hm => by
    simp [houter a hm]
  rcases step_spec hs with
    ⟨line, ho, -, rfl⟩ | ⟨line, ho, -, rfl⟩ | ⟨ho, -, hb⟩ | ⟨ho, -, hb⟩ | ⟨ho, -, hb⟩
  · refine ⟨hl, ha, h.opener, fun l hline hrole => ?_⟩
    rw [ho] at hline
    cases hline
    exact h.line _ rfl hrole
  · refine ⟨hl, ha, h.opener, fun l hline hrole => ?_⟩
    rw [ho] at hline
    cases hline
    rcases hfits line ho with ⟨-, d, hd⟩ | ⟨hr, -⟩
    · -- the clause has been added, so its statement takes it
      have hnew := h.clean.1
      simp only [Level.addLine, hrole, hd] at hnew
      have hclause := (Draft.breaches_eq_nil.1 ((Level.breaches_eq_nil.1 hnew).2 _ rfl)).2
      exact ⟨d, hd, Or.inl (hclause.resolve_left (by simp [Draft.addClause]))⟩
    · exact absurd hrole hr
  · refine ⟨hl, ha, ?_, fun l hline => by rw [ho] at hline; cases hline⟩
    rcases beginLine_spec hb with ⟨-, -, rfl⟩ | ⟨-, rfl⟩ <;> exact h.opener
  · obtain ⟨d, -, -, rfl⟩ := openSuite_spec hb
    exact ⟨hl, ha, (List.forall_mem_cons.1 h.opener).2,
      fun l hline => by rw [ho] at hline; cases hline⟩
  · obtain ⟨e, outer, opener, around, d, -, haround, hd, rfl⟩ := closeSuite_spec hb
    refine ⟨hl, ha, ?_, fun l hline => by rw [ho] at hline; cases hline⟩
    have hgrown := (Draft.breaches_eq_nil.1 ((Level.breaches_eq_nil.1 h.clean.1).2 _ rfl)).1
    have hopen : d.afterLine? = some true := by
      simpa [Draft.addSuite] using (List.append_eq_nil_iff.1 hgrown).2
    rw [haround]
    exact List.forall_mem_cons.2 ⟨⟨d, hd, Or.inl hopen⟩, h.opener⟩

/-- A rule that is broken stays broken. -/
theorem tidy_of_run (hfits : o.LineFits) (hr : o.run ts = (n, [])) (h : n.Tidy) : o.Tidy := by
  induction ts generalizing o with
  | nil =>
    cases hr
    exact h
  | cons t ts ih =>
    obtain ⟨m, hs, hr⟩ := run_cons.1 hr
    exact tidy_of_step hfits hs (ih (hfits.step hs) hr)

/-! ## A program can be brought to its end -/

theorem significant_of_step (hs : o.step t = some n) : t.kind.isSignificant = true := by
  rcases step_spec hs with ⟨-, -, hk, -⟩ | ⟨-, -, hk, -⟩ | ⟨-, hk, -⟩ | ⟨-, hk, -⟩ | ⟨-, hk, -⟩ <;>
    rw [hk] <;> rfl

theorem significant_of_run (hr : o.run ts = (n, [])) : Token.significant ts = ts := by
  refine List.filter_eq_self.2 ?_
  induction ts generalizing o with
  | nil => exact nofun
  | cons t ts ih =>
    obtain ⟨m, hs, hr⟩ := run_cons.1 hr
    exact List.forall_mem_cons.2 ⟨significant_of_step hs, ih hr⟩

theorem exists_run_of_append {us : List Token} (hr : o.run (ts ++ us) = (n, [])) :
    ∃ m, o.run ts = (m, []) ∧ m.run us = (n, []) := by
  induction ts generalizing o with
  | nil => exact ⟨o, rfl, hr⟩
  | cons t ts ih =>
    obtain ⟨k, hs, hr⟩ := run_cons.1 hr
    obtain ⟨m, hts, hus⟩ := ih hr
    exact ⟨m, run_cons.2 ⟨k, hs, hts⟩, hus⟩

/-- A mark goes on with no statement, unless it opens a suite. -/
theorem not_goesOn_mark {k : Token.Kind} {p : Position} (h : k ≠ .indent) :
    ¬ GoesOnStatement (.mark k p) := by
  rintro (hk | ⟨-, hr⟩)
  · exact h hk
  · have hempty : Role.ofWord [] ≠ .clause := by decide
    exact hempty hr

theorem run_dedents {d : Draft} (hl : o.line? = none) (hp : o.level.pending = .statement d)
    (ha : ∀ a ∈ o.around, ∃ d, a.1.pending = .statement d) :
    ∃ m e, o.run (List.replicate o.around.length (.mark .dedent ⟨1, 0⟩)) = (m, []) ∧
      m.line? = none ∧ m.around = [] ∧ m.level.pending = .statement e := by
  obtain ⟨line?, level, around⟩ := o
  dsimp only at hl hp ha
  subst hl
  induction around generalizing level d with
  | nil => exact ⟨_, d, rfl, rfl, rfl, hp⟩
  | cons a around ih =>
    obtain ⟨outer, opener⟩ := a
    obtain ⟨⟨e, he⟩, ha⟩ := List.forall_mem_cons.1 ha
    dsimp only at he
    obtain ⟨m, d', hr, hend⟩ := ih ⟨outer.nodes, outer.faults, .statement
      (e.addSuite opener level.settle.nodes level.settle.faults)⟩ rfl ha
    refine ⟨m, d', run_cons.2 ⟨_, ?_, hr⟩, hend⟩
    simp only [step, Token.mark, closeSuite, hp, he]

theorem Tidy.completes (h : o.Tidy) (hfits : o.LineFits) :
    ∃ ws n, o.run ws = (n, []) ∧ n.Tidy ∧ n.line? = none ∧ n.around = [] ∧
      n.level.pending.isDecorated = false := by
  obtain ⟨ws₁, m, hm, hline, ham, hws₁⟩ : ∃ ws m, o.run ws = (m, []) ∧ m.line? = none ∧
      m.around = o.around ∧ ∀ t ∈ ws, ¬ GoesOnStatement t := by
    cases hl : o.line? with
    | none => exact ⟨[], o, rfl, hl, rfl, nofun⟩
    | some line =>
      refine ⟨[.mark .newline ⟨1, 0⟩], ⟨none, o.level.addLine line 1, o.around⟩,
        run_cons.2 ⟨_, ?_, rfl⟩, rfl, rfl, ?_⟩
      · simp only [step, hl, Token.mark]
      · exact List.forall_mem_singleton.2 (not_goesOn_mark (by decide))
  let last : Line := ⟨.mark .code ⟨1, 0⟩, [], .mark .newline ⟨1, 0⟩⟩
  have hlast : last.Valid .header := ⟨rfl, by decide, nofun, rfl⟩
  have hrun := run_start hlast (by decide) hline
  obtain ⟨n, e, hn, hnl, hna, hnp⟩ := run_dedents (o := ⟨none,
      m.level.settle.addLine (last.opened .header) 1, m.around⟩) rfl rfl fun a ha => by
    obtain ⟨d, hd, -⟩ := h.opener a (ham ▸ ha)
    exact ⟨d, hd⟩
  have hall := (run_append hm).trans ((run_append hrun).trans hn)
  have hmarks : ∀ t ∈ last.tokens, ¬ GoesOnStatement t :=
    List.forall_mem_cons.2 ⟨not_goesOn_mark (by decide),
      List.forall_mem_singleton.2 (not_goesOn_mark (by decide))⟩
  have hdedents : ∀ t ∈ List.replicate m.around.length (Token.mark .dedent ⟨1, 0⟩),
      ¬ GoesOnStatement t := fun t ht => by
    rw [List.eq_of_mem_replicate ht]
    exact not_goesOn_mark (by decide)
  have hnone := List.forall_mem_append.2 ⟨hws₁, List.forall_mem_append.2 ⟨hmarks, hdedents⟩⟩
  exact ⟨_, n, hall, h.run hfits hall fun t ht hgoes => hnone t ht hgoes, hnl, hna,
    by rw [hnp]; rfl⟩

end

end Outliner

open Outliner

/-- A program can begin with tokens that are read without a broken rule. -/
theorem viable_iff {us : List Token} :
    Viable us ↔ ∃ o, start.run us = (o, []) ∧ o.Tidy := by
  constructor
  · rintro ⟨vs, nodes, hok, ws, hws⟩
    obtain ⟨n, hr, hb, hn⟩ := outline_eq_ok.1 hok
    obtain ⟨hl, ha, -, -⟩ := nodes_eq_some.1 hn
    have htidy : n.Tidy := by
      have hlevel : n.level.breaches = [] := by simpa [Outliner.breaches, ha] using hb
      refine ⟨?_, ?_, ?_, ?_⟩ <;> simp [hlevel, ha, hl]
    rw [← hws] at hr
    obtain ⟨o, hus, hrest⟩ := exists_run_of_append hr
    exact ⟨o, hus, tidy_of_run (lineFits_start.run hus) hrest htidy⟩
  · rintro ⟨o, hus, htidy⟩
    obtain ⟨ws, n, hws, hn, hl, ha, hp⟩ := htidy.completes (lineFits_start.run hus)
    have hall := (run_append hus).trans hws
    have hsig := significant_of_run hall
    refine ⟨us ++ ws, _, outline_eq_ok.2 ⟨n, by rw [hsig]; exact hall, ?_,
      nodes_eq_some.2 ⟨hl, ha, hp, rfl⟩⟩, by rw [hsig]; exact List.prefix_append us ws⟩
    simpa [Outliner.breaches, ha] using hn.clean.1

end Offside
