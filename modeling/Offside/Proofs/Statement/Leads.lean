import Offside.Proofs.Statement.Grammar

/-!
# The breach that is told of

A breach that comes first on its level stays the first there, and is the first one
that the level around gets when its suite ends. If no breach was found further out,
it comes first at the outermost level too, as soon as reading gets there
(`Outliner.Surfaces`), and is told of; before that nothing is.

Results:
* `Outliner.Leads.step`, `Outliner.Leads.run`: a first breach stays the first;
* `Outliner.Leads.fate`: when it is told of.
-/
namespace Offside

/-- The breaches of a level that none comes before any more: those of the clauses of
a statement that may still grow come behind those of its suites. -/
def Level.found (l : Level) : List StructureError :=
  match l.pending with
  | .statement d => l.faults ++ d.faults
  | _ => l.faults

namespace Level

variable {l : Level} {d : Draft} {f : StructureError}

theorem found_settle (l : Level) : l.settle.found = l.breaches := by
  obtain ⟨nodes, faults, pending⟩ := l
  cases pending <;> rfl

theorem found_isPrefix (l : Level) : l.found <+: l.breaches := by
  obtain ⟨nodes, faults, pending⟩ := l
  cases pending with
  | nothing | decorated p => exact List.prefix_rfl
  | statement d =>
    have hd : d.faults <+: d.breaches := by
      unfold Draft.breaches
      cases d.clause? with
      | none => exact List.prefix_rfl
      | some head => cases d.takesClauses <;> simp
    exact (List.prefix_append_right_inj faults).2 hd

theorem found_addLine {line : OpenLine} (h : l.Fits line.role) (k : Nat) :
    (l.addLine line k).found = l.found := by
  rcases h with ⟨hr, d, hd⟩ | ⟨hr, hset⟩
  · simp only [addLine, hr, hd, found]
    rfl
  · have hl : l.found = l.faults := by
      rw [← hset]
      cases hp : l.pending <;> simp [settle, hp, found]
    rw [hl]
    cases hrole : line.role with
    | clause => exact absurd hrole hr
    | decorator => simp [addLine, hrole, found]
    | header => simp [addLine, hrole, found, Draft.ofHeader]

theorem found_addSuite (hd : l.pending = .statement d) (opener : Token) (nodes : List Node)
    (faults : List StructureError) : l.found ++ faults <+:
      found ⟨l.nodes, l.faults, .statement (d.addSuite opener nodes faults)⟩ := by
  simp only [found, hd, Draft.addSuite, List.append_assoc]
  exact (List.prefix_append_right_inj _).2 ((List.prefix_append_right_inj _).2
    (List.prefix_append _ _))

theorem found_eq_nil (h : l.breaches = []) : l.found = [] :=
  List.prefix_nil.1 (h ▸ l.found_isPrefix)

end Level

theorem head?_of_isPrefix {α : Type} {xs ys : List α} {a : α} (h : xs <+: ys)
    (ha : xs.head? = some a) : ys.head? = some a := by
  obtain ⟨zs, rfl⟩ := h
  rw [List.head?_append, ha]
  rfl

namespace Outliner

/-- All levels, innermost first. -/
def levels (o : Outliner) : List Level := o.level :: o.around.map (·.1)

/-- The breach comes first on a level with `k` others around it, none of which holds
a breach. -/
def Leads (f : StructureError) (k : Nat) (o : Outliner) : Prop :=
  ∃ inner l outer, o.levels = inner ++ l :: outer ∧ outer.length = k ∧ l.found.head? = some f ∧
    ∀ m ∈ outer, m.breaches = []

/-- Between two lines of the outermost level. -/
def AtTop (o : Outliner) : Prop := o.line? = none ∧ o.around = []

/-- Reading the tokens gets between two lines of the outermost level. -/
def Surfaces (o : Outliner) (ts : List Token) : Prop :=
  ∃ us m, us <+: ts ∧ o.run us = (m, []) ∧ m.AtTop

/-- Reading the tokens gets there behind the first of them. -/
def Returns (o : Outliner) (ts : List Token) : Prop :=
  ∃ t us m, ts = t :: us ∧ o.step t = some m ∧ m.Surfaces us

section

variable {o n : Outliner} {t : Token} {ts rest : List Token} {f : StructureError} {k : Nat}

theorem breaches_of_levels {l : Level} (h : o.levels.getLast? = some l) :
    o.breaches = l.breaches := by
  unfold levels at h
  unfold breaches
  rcases List.eq_nil_or_concat o.around with ha | ⟨around, a, ha⟩
  · simp only [ha, List.map_nil, List.getLast?_singleton, Option.some.injEq] at h
    simp [ha, h]
  · simp only [ha, List.concat_eq_append, List.map_append, List.map_cons, List.map_nil,
      ← List.cons_append, List.getLast?_concat, Option.some.injEq] at h
    simp [ha, h]

theorem Leads.breaches (h : o.Leads f k) :
    (k = 0 → o.breaches.head? = some f) ∧ (k ≠ 0 → o.breaches = []) := by
  obtain ⟨inner, l, outer, hl, rfl, hf, houter⟩ := h
  constructor
  · intro hk
    rw [List.eq_nil_of_length_eq_zero hk] at hl
    rw [breaches_of_levels (by rw [hl, List.getLast?_concat])]
    exact head?_of_isPrefix l.found_isPrefix hf
  · intro hk
    have hne : outer ≠ [] := by
      rintro rfl
      exact hk rfl
    obtain ⟨outer, m, rfl⟩ := (List.eq_nil_or_concat outer).resolve_left hne
    have hlast : o.levels.getLast? = some m := by
      rw [hl, List.concat_eq_append, ← List.cons_append, ← List.append_assoc,
        List.getLast?_concat]
    rw [breaches_of_levels hlast]
    exact houter m (by simp)

theorem Leads.of_level {line? line?' : Option OpenLine} {level level' : Level}
    {around : List (Level × Token)} (h : Leads f k ⟨line?, level, around⟩)
    (hl : level.found <+: level'.found) : Leads f k ⟨line?', level', around⟩ := by
  obtain ⟨inner, l, outer, he, hk, hf, houter⟩ := h
  cases inner with
  | nil =>
    obtain ⟨rfl, hr⟩ := List.cons.inj he
    exact ⟨[], level', outer, congrArg (level' :: ·) hr, hk, head?_of_isPrefix hl hf, houter⟩
  | cons m inner =>
    obtain ⟨rfl, hr⟩ := List.cons.inj he
    exact ⟨level' :: inner, l, outer, congrArg (level' :: ·) hr, hk, hf, houter⟩

theorem leads_of_close {inner outer : Level} {d : Draft} (opener : Token)
    {around : List (Level × Token)} (hf : inner.breaches.head? = some f)
    (hd : outer.pending = .statement d) (hfound : outer.found = [])
    (ha : ∀ a ∈ around, a.1.breaches = []) : Leads f around.length ⟨none, ⟨outer.nodes,
      outer.faults, .statement (d.addSuite opener inner.settle.nodes inner.settle.faults)⟩,
      around⟩ := by
  have hprefix := Level.found_addSuite hd opener inner.settle.nodes inner.settle.faults
  rw [hfound, List.nil_append] at hprefix
  exact ⟨[], _, _, rfl, by simp, head?_of_isPrefix hprefix hf, by simpa using ha⟩

/-- A first breach stays the first on its level, or becomes the first on the level
around when its suite ends. -/
theorem Leads.step (h : o.Leads f k) (hfits : o.LineFits) (hs : o.step t = some n) :
    ∃ j, n.Leads f j ∧ (j = k ∨ j + 1 = k ∧ n.line? = none ∧ n.around.length = j) := by
  obtain ⟨line?, level, around⟩ := o
  rcases step_spec hs with
    ⟨line, hl, -, rfl⟩ | ⟨line, hl, -, rfl⟩ | ⟨-, -, hb⟩ | ⟨-, -, hb⟩ | ⟨-, -, hb⟩
  · exact ⟨k, h.of_level List.prefix_rfl, Or.inl rfl⟩
  · refine ⟨k, h.of_level ?_, Or.inl rfl⟩
    exact (Level.found_addLine (hfits line hl) _).symm ▸ List.prefix_rfl
  · rcases beginLine_spec hb with ⟨-, -, rfl⟩ | ⟨-, rfl⟩
    · exact ⟨k, h.of_level List.prefix_rfl, Or.inl rfl⟩
    · refine ⟨k, h.of_level ?_, Or.inl rfl⟩
      rw [Level.found_settle]
      exact level.found_isPrefix
  · obtain ⟨d, -, -, rfl⟩ := openSuite_spec hb
    obtain ⟨inner, l, outer, he, hk, hf, houter⟩ := h
    exact ⟨k, ⟨.empty :: inner, l, outer, by rw [List.cons_append, ← he]; rfl, hk, hf, houter⟩,
      Or.inl rfl⟩
  · obtain ⟨e, closed, opener, around', d, he, ha, hd, rfl⟩ := closeSuite_spec hb
    dsimp only at ha
    subst ha
    obtain ⟨inner, l, outer, hlevels, rfl, hf, houter⟩ := h
    have hgrown := Level.found_addSuite hd opener level.settle.nodes level.settle.faults
    rcases inner with _ | ⟨m, _ | ⟨m', inner⟩⟩
    · obtain ⟨rfl, hr⟩ := List.cons.inj hlevels
      dsimp only at hr
      subst hr
      obtain ⟨hclosed, hrest⟩ := List.forall_mem_cons.1 houter
      exact ⟨_, leads_of_close opener (head?_of_isPrefix level.found_isPrefix hf) hd
        (Level.found_eq_nil hclosed) (by simpa using hrest), Or.inr ⟨by simp, rfl, rfl⟩⟩
    · obtain ⟨rfl, hr⟩ := List.cons.inj hlevels
      obtain ⟨rfl, rfl⟩ := List.cons.inj hr
      exact ⟨_, ⟨[], _, _, rfl, rfl, head?_of_isPrefix
        ((List.prefix_append _ _).trans hgrown) hf, houter⟩, Or.inl rfl⟩
    · obtain ⟨rfl, hr⟩ := List.cons.inj hlevels
      obtain ⟨rfl, hrest⟩ := List.cons.inj hr
      have hrest : around'.map (·.1) = inner ++ l :: outer := hrest
      exact ⟨_, ⟨_ :: inner, l, outer, congrArg (_ :: ·) hrest, rfl, hf, houter⟩, Or.inl rfl⟩

/-- A first breach stays the first, on its level or on one that reading gets to. -/
theorem Leads.run (h : o.Leads f k) (hfits : o.LineFits) (hr : o.run ts = (n, rest)) :
    ∃ j, n.Leads f j ∧ j ≤ k ∧ (j = k ∨
      ∃ us m, us <+: ts ∧ o.run us = (m, []) ∧ m.line? = none ∧ m.around.length = j) := by
  induction ts generalizing o k with
  | nil =>
    cases hr
    exact ⟨k, h, Nat.le_refl k, Or.inl rfl⟩
  | cons t ts ih =>
    rw [Outliner.run] at hr
    cases hs : o.step t with
    | none =>
      rw [hs] at hr
      cases hr
      exact ⟨k, h, Nat.le_refl k, Or.inl rfl⟩
    | some m =>
      rw [hs] at hr
      obtain ⟨i, hi, hstep⟩ := h.step hfits hs
      obtain ⟨j, hj, hle, hrun⟩ := ih hi (hfits.step hs) hr
      refine ⟨j, hj, by omega, ?_⟩
      rcases hrun with rfl | ⟨us, p, hus, hp, hend⟩
      · refine hstep.imp_right fun ⟨_, hend⟩ => ⟨[t], m, ?_, run_cons.2 ⟨m, hs, rfl⟩, hend⟩
        exact List.prefix_append [t] ts
      · exact Or.inr ⟨t :: us, p, List.cons_prefix_cons.2 ⟨rfl, hus⟩, run_cons.2 ⟨m, hs, hp⟩, hend⟩

/-- A first breach is the one that is told of, if it is on the outermost level or reading
gets there; else none is. -/
theorem Leads.fate (h : o.Leads f k) (hfits : o.LineFits) (hr : o.run ts = (n, rest))
    {e : StructureError} :
    n.breaches.head? = some e ↔ e = f ∧ (k = 0 ∨ o.Surfaces ts) := by
  have htold : k = 0 ∨ o.Surfaces ts → n.breaches.head? = some f := by
    rintro (rfl | ⟨us, m, ⟨vs, rfl⟩, hm, -, ha⟩)
    · obtain ⟨j, hj, hle, -⟩ := h.run hfits hr
      exact hj.breaches.1 (Nat.le_zero.1 hle)
    · -- with no level around, the breach is on the outermost one for good
      obtain ⟨j, hj, -, -⟩ := h.run hfits hm
      have hzero : j = 0 := by
        obtain ⟨inner, l, outer, hl, rfl, -⟩ := hj
        have hlen := congrArg List.length hl
        simp only [levels, ha, List.map_nil, List.length_append, List.length_cons,
          List.length_nil] at hlen
        omega
      rw [run_append hm] at hr
      obtain ⟨i, hi, hle, -⟩ := hj.run (hfits.run hm) hr
      exact hi.breaches.1 (by omega)
  have huntold : ¬ (k = 0 ∨ o.Surfaces ts) → n.breaches = [] := by
    intro hno
    obtain ⟨j, hj, -, hrun⟩ := h.run hfits hr
    refine hj.breaches.2 fun hzero => hno ?_
    subst hzero
    rcases hrun with rfl | ⟨us, m, hus, hm, hl, ha⟩
    · exact Or.inl rfl
    · exact Or.inr ⟨us, m, hus, hm, hl, List.eq_nil_of_length_eq_zero ha⟩
  by_cases hsurf : k = 0 ∨ o.Surfaces ts
  · simp [htold hsurf, hsurf, eq_comm]
  · simp [huntold hsurf, hsurf]

theorem returns_cons : o.Returns (t :: ts) ↔ ∃ m, o.step t = some m ∧ m.Surfaces ts := by
  constructor
  · rintro ⟨u, us, m, heq, hs, hm⟩
    cases heq
    exact ⟨m, hs, hm⟩
  · rintro ⟨m, hs, hm⟩
    exact ⟨t, ts, m, rfl, hs, hm⟩

theorem surfaces_iff : o.Surfaces ts ↔ o.AtTop ∨ o.Returns ts := by
  constructor
  · rintro ⟨us, m, ⟨vs, rfl⟩, hm, htop⟩
    cases us with
    | nil =>
      cases hm
      exact Or.inl htop
    | cons u us =>
      obtain ⟨k, hs, hm⟩ := run_cons.1 hm
      exact Or.inr ⟨u, us ++ vs, k, rfl, hs, us, m, List.prefix_append us vs, hm, htop⟩
  · rintro (htop | ⟨t, us, k, rfl, hs, vs, m, hvs, hm, htop⟩)
    · exact ⟨[], o, List.nil_prefix, rfl, htop⟩
    · exact ⟨t :: vs, m, List.cons_prefix_cons.2 ⟨rfl, hvs⟩, run_cons.2 ⟨k, hs, hm⟩, htop⟩

theorem surfaces_nil : o.Surfaces [] ↔ o.AtTop := by
  rw [surfaces_iff]
  refine or_iff_left ?_
  rintro ⟨t, us, m, hnil, -⟩
  cases hnil

theorem surfaces_cons :
    o.Surfaces (t :: ts) ↔ o.AtTop ∨ ∃ m, o.step t = some m ∧ m.Surfaces ts := by
  rw [surfaces_iff, returns_cons]

theorem returns_append {us : List Token} (hr : o.run ts = (n, [])) (hts : ts ≠ [])
    (h : n.Surfaces us) : o.Returns (ts ++ us) := by
  obtain ⟨t, ts, rfl⟩ := List.exists_cons_of_ne_nil hts
  obtain ⟨k, hs, hk⟩ := run_cons.1 hr
  obtain ⟨vs, m, hvs, hm, htop⟩ := h
  exact ⟨t, ts ++ us, k, rfl, hs, ts ++ vs, m, (List.prefix_append_right_inj ts).2 hvs,
    by rw [run_append hk, hm], htop⟩

end

end Outliner

end Offside
