import Offside.Statement.Outline

/-!
# Reading a stream

What a run of the reader comes to, and when a stream has statements: all of it
is read, no breach is left, and nothing more is waited for.

Results:
* `Outliner.run_append`: reading goes on where it stopped;
* `Outliner.step_spec`: what a token can come to;
* `Level.breaches_eq_nil`: where a level holds no breach;
* `outline_eq_ok`: when a stream has statements.
-/
namespace Offside

/-- Decorators wait for their statement. -/
def Pending.isDecorated : Pending → Bool
  | .decorated _ => true
  | _ => false

/-- A statement keeps both rules if its suites do, and its header takes the clauses
that it has. -/
theorem Draft.breaches_eq_nil {d : Draft} :
    d.breaches = [] ↔ d.faults = [] ∧ (d.clause? = none ∨ d.takesClauses = true) := by
  unfold Draft.breaches
  cases d.clause? with
  | none => simp
  | some head => cases d.takesClauses <;> simp

theorem Level.breaches_eq_nil {l : Level} :
    l.breaches = [] ↔ l.faults = [] ∧ ∀ d, l.pending = .statement d → d.breaches = [] := by
  unfold Level.breaches Level.settle
  cases hp : l.pending <;> simp

theorem Level.settle_settle (l : Level) : l.settle.settle = l.settle := by
  obtain ⟨nodes, faults, pending⟩ := l
  cases pending <;> rfl

theorem Level.settle_pending {l : Level} (h : l.pending.isDecorated = false) :
    l.settle.pending = .nothing := by
  unfold settle
  cases hp : l.pending with
  | nothing => simp [hp]
  | decorated p => rw [hp] at h; cases h
  | statement d => rfl

namespace Outliner

theorem run_cons {o n : Outliner} {t : Token} {ts : List Token} :
    o.run (t :: ts) = (n, []) ↔ ∃ m, o.step t = some m ∧ m.run ts = (n, []) := by
  rw [run]
  cases o.step t <;> simp

/-- Reading goes on where it stopped. -/
theorem run_append {o m : Outliner} {ts us : List Token} (h : o.run ts = (m, [])) :
    o.run (ts ++ us) = m.run us := by
  induction ts generalizing o with
  | nil => cases h; rfl
  | cons t ts ih =>
    obtain ⟨k, hs, hr⟩ := run_cons.1 h
    rw [List.cons_append, run, hs]
    exact ih hr

/-- What is read of a stream, and the token that cannot come behind it. -/
theorem run_spec {o n : Outliner} {ts rest : List Token} (h : o.run ts = (n, rest)) :
    ∃ us, ts = us ++ rest ∧ o.run us = (n, []) ∧ ∀ t ∈ rest.head?, n.step t = none := by
  induction ts generalizing o with
  | nil => cases h; exact ⟨[], rfl, rfl, nofun⟩
  | cons t ts ih =>
    rw [run] at h
    split at h
    · next m hs =>
      obtain ⟨us, rfl, hr, hstop⟩ := ih h
      exact ⟨t :: us, rfl, run_cons.2 ⟨m, hs, hr⟩, hstop⟩
    · next hs =>
      cases h
      exact ⟨[], rfl, rfl, fun u hu => by cases hu; exact hs⟩

theorem nodes_eq_some {o : Outliner} {nodes : List Node} :
    o.nodes? = some nodes ↔ o.line? = none ∧ o.around = [] ∧
      o.level.pending.isDecorated = false ∧ nodes = o.level.settle.nodes := by
  unfold nodes?
  cases hl : o.line? <;> cases ha : o.around <;> cases hp : o.level.pending <;>
    simp [Pending.isDecorated, eq_comm]

/-! ## What a token can come to -/

section

variable {o n : Outliner} {t : Token}

theorem beginLine_spec (h : o.beginLine t = some n) :
    (Role.ofWord t.text = .clause ∧ (∃ d, o.level.pending = .statement d) ∧
      n = ⟨some ⟨.clause, t, t.text⟩, o.level, o.around⟩) ∨
    (Role.ofWord t.text ≠ .clause ∧
      n = ⟨some ⟨.ofWord t.text, t, t.text⟩, o.level.settle, o.around⟩) := by
  unfold beginLine at h
  cases hr : Role.ofWord t.text with
  | clause =>
    cases hp : o.level.pending with
    | statement d =>
      simp only [hr, hp, Option.some.injEq] at h
      exact Or.inl ⟨rfl, ⟨d, rfl⟩, h.symm⟩
    | nothing | decorated p => simp [hr, hp] at h
  | header | decorator =>
    simp only [hr, Option.some.injEq] at h
    exact Or.inr ⟨by simp, h.symm⟩

theorem openSuite_spec (h : o.openSuite t = some n) :
    ∃ d, o.level.pending = .statement d ∧ d.afterLine?.isSome = true ∧
      n = ⟨none, .empty, (o.level, t) :: o.around⟩ := by
  unfold openSuite at h
  cases hp : o.level.pending with
  | statement d =>
    simp only [hp] at h
    split at h
    · next ha => cases h; exact ⟨d, rfl, ha, rfl⟩
    · cases h
  | nothing | decorated p => simp [hp] at h

theorem closeSuite_spec (h : o.closeSuite = some n) :
    ∃ e outer opener around d, o.level.pending = .statement e ∧
      o.around = (outer, opener) :: around ∧ outer.pending = .statement d ∧
      n = ⟨none, ⟨outer.nodes, outer.faults, .statement
        (d.addSuite opener o.level.settle.nodes o.level.settle.faults)⟩, around⟩ := by
  unfold closeSuite at h
  split at h
  · next e outer opener around he ha =>
    split at h
    · next d hd => cases h; exact ⟨e, outer, opener, around, d, he, ha, hd, rfl⟩
    · cases h
  · cases h

/-- What a token can come to. -/
theorem step_spec (h : o.step t = some n) :
    (∃ line, o.line? = some line ∧ t.kind = .code ∧
      n = ⟨some { line with last := t.text }, o.level, o.around⟩) ∨
    (∃ line, o.line? = some line ∧ t.kind = .newline ∧
      n = ⟨none, o.level.addLine line t.start.line, o.around⟩) ∨
    (o.line? = none ∧ t.kind = .code ∧ o.beginLine t = some n) ∨
    (o.line? = none ∧ t.kind = .indent ∧ o.openSuite t = some n) ∨
    (o.line? = none ∧ t.kind = .dedent ∧ o.closeSuite = some n) := by
  unfold step at h
  cases hl : o.line? with
  | some line =>
    simp only [hl] at h
    cases hk : t.kind <;> simp only [hk] at h <;> cases h
    · exact Or.inr (Or.inl ⟨line, rfl, rfl, rfl⟩)
    · exact Or.inl ⟨line, rfl, rfl, rfl⟩
  | none =>
    simp only [hl] at h
    cases hk : t.kind <;> simp only [hk] at h
    · cases h
    · cases h
    · cases h
    · exact Or.inr (Or.inr (Or.inr (Or.inl ⟨rfl, rfl, h⟩)))
    · exact Or.inr (Or.inr (Or.inr (Or.inr ⟨rfl, rfl, h⟩)))
    · cases h
    · exact Or.inr (Or.inr (Or.inl ⟨rfl, rfl, h⟩))
    · cases h

end

end Outliner

/-! ## Whole streams -/

theorem outline_eq_ok {ts : List Token} {nodes : List Node} :
    outline ts = .ok nodes ↔ ∃ n : Outliner,
      Outliner.start.run (Token.significant ts) = (n, []) ∧ n.breaches = [] ∧
        n.nodes? = some nodes := by
  unfold outline
  generalize Outliner.start.run (Token.significant ts) = found
  obtain ⟨n, rest⟩ := found
  dsimp only
  cases hb : n.breaches <;> cases rest <;> cases hn : n.nodes? <;> simp [hb, hn]

end Offside
