import Offside.Statement.Outline

/-!
# The grammar of statements

What the reader has to find, told without a reader: trees of statements, blocks
and suites, the tokens that a tree spells, and the rules that make it one of the
grammar. `Statement.node` is what is kept of a tree.

    program   := statement*
    statement := decorator* header clause*
    header, clause := line suite?
    suite     := INDENT statement+ DEDENT
    line      := OTHER+ NEWLINE

Results:
* `derives_unique`: tokens have one tree at most.
-/
namespace Offside

namespace Grammar

/-- A line: its first token, the others, and the newline. -/
structure Line where
  head : Token
  more : List Token
  stop : Token

mutual
/-- Decorators, the block that they stand before, and the clauses behind it. -/
inductive Statement where
  | mk (decorators : List Line) (header : Block) (clauses : List Block)
/-- A line and the suite that it may have. -/
inductive Block where
  | mk (line : Line) (suite? : Option Suite)
/-- Statements between the tokens that open and close their level. -/
inductive Suite where
  | mk (opener : Token) (body : List Statement) (closer : Token)
end

def Block.line : Block → Line
  | ⟨line, _⟩ => line

/-! ## What a tree spells -/

def Line.tokens (l : Line) : List Token := l.head :: (l.more ++ [l.stop])

mutual
def Statement.tokens : Statement → List Token
  | ⟨decorators, header, clauses⟩ =>
    decorators.flatMap Line.tokens ++ (header.tokens ++ clauses.flatMap (·.tokens))
def Block.tokens : Block → List Token
  | ⟨line, none⟩ => line.tokens
  | ⟨line, some suite⟩ => line.tokens ++ suite.tokens
def Suite.tokens : Suite → List Token
  | ⟨opener, body, closer⟩ => opener :: (body.flatMap (·.tokens) ++ [closer])
end

/-! ## The rules -/

/-- The text of the last token before the newline. -/
def Line.last (l : Line) : Text := (l.more.getLast?.getD l.head).text

/-- Code and a newline, where the first word tells the part of the line. -/
structure Line.Valid (role : Role) (l : Line) : Prop where
  head : l.head.kind = .code
  role : Role.ofWord l.head.text = role
  more : ∀ t ∈ l.more, t.kind = .code
  stop : l.stop.kind = .newline

mutual
/-- Clauses follow only a header whose first word takes them. -/
def Statement.Valid : Statement → Prop
  | ⟨decorators, header, clauses⟩ =>
    (∀ d ∈ decorators, d.Valid .decorator) ∧ header.Valid .header ∧
      (∀ c ∈ clauses, c.Valid .clause) ∧
      (clauses ≠ [] → header.line.head.text ∈ Role.ownerWords)
/-- A line that has a suite ends with a colon. -/
def Block.Valid (role : Role) : Block → Prop
  | ⟨line, none⟩ => line.Valid role
  | ⟨line, some suite⟩ => line.Valid role ∧ line.last = [':'] ∧ suite.Valid
def Suite.Valid : Suite → Prop
  | ⟨opener, body, closer⟩ =>
    opener.kind = .indent ∧ body ≠ [] ∧ (∀ s ∈ body, s.Valid) ∧ closer.kind = .dedent
end

/-- Statements one after another, which the tokens spell. -/
structure Derives (ss : List Statement) (ts : List Token) : Prop where
  valid : ∀ s ∈ ss, s.Valid
  spells : ss.flatMap (·.tokens) = ts

/-! ## What is kept of a tree -/

/-- The lines that a block reaches, where `body` is what its suite holds: that of
its newline, and the last line of the last statement in the suite. -/
def Line.reaches (l : Line) (body : List Node) : List Nat :=
  l.stop.start.line :: (body.getLast?.map (·.endLine)).toList

def largest (ns : List Nat) : Nat := ns.foldr max 0

mutual
/-- A statement starts with its first decorator or else its header, and holds what
its suites hold. -/
def Statement.node : Statement → Node
  | ⟨decorators, header, clauses⟩ =>
    { start := (decorators.head?.getD header.line).head.start
      endLine := largest (header.line.reaches header.body ++
        clauses.flatMap fun c => c.line.reaches c.body)
      body := header.body ++ clauses.flatMap (·.body) }
def Block.body : Block → List Node
  | ⟨_, none⟩ => []
  | ⟨_, some suite⟩ => suite.nodes
def Suite.nodes : Suite → List Node
  | ⟨_, body, _⟩ => body.map (·.node)
end

theorem largest_append (ns ms : List Nat) :
    largest (ns ++ ms) = max (largest ns) (largest ms) := by
  induction ns with
  | nil => simp [largest]
  | cons n ns ih => simp only [largest, List.cons_append, List.foldr_cons] at ih ⊢; omega

/-! ## What a tree begins with -/

theorem Block.line_valid {role : Role} {b : Block} (h : b.Valid role) : b.line.Valid role := by
  obtain ⟨line, suite?⟩ := b
  cases suite? with
  | none => rwa [Block.Valid] at h
  | some suite => rw [Block.Valid] at h; exact h.1

theorem Block.tokens_eq (b : Block) : ∃ ts, b.tokens = b.line.head :: ts := by
  obtain ⟨line, suite?⟩ := b
  cases suite? with
  | none => exact ⟨_, by rw [Block.tokens]; rfl⟩
  | some suite => exact ⟨_, by rw [Block.tokens]; rfl⟩

theorem Statement.tokens_eq {s : Statement} (h : s.Valid) : ∃ t ts, s.tokens = t :: ts ∧
    t.kind = .code ∧ Role.ofWord t.text ≠ .clause := by
  obtain ⟨decorators, header, clauses⟩ := s
  rw [Statement.Valid] at h
  obtain ⟨hd, hh, -, -⟩ := h
  rw [Statement.tokens]
  cases decorators with
  | nil =>
    obtain ⟨ts, ht⟩ := header.tokens_eq
    have hline := Block.line_valid hh
    exact ⟨_, _, by rw [ht]; rfl, hline.head, by rw [hline.role]; decide⟩
  | cons d ds =>
    have hline := hd d (by simp)
    exact ⟨_, _, rfl, hline.head, by rw [hline.role]; decide⟩

/-! ## Tokens have one tree at most -/

/-- The token goes on with a block: it opens a suite. -/
def GoesOnBlock (t : Token) : Prop := t.kind = .indent

/-- The token goes on with a statement: it opens a suite, or begins a clause. -/
def GoesOnStatement (t : Token) : Prop :=
  t.kind = .indent ∨ t.kind = .code ∧ Role.ofWord t.text = .clause

/-- The tokens begin with none that `p` holds of. -/
def Avoids (p : Token → Prop) (ts : List Token) : Prop := ∀ t ∈ ts.head?, ¬ p t

theorem Avoids.mono {p q : Token → Prop} {ts : List Token} (h : Avoids q ts)
    (hpq : ∀ t, p t → q t) : Avoids p ts := fun t ht hp => h t ht (hpq t hp)

theorem avoids_cons {p : Token → Prop} {t : Token} {ts : List Token} :
    Avoids p (t :: ts) ↔ ¬ p t := by
  simp [Avoids]

section lists

variable {α : Type} {spell : α → List Token} {P : α → Prop}
  {as bs : List α} {r s : List Token}

theorem avoids_flatMap {ends : Token → Prop}
    (hbegins : ∀ a, P a → ∃ t ts, spell a = t :: ts ∧ ¬ ends t)
    (ha : ∀ a ∈ as, P a) (hr : Avoids ends r) : Avoids ends (as.flatMap spell ++ r) := by
  cases as with
  | nil => exact hr
  | cons a as =>
    obtain ⟨t, ts, ht, hend⟩ := hbegins a (ha a (by simp))
    rw [List.flatMap_cons, ht]
    exact avoids_cons.2 hend

theorem unique_flatMap (begins ends : Token → Prop)
    (hunique : ∀ a ∈ as, ∀ b r s, P a → P b → spell a ++ r = spell b ++ s →
      Avoids ends r → Avoids ends s → a = b ∧ r = s)
    (hbegins : ∀ a, P a → ∃ t ts, spell a = t :: ts ∧ begins t ∧ ¬ ends t)
    (ha : ∀ a ∈ as, P a) (hb : ∀ b ∈ bs, P b)
    (h : as.flatMap spell ++ r = bs.flatMap spell ++ s)
    (hr : Avoids begins r) (hs : Avoids begins s) (hr' : Avoids ends r) (hs' : Avoids ends s) :
    as = bs ∧ r = s := by
  have hends : ∀ a, P a → ∃ t ts, spell a = t :: ts ∧ ¬ ends t := fun a ha => by
    obtain ⟨t, ts, ht, -, hend⟩ := hbegins a ha
    exact ⟨t, ts, ht, hend⟩
  have hmore : ∀ {c : α} {cs : List α} {u : List Token}, P c →
      ¬ Avoids begins ((c :: cs).flatMap spell ++ u) := by
    intro c cs u hc
    obtain ⟨t, ts, ht, hbegin, -⟩ := hbegins c hc
    rw [List.flatMap_cons, ht]
    exact fun hav => avoids_cons.1 hav hbegin
  induction as generalizing bs with
  | nil =>
    cases bs with
    | nil => exact ⟨rfl, h⟩
    | cons b bs =>
      have heq : r = (b :: bs).flatMap spell ++ s := h
      exact absurd (heq ▸ hr) (hmore (hb b (by simp)))
  | cons a as ih =>
    cases bs with
    | nil =>
      have heq : (a :: as).flatMap spell ++ r = s := h
      exact absurd (heq ▸ hs) (hmore (ha a (by simp)))
    | cons b bs =>
      have ha' : ∀ x ∈ as, P x := fun x hx => ha x (by simp [hx])
      have hb' : ∀ x ∈ bs, P x := fun x hx => hb x (by simp [hx])
      rw [List.flatMap_cons, List.flatMap_cons, List.append_assoc, List.append_assoc] at h
      obtain ⟨rfl, hrest⟩ := hunique a (by simp) b _ _ (ha a (by simp)) (hb b (by simp)) h
        (avoids_flatMap hends ha' hr') (avoids_flatMap hends hb' hs')
      obtain ⟨rfl, hrs⟩ := ih (fun x hx => hunique x (by simp [hx])) ha' hb' hrest
      exact ⟨rfl, hrs⟩

end lists

theorem Line.unique {role role' : Role} {l m : Line} {r s : List Token} (hl : l.Valid role)
    (hm : m.Valid role') (h : l.tokens ++ r = m.tokens ++ s) : l = m ∧ r = s := by
  obtain ⟨head, more, stop⟩ := l
  obtain ⟨head', more', stop'⟩ := m
  simp only [Line.tokens, List.cons_append, List.append_assoc, List.cons.injEq] at h
  obtain ⟨rfl, h⟩ := h
  have hcode := hl.more
  have hcode' := hm.more
  have hstop := hl.stop
  have hstop' := hm.stop
  dsimp only at hcode hcode' hstop hstop'
  suffices more = more' ∧ stop = stop' ∧ r = s by
    obtain ⟨rfl, rfl, rfl⟩ := this
    exact ⟨rfl, rfl⟩
  clear hl hm
  induction more generalizing more' with
  | nil =>
    cases more' with
    | nil => obtain ⟨rfl, rfl⟩ := List.cons.inj h; exact ⟨rfl, rfl, rfl⟩
    | cons t more' =>
      obtain ⟨rfl, -⟩ := List.cons.inj h
      rw [hcode' _ (by simp)] at hstop
      cases hstop
  | cons t more ih =>
    cases more' with
    | nil =>
      obtain ⟨rfl, -⟩ := List.cons.inj h
      rw [hcode _ (by simp)] at hstop'
      cases hstop'
    | cons t' more' =>
      obtain ⟨rfl, htail⟩ := List.cons.inj h
      obtain ⟨rfl, hrest⟩ := ih more' htail (fun u hu => hcode u (by simp [hu]))
        fun u hu => hcode' u (by simp [hu])
      exact ⟨rfl, hrest⟩

theorem statement_begins (s : Statement) (h : s.Valid) : ∃ t ts, s.tokens = t :: ts ∧
    t.kind = .code ∧ ¬ GoesOnStatement t := by
  obtain ⟨t, ts, ht, hk, hrole⟩ := Statement.tokens_eq h
  exact ⟨t, ts, ht, hk, by simp [GoesOnStatement, hk, hrole]⟩

theorem Block.begins {role : Role} {b : Block} (h : b.Valid role) : ∃ t ts, b.tokens = t :: ts ∧
    t.kind = .code ∧ Role.ofWord t.text = role := by
  obtain ⟨ts, ht⟩ := b.tokens_eq
  exact ⟨_, ts, ht, (Block.line_valid h).head, (Block.line_valid h).role⟩

theorem not_goesOnBlock_of_code {t : Token} (h : t.kind = .code) : ¬ GoesOnBlock t := by
  intro hk
  rw [GoesOnBlock, h] at hk
  cases hk

theorem Suite.not_avoids {s : Suite} {r : List Token} (h : s.Valid) :
    ¬ Avoids GoesOnBlock (s.tokens ++ r) := by
  obtain ⟨opener, body, closer⟩ := s
  rw [Suite.Valid] at h
  rw [Suite.tokens]
  exact fun hav => avoids_cons.1 hav h.1

mutual
theorem Statement.unique : (s s' : Statement) → (r r' : List Token) → s.Valid → s'.Valid →
    s.tokens ++ r = s'.tokens ++ r' → Avoids GoesOnStatement r → Avoids GoesOnStatement r' →
    s = s' ∧ r = r'
  | ⟨ds, h, cs⟩, ⟨ds', h', cs'⟩, r, r', hv, hv', heq, hr, hr' => by
    have hheader := h.unique h'
    have hclauses := fun c (_ : c ∈ cs) => c.unique
    rw [Statement.Valid] at hv hv'
    obtain ⟨hd, hh, hc, -⟩ := hv
    obtain ⟨hd', hh', hc', -⟩ := hv'
    have hblock : ∀ {r : List Token}, Avoids GoesOnStatement r → Avoids GoesOnBlock r :=
      fun hr => hr.mono fun _ => Or.inl
    have hfollow : ∀ {b : Block} {u : List Token}, b.Valid .header →
        Avoids (fun t => Role.ofWord t.text = .decorator) (b.tokens ++ u) := by
      intro b u hb
      obtain ⟨t, ts, ht, -, hrole⟩ := Block.begins hb
      rw [ht]
      exact avoids_cons.2 (by rw [hrole]; decide)
    have hclause : ∀ c : Block, c.Valid .clause →
        ∃ t ts, c.tokens = t :: ts ∧ GoesOnStatement t ∧ ¬ GoesOnBlock t := by
      intro c hc
      obtain ⟨t, ts, ht, hk, hrole⟩ := Block.begins hc
      exact ⟨t, ts, ht, Or.inr ⟨hk, hrole⟩, not_goesOnBlock_of_code hk⟩
    have hends : ∀ c : Block, c.Valid .clause → ∃ t ts, c.tokens = t :: ts ∧ ¬ GoesOnBlock t := by
      intro c hc
      obtain ⟨t, ts, ht, -, hend⟩ := hclause c hc
      exact ⟨t, ts, ht, hend⟩
    rw [Statement.tokens, Statement.tokens, List.append_assoc, List.append_assoc, List.append_assoc,
      List.append_assoc] at heq
    obtain ⟨rfl, hrest⟩ := unique_flatMap (P := Line.Valid .decorator)
      (fun t => Role.ofWord t.text = .decorator) (fun _ => False)
      (fun _ _ _ _ _ hl hl' h _ _ => Line.unique hl hl' h)
      (fun l hl => ⟨l.head, _, rfl, hl.role, not_false⟩) hd hd' heq (hfollow hh) (hfollow hh')
      (fun _ _ => not_false) (fun _ _ => not_false)
    obtain ⟨rfl, htail⟩ := hheader .header .header _ _ hh hh' hrest
      (avoids_flatMap hends hc (hblock hr)) (avoids_flatMap hends hc' (hblock hr'))
    obtain ⟨rfl, hrr⟩ := unique_flatMap (P := Block.Valid .clause) GoesOnStatement GoesOnBlock
      (fun c hm c' r r' => hclauses c hm c' .clause .clause r r') hclause hc hc' htail hr hr'
      (hblock hr) (hblock hr')
    exact ⟨rfl, hrr⟩
theorem Block.unique : (b b' : Block) → (role role' : Role) → (r r' : List Token) →
    b.Valid role → b'.Valid role' → b.tokens ++ r = b'.tokens ++ r' → Avoids GoesOnBlock r →
    Avoids GoesOnBlock r' → b = b' ∧ r = r'
  | ⟨l, none⟩, ⟨l', none⟩, role, role', r, r', hv, hv', heq, _, _ => by
    rw [Block.Valid] at hv hv'
    rw [Block.tokens, Block.tokens] at heq
    obtain ⟨rfl, hrest⟩ := Line.unique hv hv' heq
    exact ⟨rfl, hrest⟩
  | ⟨l, none⟩, ⟨l', some s'⟩, role, role', r, r', hv, hv', heq, hr, _ => by
    simp only [Block.Valid] at hv hv'
    simp only [Block.tokens, List.append_assoc] at heq
    obtain ⟨-, rfl⟩ := Line.unique hv hv'.1 heq
    exact absurd hr (Suite.not_avoids hv'.2.2)
  | ⟨l, some s⟩, ⟨l', none⟩, role, role', r, r', hv, hv', heq, _, hr' => by
    simp only [Block.Valid] at hv hv'
    simp only [Block.tokens, List.append_assoc] at heq
    obtain ⟨-, rfl⟩ := Line.unique hv.1 hv' heq
    exact absurd hr' (Suite.not_avoids hv.2.2)
  | ⟨l, some s⟩, ⟨l', some s'⟩, role, role', r, r', hv, hv', heq, _, _ => by
    have hsuite := s.unique s'
    rw [Block.Valid] at hv hv'
    rw [Block.tokens, Block.tokens, List.append_assoc, List.append_assoc] at heq
    obtain ⟨rfl, hrest⟩ := Line.unique hv.1 hv'.1 heq
    obtain ⟨rfl, hrr⟩ := hsuite _ _ hv.2.2 hv'.2.2 hrest
    exact ⟨rfl, hrr⟩
theorem Suite.unique : (s s' : Suite) → (r r' : List Token) → s.Valid → s'.Valid →
    s.tokens ++ r = s'.tokens ++ r' → s = s' ∧ r = r'
  | ⟨opener, body, closer⟩, ⟨opener', body', closer'⟩, r, r', hv, hv', heq => by
    have hbody := fun s (_ : s ∈ body) => s.unique
    rw [Suite.Valid] at hv hv'
    obtain ⟨-, -, hb, hclose⟩ := hv
    obtain ⟨-, -, hb', hclose'⟩ := hv'
    rw [Suite.tokens, Suite.tokens, List.cons_append, List.cons_append, List.append_assoc,
      List.append_assoc] at heq
    obtain ⟨rfl, hrest⟩ := List.cons.inj heq
    have hend : ∀ {t : Token} {u : List Token}, t.kind = .dedent →
        Avoids (fun t => t.kind = .code) ([t] ++ u) ∧ Avoids GoesOnStatement ([t] ++ u) := by
      intro t u ht
      exact ⟨avoids_cons.2 (by simp [ht]), avoids_cons.2 (by simp [GoesOnStatement, ht])⟩
    obtain ⟨rfl, htail⟩ := unique_flatMap (P := Statement.Valid) (fun t => t.kind = .code)
      GoesOnStatement (fun s hm s' r r' => hbody s hm s' r r') statement_begins hb hb' hrest
      (hend hclose).1 (hend hclose').1 (hend hclose).2 (hend hclose').2
    obtain ⟨rfl, hrr⟩ := List.cons.inj htail
    exact ⟨rfl, hrr⟩
end

/-- Tokens have one tree at most. -/
theorem derives_unique {ss ss' : List Statement} {ts : List Token} (h : Derives ss ts)
    (h' : Derives ss' ts) : ss = ss' := by
  have heq : ss.flatMap (·.tokens) ++ [] = ss'.flatMap (·.tokens) ++ [] := by
    rw [h.spells, h'.spells]
  exact (unique_flatMap (P := Statement.Valid) (fun t => t.kind = .code) GoesOnStatement
    (fun s _ s' r r' => s.unique s' r r') statement_begins h.valid h'.valid heq
    nofun nofun nofun nofun).1

end Grammar

end Offside
