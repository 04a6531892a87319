import Offside.Proofs.Normalize.Partition
import Mathlib.Data.List.Flatten

/-!
# Lines of nested statements

The statements in the suites of a statement stand behind its first line, one below
the other, and it ends no higher than the last of them. Where tokens stand one
before the other this needs no more than where newlines are: every statement ends
with one, and one stands between a statement and what is in its suites.

Results:
* `Statement.newline_le`, `Statement.lastLine`: a statement ends with the line of
  its last newline;
* `Statement.laminar`: the lines of a statement and of those in it;
* `outline_laminar`: the same for the statements of a text, at any depth.
-/
namespace Offside

open Lexeme Grammar

/-! ## Nodes -/

/-- The statement `n` ends on a line above `m`. -/
def Node.Above (n m : Node) : Prop := n.endLine < m.start.line

/-- The lines on which a statement starts and ends. -/
def Node.span (n : Node) : Nat × Nat := (n.start.line, n.endLine)

/-- `m` is `n` or lies in it, at any depth. -/
inductive Node.Within : Node → Node → Prop
  | self (n : Node) : Within n n
  | inside {m c n : Node} : c ∈ n.body → Within m c → Within m n

/-- The lines of a statement and of those that it holds. -/
structure Node.Laminar (n : Node) : Prop where
  order : n.start.line ≤ n.endLine
  within : ∀ m ∈ n.body, n.start.line < m.start.line ∧ m.endLine ≤ n.endLine
  apart : n.body.Pairwise Node.Above

/-- The line of the last newline among tokens. -/
def lastLine (ts : List Token) : Option Nat :=
  (ts.filter fun t => t.kind = .newline).getLast?.map (·.start.line)

theorem sublist_flatMap_of_mem {α β : Type} {f : α → List β} {a : α} {as : List α} (h : a ∈ as) :
    (f a).Sublist (as.flatMap f) :=
  List.sublist_flatten_of_mem (List.mem_map_of_mem h)

namespace Grammar

/-! ## Statements in statements -/

/-- The statements in the suite of a block, if it has one. -/
def Block.children : Block → List Statement
  | ⟨_, none⟩ => []
  | ⟨_, some ⟨_, body, _⟩⟩ => body

/-- The statements in the suites of a statement. -/
def Statement.children : Statement → List Statement
  | ⟨_, header, clauses⟩ => header.children ++ clauses.flatMap Block.children

/-- `q` is `s` or stands in its suites, at any depth. -/
inductive Statement.Part : Statement → Statement → Prop
  | self (s : Statement) : Part s s
  | inside {q c s : Statement} : c ∈ s.children → Part q c → Part q s

theorem Block.body_eq (b : Block) : b.body = b.children.map (·.node) := by
  obtain ⟨line, suite?⟩ := b
  cases suite? with
  | none => rw [Block.body]; rfl
  | some suite =>
    obtain ⟨opener, body, closer⟩ := suite
    rw [Block.body, Suite.nodes]
    rfl

theorem Statement.body_eq (s : Statement) : s.node.body = s.children.map (·.node) := by
  obtain ⟨decorators, header, clauses⟩ := s
  have hclauses : clauses.flatMap Block.body =
      (clauses.flatMap Block.children).map (·.node) := by
    rw [List.map_flatMap]
    exact congrArg (List.flatMap · clauses) (funext Block.body_eq)
  rw [Statement.node, Statement.children, List.map_append, ← hclauses, ← Block.body_eq]

theorem Block.children_valid {role : Role} {b : Block} (h : b.Valid role) :
    ∀ c ∈ b.children, c.Valid := by
  obtain ⟨line, suite?⟩ := b
  cases suite? with
  | none => exact nofun
  | some suite =>
    obtain ⟨opener, body, closer⟩ := suite
    rw [Block.Valid, Suite.Valid] at h
    exact h.2.2.2.2.1

theorem Statement.children_valid {s : Statement} (h : s.Valid) : ∀ c ∈ s.children, c.Valid := by
  obtain ⟨decorators, header, clauses⟩ := s
  rw [Statement.Valid] at h
  intro c hc
  rcases List.mem_append.1 hc with hc | hc
  · exact Block.children_valid h.2.1 c hc
  · obtain ⟨b, hb, hc⟩ := List.mem_flatMap.1 hc
    exact Block.children_valid (h.2.2.1 b hb) c hc

theorem Block.children_sublist (b : Block) :
    (b.line.stop :: b.children.flatMap (·.tokens)).Sublist b.tokens := by
  obtain ⟨line, suite?⟩ := b
  have hline : [line.stop].Sublist line.tokens := by simp [Line.tokens]
  cases suite? with
  | none =>
    rw [Block.tokens]
    exact hline
  | some suite =>
    obtain ⟨opener, body, closer⟩ := suite
    rw [Block.tokens, Suite.tokens]
    exact hline.append ((List.sublist_append_left _ _).cons _)

theorem Statement.children_sublist (s : Statement) :
    (s.children.flatMap (·.tokens)).Sublist s.tokens := by
  obtain ⟨decorators, header, clauses⟩ := s
  have hblock : ∀ b : Block, (b.children.flatMap (·.tokens)).Sublist b.tokens := fun b =>
    (List.sublist_cons_self _ _).trans b.children_sublist
  rw [Statement.children, Statement.tokens, List.flatMap_append, List.flatMap_assoc]
  exact ((hblock header).append (List.Sublist.flatMap_right clauses fun c _ => hblock c)).trans
    (List.sublist_append_right _ _)

theorem Statement.exists_newline_before {s c : Statement} (h : s.Valid) (hc : c ∈ s.children) :
    ∃ u : Token, u.kind = .newline ∧ (u :: c.tokens).Sublist s.tokens := by
  obtain ⟨decorators, header, clauses⟩ := s
  rw [Statement.Valid] at h
  have hblock : ∀ (b : Block) (role : Role), b.Valid role → c ∈ b.children →
      ∃ u : Token, u.kind = .newline ∧ (u :: c.tokens).Sublist b.tokens := by
    intro b role hb hc
    refine ⟨b.line.stop, (Block.line_valid hb).stop, List.Sublist.trans ?_ b.children_sublist⟩
    exact (sublist_flatMap_of_mem hc).cons_cons _
  rw [Statement.tokens]
  rcases List.mem_append.1 hc with hc | hc
  · obtain ⟨u, hu, hsub⟩ := hblock header .header h.2.1 hc
    exact ⟨u, hu, (hsub.trans (List.sublist_append_left _ _)).trans (List.sublist_append_right _ _)⟩
  · obtain ⟨b, hb, hc⟩ := List.mem_flatMap.1 hc
    obtain ⟨u, hu, hsub⟩ := hblock b .clause (h.2.2.1 b hb) hc
    exact ⟨u, hu, ((hsub.trans (sublist_flatMap_of_mem hb)).trans
      (List.sublist_append_right _ _)).trans (List.sublist_append_right _ _)⟩

/-! ## The last newline -/

theorem lastLine_eq {ts : List Token} {k : Nat} (hpair : ts.Pairwise Token.Precedes)
    (hends : EndsLine ts k) (hle : ∀ u ∈ ts, u.kind = .newline → u.start.line ≤ k) :
    lastLine ts = some k := by
  obtain ⟨u, hu, hk, rfl⟩ := hends
  have hmem : u ∈ ts.filter fun t => t.kind = .newline := List.mem_filter.2 ⟨hu, by simpa using hk⟩
  have hpair' := hpair.filter fun t => t.kind = .newline
  have hle' : ∀ w ∈ ts.filter fun t => t.kind = .newline, w.start.line ≤ u.start.line :=
    fun w hw => hle w (List.mem_filter.1 hw).1 (by simpa using (List.mem_filter.1 hw).2)
  rw [lastLine]
  rcases List.eq_nil_or_concat (ts.filter fun t => t.kind = .newline) with h | ⟨init, w, h⟩ <;>
    rw [h] at hmem hpair' hle'
  · cases hmem
  · rw [List.concat_eq_append] at h hmem hpair' hle'
    rw [h, List.getLast?_concat, Option.map_some]
    rcases List.mem_append.1 hmem with hm | hm
    · have hlt := ((List.pairwise_append.1 hpair').2.2 u hm w (by simp)).2 hk
      have := hle' w (by simp)
      omega
    · rw [List.mem_singleton.1 hm]

theorem Line.newline_eq {role : Role} {l : Line} (h : l.Valid role) {u : Token} (hu : u ∈ l.tokens)
    (hk : u.kind = .newline) : u = l.stop := by
  rcases List.mem_cons.1 hu with rfl | hu
  · rw [h.head] at hk
    cases hk
  rcases List.mem_append.1 hu with hu | hu
  · rw [h.more u hu] at hk
    cases hk
  · exact List.mem_singleton.1 hu

theorem le_largest {n : Nat} {ns : List Nat} (h : n ∈ ns) : n ≤ largest ns := by
  induction ns with
  | nil => cases h
  | cons m ns ih =>
    rcases List.mem_cons.1 h with rfl | h
    · exact Nat.le_max_left _ _
    · exact Nat.le_trans (ih h) (Nat.le_max_right _ _)

theorem stop_mem_reaches (l : Line) (body : List Node) : l.stop.start.line ∈ l.reaches body :=
  List.mem_cons_self

mutual
/-- No newline of a statement stands below its last line. -/
theorem Statement.newline_le : (s : Statement) → s.Valid → s.tokens.Pairwise Token.Precedes →
    ∀ u ∈ s.tokens, u.kind = .newline → u.start.line ≤ s.node.endLine
  | ⟨decorators, header, clauses⟩, h, hpair, u, hu, hk => by
    have hheader := header.newline_le .header
    have hclauses := fun c (_ : c ∈ clauses) => c.newline_le .clause
    rw [Statement.Valid] at h
    obtain ⟨-, hh, hc, -⟩ := h
    rw [Statement.tokens] at hpair hu
    obtain ⟨-, hpair, hbefore⟩ := List.pairwise_append.1 hpair
    obtain ⟨hpairh, hpairc, -⟩ := List.pairwise_append.1 hpair
    suffices ∃ k ∈ header.line.reaches header.body ++
        clauses.flatMap (fun c => c.line.reaches c.body), u.start.line ≤ k by
      obtain ⟨k, hkm, hle⟩ := this
      rw [Statement.node]
      exact Nat.le_trans hle (le_largest hkm)
    rcases List.mem_append.1 hu with hu | hu
    · -- decorators stand above the line of the header
      have hstop : header.line.stop ∈ header.tokens := header.children_sublist.subset (by simp)
      have hlt := (hbefore u hu _ (List.mem_append_left _ hstop)).2 hk
      exact ⟨_, List.mem_append_left _ (stop_mem_reaches _ _), Nat.le_of_lt hlt⟩
    rcases List.mem_append.1 hu with hu | hu
    · obtain ⟨k, hkm, hle⟩ := hheader hh hpairh u hu hk
      exact ⟨k, List.mem_append_left _ hkm, hle⟩
    · obtain ⟨c, hcm, hu⟩ := List.mem_flatMap.1 hu
      have hpairc' := (List.pairwise_flatMap.1 hpairc).1 c hcm
      obtain ⟨k, hkm, hle⟩ := hclauses c hcm (hc c hcm) hpairc' u hu hk
      exact ⟨k, List.mem_append_right _ (List.mem_flatMap.2 ⟨c, hcm, hkm⟩), hle⟩
/-- No newline of a block stands below all lines that it reaches. -/
theorem Block.newline_le : (b : Block) → (role : Role) → b.Valid role →
    b.tokens.Pairwise Token.Precedes → ∀ u ∈ b.tokens, u.kind = .newline →
      ∃ k ∈ b.line.reaches b.body, u.start.line ≤ k
  | ⟨line, none⟩, role, h, hpair, u, hu, hk => by
    rw [Block.Valid] at h
    rw [Block.tokens] at hu
    rw [Line.newline_eq h hu hk]
    exact ⟨_, stop_mem_reaches _ _, Nat.le_refl _⟩
  | ⟨line, some suite⟩, role, h, hpair, u, hu, hk => by
    have hsuite := suite.newline_le
    rw [Block.Valid] at h
    rw [Block.tokens] at hu hpair
    rcases List.mem_append.1 hu with hu | hu
    · rw [Line.newline_eq h.1 hu hk]
      exact ⟨_, stop_mem_reaches _ _, Nat.le_refl _⟩
    · obtain ⟨n, hn, hle⟩ := hsuite h.2.2 (List.pairwise_append.1 hpair).2.1 u hu hk
      rw [Block.body, Line.reaches]
      exact ⟨n.endLine, by simp [Option.mem_def.1 hn], hle⟩
/-- No newline of a suite stands below the last line of its last statement. -/
theorem Suite.newline_le : (s : Suite) → s.Valid → s.tokens.Pairwise Token.Precedes →
    ∀ u ∈ s.tokens, u.kind = .newline → ∃ n ∈ s.nodes.getLast?, u.start.line ≤ n.endLine
  | ⟨opener, body, closer⟩, h, hpair, u, hu, hk => by
    have hbody := fun s (_ : s ∈ body) => s.newline_le
    rw [Suite.Valid] at h
    obtain ⟨hopen, hne, hv, hclose⟩ := h
    rw [Suite.tokens] at hpair hu
    have hpair' := (List.pairwise_append.1 (List.pairwise_cons.1 hpair).2).1
    have hu' : u ∈ body.flatMap (·.tokens) := by
      rcases List.mem_cons.1 hu with rfl | hu
      · rw [hopen] at hk
        cases hk
      · rcases List.mem_append.1 hu with hu | hu
        · exact hu
        · rw [List.mem_singleton.1 hu, hclose] at hk
          cases hk
    obtain ⟨init, last, rfl⟩ := (List.eq_nil_or_concat body).resolve_left hne
    rw [List.concat_eq_append] at hbody hv hpair' hu' ⊢
    refine ⟨last.node, by simp [Suite.nodes], ?_⟩
    rw [List.flatMap_append, List.flatMap_singleton] at hpair' hu'
    obtain ⟨-, hpairl, hbefore⟩ := List.pairwise_append.1 hpair'
    rcases List.mem_append.1 hu' with hu' | hu'
    · -- the last statement ends with a newline, which stands below
      obtain ⟨-, w, hw, -, hline⟩ := last.extent (hv last (by simp))
      exact hline ▸ Nat.le_of_lt ((hbefore u hu' w hw).2 hk)
    · exact hbody last (by simp) (hv last (by simp)) hpairl u hu' hk
end

/-! ## Statements one below the other -/

/-- The tokens of the statement stand one before the other, each on its lines. -/
structure Statement.Placed (s : Statement) : Prop where
  valid : s.Valid
  pair : s.tokens.Pairwise Token.Precedes
  order : ∀ t ∈ s.tokens, t.start.line ≤ t.stop.line

theorem Statement.Placed.child {s c : Statement} (h : s.Placed) (hc : c ∈ s.children) : c.Placed := by
  have hsub : c.tokens.Sublist s.tokens := (sublist_flatMap_of_mem hc).trans s.children_sublist
  exact ⟨Statement.children_valid h.valid c hc, h.pair.sublist hsub,
    fun t ht => h.order t (hsub.subset ht)⟩

theorem Statement.Placed.part {s q : Statement} (h : s.Placed) (hq : q.Part s) : q.Placed := by
  induction hq with
  | self => exact h
  | inside hc _ ih => exact ih (h.child hc)

/-- A statement ends on the line of its last newline. -/
theorem Statement.Placed.lastLine {s : Statement} (h : s.Placed) :
    lastLine s.tokens = some s.node.endLine :=
  lastLine_eq h.pair (s.extent h.valid).2 (s.newline_le h.valid h.pair)

theorem above_of_pairwise {ss : List Statement} (hv : ∀ s ∈ ss, s.Valid)
    (hpair : (ss.flatMap (·.tokens)).Pairwise Token.Precedes) :
    (ss.map (·.node)).Pairwise Node.Above := by
  rw [List.pairwise_map]
  refine (List.pairwise_flatMap.1 hpair).2.imp_of_mem fun {s q} hs hq hbefore => ?_
  obtain ⟨-, u, hu, hk, hline⟩ := s.extent (hv s hs)
  obtain ⟨t, rest, ht, -, hstart⟩ := Statement.exists_head (hv q hq)
  have hlt := (hbefore u hu t (by simp [ht])).2 hk
  rwa [hline, hstart] at hlt

theorem Statement.Placed.start_le {s : Statement} (h : s.Placed) {u : Token} (hu : u ∈ s.tokens) :
    s.node.start.line ≤ u.start.line := by
  obtain ⟨t, rest, ht, -, hstart⟩ := Statement.exists_head h.valid
  have hpair := h.pair
  rw [ht] at hu hpair
  rw [← hstart]
  rcases List.mem_cons.1 hu with rfl | hu
  · exact Nat.le_refl _
  · exact Nat.le_trans (h.order t (by simp [ht])) ((List.pairwise_cons.1 hpair).1 u hu).1

/-- The lines of a statement and of those in it. -/
theorem Statement.Placed.laminar {s : Statement} (h : s.Placed) : s.node.Laminar where
  order := by
    obtain ⟨-, u, hu, -, hline⟩ := s.extent h.valid
    exact hline ▸ h.start_le hu
  within := by
    rw [s.body_eq]
    intro m hm
    obtain ⟨c, hc, rfl⟩ := List.mem_map.1 hm
    obtain ⟨u, hk, hsub⟩ := Statement.exists_newline_before h.valid hc
    obtain ⟨t, rest, ht, -, hstart⟩ := Statement.exists_head (h.child hc).valid
    constructor
    · -- a newline stands between the first line and the statement in the suite
      have hbefore := (List.pairwise_cons.1 (h.pair.sublist hsub)).1 t (by simp [ht])
      rw [← hstart]
      exact Nat.lt_of_le_of_lt (h.start_le (hsub.subset (by simp))) (hbefore.2 hk)
    · obtain ⟨-, w, hw, hwk, hline⟩ := c.extent (h.child hc).valid
      exact hline ▸ s.newline_le h.valid h.pair w (hsub.subset (by simp [hw])) hwk
  apart := by
    rw [s.body_eq]
    exact above_of_pairwise (Statement.children_valid h.valid) (h.pair.sublist s.children_sublist)

theorem Statement.exists_part {s : Statement} {m : Node} (h : m.Within s.node) :
    ∃ q : Statement, q.Part s ∧ q.node = m := by
  generalize hn : s.node = n at h
  induction h generalizing s with
  | self => exact ⟨s, .self s, hn⟩
  | inside hc _ ih =>
    rw [← hn, s.body_eq] at hc
    obtain ⟨d, hd, rfl⟩ := List.mem_map.1 hc
    obtain ⟨q, hq, hnode⟩ := ih rfl
    exact ⟨q, .inside hd hq, hnode⟩

end Grammar

/-- The lines of nested statements. The statements of a text stand one below the
other, and so do those in the suites of any statement at any depth, behind its first
line and down to its last at most, which is the line of its last newline. -/
theorem outline_laminar {source : Text} {ts : List Token} {nodes : List Node}
    (ht : tokenize source = .ok ts) (ho : outline ts = .ok nodes) :
    nodes.Pairwise Node.Above ∧
      ∃ ss, Derives ss (Token.significant ts) ∧ ss.map (·.node) = nodes ∧
        ∀ n ∈ nodes, ∀ m : Node, m.Within n → m.Laminar ∧
          ∃ s ∈ ss, ∃ q : Statement, q.Part s ∧ q.node = m ∧ lastLine q.tokens = some m.endLine := by
  obtain ⟨hpair, hplace⟩ := tokens_between ht
  obtain ⟨ss, hder, rfl⟩ := derives_of_outline ho
  have hpairs : (ss.flatMap (·.tokens)).Pairwise Token.Precedes := hder.spells ▸ hpair.filter _
  refine ⟨above_of_pairwise hder.valid hpairs, ss, hder, rfl, fun n hn m hm => ?_⟩
  obtain ⟨s, hs, rfl⟩ := List.mem_map.1 hn
  obtain ⟨q, hq, rfl⟩ := Statement.exists_part hm
  have hplaced : s.Placed := by
    refine ⟨hder.valid s hs, hpairs.sublist (sublist_flatMap_of_mem hs), fun t htm => ?_⟩
    have hmem : t ∈ Token.significant ts := hder.spells ▸ (sublist_flatMap_of_mem hs).subset htm
    exact (hplace t (List.mem_filter.1 hmem).1).2.1
  exact ⟨(hplaced.part hq).laminar, s, hs, q, hq, rfl, (hplaced.part hq).lastLine⟩

/-- A statement with a clause, which holds a statement with a suite of its own, and
one behind it. -/
theorem outline_laminar_clause :
    ∃ ts nodes, tokenize "if a:\n  b\nelse:\n  if c:\n    d\ne\n".toList = .ok ts ∧
      outline ts = .ok nodes ∧
      (nodes.map fun n => (n.span, n.body.map Node.span)) = [((1, 5), [(2, 2), (4, 5)]), ((6, 6), [])] ∧
      nodes.Pairwise Node.Above ∧
      ∃ ss, Derives ss (Token.significant ts) ∧ ss.map (·.node) = nodes ∧
        ∀ n ∈ nodes, ∀ m : Node, m.Within n → m.Laminar ∧
          ∃ s ∈ ss, ∃ q : Statement, q.Part s ∧ q.node = m ∧ lastLine q.tokens = some m.endLine := by
  have h : (tokenize "if a:\n  b\nelse:\n  if c:\n    d\ne\n".toList).map
      (fun ts => (outline ts).map (List.map fun n => (n.span, n.body.map Node.span))) =
      .ok (.ok [((1, 5), [(2, 2), (4, 5)]), ((6, 6), [])]) := by
    simp only [tokenize, tokenizeWith, scan_eq_scanIn]
    decide +kernel
  cases ht : tokenize "if a:\n  b\nelse:\n  if c:\n    d\ne\n".toList with
  | error e => rw [ht] at h; cases h
  | ok ts =>
    rw [ht] at h
    have hspans := Except.ok.inj h
    dsimp only at hspans
    cases ho : outline ts with
    | error e => rw [ho] at hspans; cases hspans
    | ok nodes =>
      rw [ho] at hspans
      exact ⟨ts, nodes, rfl, ho, Except.ok.inj hspans, outline_laminar ht ho⟩

end Offside
