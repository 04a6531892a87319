import Offside.Proofs.Layout.Within
import Offside.Proofs.Statement.Grammar
import Offside.Proofs.Statement.Tiling

/-!
# The lines that statements take

Every line of a statement ends with a newline, and the last line that a statement
reaches is that of a newline of its own. Where tokens stand one before the other,
the statements of a program therefore share no line.

Results:
* `Statement.extent`: what a statement reaches, told by its newlines;
* `ranges_hold`: the range of a statement holds its lines and its code.
-/
namespace Offside

namespace Grammar

/-- Behind every piece of code a newline follows. -/
def Closed : List Token → Prop
  | [] => True
  | t :: ts => (t.kind = .code → ∃ u ∈ ts, u.kind = .newline) ∧ Closed ts

theorem Closed.append {ts us : List Token} (h : Closed ts) (h' : Closed us) : Closed (ts ++ us) := by
  induction ts with
  | nil => exact h'
  | cons t ts ih =>
    refine ⟨fun hk => ?_, ih h.2⟩
    obtain ⟨u, hu, hn⟩ := h.1 hk
    exact ⟨u, List.mem_append_left _ hu, hn⟩

theorem closed_flatMap {α : Type} {f : α → List Token} {as : List α}
    (h : ∀ a ∈ as, Closed (f a)) : Closed (as.flatMap f) := by
  induction as with
  | nil => trivial
  | cons a as ih =>
    rw [List.flatMap_cons]
    exact (h a (by simp)).append (ih fun b hb => h b (by simp [hb]))

theorem closed_concat (ts : List Token) {u : Token} (hu : u.kind = .newline) :
    Closed (ts ++ [u]) := by
  induction ts with
  | nil =>
    refine ⟨fun hk => ?_, trivial⟩
    rw [hu] at hk
    cases hk
  | cons t ts ih => exact ⟨fun _ => ⟨u, by simp, hu⟩, ih⟩

theorem closed_singleton {t : Token} (h : t.kind ≠ .code) : Closed [t] :=
  ⟨fun hk => absurd hk h, trivial⟩

/-- A newline of these tokens ends line `k`. -/
def EndsLine (ts : List Token) (k : Nat) : Prop := ∃ u ∈ ts, u.kind = .newline ∧ u.start.line = k

theorem EndsLine.mono {ts us : List Token} {k : Nat} (h : EndsLine ts k) (hs : ts ⊆ us) :
    EndsLine us k := by
  obtain ⟨u, hu, hk⟩ := h
  exact ⟨u, hs hu, hk⟩

theorem largest_mem {ns : List Nat} (h : ns ≠ []) : largest ns ∈ ns := by
  induction ns with
  | nil => exact absurd rfl h
  | cons n ns ih =>
    have hcons : largest (n :: ns) = max n (largest ns) := rfl
    rw [hcons]
    rcases Nat.le_total (largest ns) n with hle | hle
    · rw [Nat.max_eq_left hle]
      exact List.mem_cons_self
    · rw [Nat.max_eq_right hle]
      by_cases hns : ns = []
      · subst hns
        have hn : n = 0 := Nat.le_zero.1 hle
        simp [hn, largest]
      · exact List.mem_cons_of_mem _ (ih hns)

theorem Line.extent {role : Role} {l : Line} (h : l.Valid role) :
    Closed l.tokens ∧ EndsLine l.tokens l.stop.start.line := by
  have htokens : l.tokens = (l.head :: l.more) ++ [l.stop] := rfl
  rw [htokens]
  exact ⟨closed_concat _ h.stop, l.stop, by simp, h.stop, rfl⟩

mutual
/-- The last line that a statement reaches is that of one of its newlines. -/
theorem Statement.extent : (s : Statement) → s.Valid →
    Closed s.tokens ∧ EndsLine s.tokens s.node.endLine
  | ⟨decorators, header, clauses⟩, h => by
    have hheader := header.extent .header
    have hclauses := fun c (_ : c ∈ clauses) => c.extent .clause
    rw [Statement.Valid] at h
    obtain ⟨hd, hh, hc, -⟩ := h
    obtain ⟨hclosed, hends⟩ := hheader hh
    rw [Statement.tokens]
    refine ⟨(closed_flatMap fun d hm => (Line.extent (hd d hm)).1).append (hclosed.append
      (closed_flatMap fun c hm => (hclauses c hm (hc c hm)).1)), ?_⟩
    have hne : header.line.reaches header.body ++
        clauses.flatMap (fun c => c.line.reaches c.body) ≠ [] := by simp [Line.reaches]
    rw [Statement.node]
    rcases List.mem_append.1 (largest_mem hne) with hm | hm
    · exact (hends _ hm).mono (by simp)
    · obtain ⟨c, hcm, hk⟩ := List.mem_flatMap.1 hm
      refine ((hclauses c hcm (hc c hcm)).2 _ hk).mono ?_
      intro u hu
      simp only [List.mem_append, List.mem_flatMap]
      exact Or.inr (Or.inr ⟨c, hcm, hu⟩)
theorem Block.extent : (b : Block) → (role : Role) → b.Valid role →
    Closed b.tokens ∧ ∀ k ∈ b.line.reaches b.body, EndsLine b.tokens k
  | ⟨line, none⟩, role, h => by
    rw [Block.Valid] at h
    rw [Block.tokens]
    obtain ⟨hclosed, hends⟩ := Line.extent h
    refine ⟨hclosed, fun k hk => ?_⟩
    simp only [Block.line, Block.body, Line.reaches, List.getLast?_nil, Option.map_none,
      Option.toList_none, List.mem_singleton] at hk
    exact hk ▸ hends
  | ⟨line, some suite⟩, role, h => by
    have hsuite := suite.extent
    rw [Block.Valid] at h
    obtain ⟨hline, -, hs⟩ := h
    obtain ⟨hclosed, hends⟩ := Line.extent hline
    obtain ⟨hclosed', hends'⟩ := hsuite hs
    rw [Block.tokens]
    refine ⟨hclosed.append hclosed', fun k hk => ?_⟩
    rw [Block.body, Line.reaches] at hk
    rcases List.mem_cons.1 hk with rfl | hk
    · exact hends.mono (List.subset_append_left _ _)
    · obtain ⟨n, hn, rfl⟩ := Option.map_eq_some_iff.1 (Option.mem_toList.1 hk)
      exact (hends' n (List.mem_of_getLast? hn)).mono (List.subset_append_right _ _)
theorem Suite.extent : (s : Suite) → s.Valid →
    Closed s.tokens ∧ ∀ n ∈ s.nodes, EndsLine s.tokens n.endLine
  | ⟨opener, body, closer⟩, h => by
    have hbody := fun s (_ : s ∈ body) => s.extent
    rw [Suite.Valid] at h
    obtain ⟨hopen, -, hb, hclose⟩ := h
    rw [Suite.tokens]
    constructor
    · have hopener : Closed [opener] := closed_singleton (by simp [hopen])
      exact hopener.append ((closed_flatMap fun s hm => (hbody s hm (hb s hm)).1).append
        (closed_singleton (by simp [hclose])))
    · intro n hn
      rw [Suite.nodes] at hn
      obtain ⟨s, hm, rfl⟩ := List.mem_map.1 hn
      refine ((hbody s hm (hb s hm)).2).mono fun u hu => ?_
      simp only [List.mem_cons, List.mem_append, List.mem_flatMap]
      exact Or.inr (Or.inl ⟨s, hm, hu⟩)
end

theorem Statement.exists_head {s : Statement} (h : s.Valid) :
    ∃ t ts, s.tokens = t :: ts ∧ t.kind = .code ∧ t.start = s.node.start := by
  obtain ⟨t, ts, ht, hk, -⟩ := Statement.tokens_eq h
  refine ⟨t, ts, ht, hk, ?_⟩
  have hstart : s.tokens.head?.map (·.start) = some s.node.start := by
    obtain ⟨decorators, header, clauses⟩ := s
    rw [Statement.tokens, Statement.node]
    cases decorators with
    | nil =>
      obtain ⟨us, hu⟩ := header.tokens_eq
      rw [hu]
      rfl
    | cons d ds => rfl
  rw [ht] at hstart
  exact Option.some.inj hstart

end Grammar

open Grammar

/-- The range begins with the statement, and holds its lines and its code. -/
structure Grammar.Statement.Holds (s : Statement) (r : LineRange) : Prop where
  first : r.first = s.node.start.line
  order : s.node.start.line ≤ s.node.endLine
  last : s.node.endLine ≤ r.last
  code : ∀ t ∈ s.tokens, t.kind = .code → r.first ≤ t.start.line ∧ t.stop.line ≤ r.last

theorem Grammar.Closed.exists_newline {ts : List Token} (h : Closed ts)
    (hpair : ts.Pairwise Token.Precedes) {t : Token} (ht : t ∈ ts) (hk : t.kind = .code) :
    ∃ u ∈ ts, u.kind = .newline ∧ t.stop.line ≤ u.start.line := by
  induction ts with
  | nil => cases ht
  | cons v ts ih =>
    obtain ⟨hv, hrest⟩ := List.pairwise_cons.1 hpair
    rcases List.mem_cons.1 ht with rfl | ht
    · obtain ⟨u, hu, hn⟩ := h.1 hk
      exact ⟨u, List.mem_cons_of_mem _ hu, hn, (hv u hu).1⟩
    · obtain ⟨u, hu, hn⟩ := ih h.2 hrest ht
      exact ⟨u, List.mem_cons_of_mem _ hu, hn⟩

theorem holds_between {s : Statement} (hv : s.Valid) (hpair : s.tokens.Pairwise Token.Precedes)
    (horder : ∀ t ∈ s.tokens, t.start.line ≤ t.stop.line) {k : Nat}
    (hk : ∀ u ∈ s.tokens, u.kind = .newline → u.start.line ≤ k) :
    s.Holds (.between s.node.start.line k) := by
  obtain ⟨hclosed, u, hu, hnewline, hends⟩ := s.extent hv
  obtain ⟨t, rest, ht, hcode, hstart⟩ := Statement.exists_head hv
  have hline : t.start.line = s.node.start.line := congrArg Position.line hstart
  have hfirst : ∀ v ∈ s.tokens, v = t ∨ t.stop.line ≤ v.start.line := by
    intro v hvm
    rw [ht] at hvm hpair
    exact (List.mem_cons.1 hvm).imp_right fun hm => ((List.pairwise_cons.1 hpair).1 v hm).1
  have ht' := horder t (by simp [ht])
  refine ⟨rfl, ?_, hends ▸ hk u hu hnewline, fun c hc hck => ⟨?_, ?_⟩⟩
  · rcases hfirst u hu with rfl | hle
    · rw [hnewline] at hcode
      cases hcode
    · omega
  · show s.node.start.line ≤ c.start.line
    rcases hfirst c hc with rfl | hle <;> omega
  · obtain ⟨v, hvm, hvk, hle⟩ := hclosed.exists_newline hpair hc hck
    exact Nat.le_trans hle (hk v hvm hvk)

/-- The range of each statement holds its lines and its code. -/
theorem ranges_hold {ss : List Statement} {count : Nat} (hv : ∀ s ∈ ss, s.Valid)
    (hpair : (ss.flatMap (·.tokens)).Pairwise Token.Precedes)
    (horder : ∀ t ∈ ss.flatMap (·.tokens), t.start.line ≤ t.stop.line)
    (hlast : ∀ t ∈ ss.flatMap (·.tokens), t.kind = .newline → t.start.line ≤ count) :
    List.Forall₂ Statement.Holds ss
      (LineRange.ofStarts count (ss.map (·.node.start.line))) := by
  induction ss with
  | nil => exact .nil
  | cons s ss ih =>
    rw [List.flatMap_cons] at hpair horder hlast
    obtain ⟨hpairs, hpairss, hbefore⟩ := List.pairwise_append.1 hpair
    obtain ⟨horders, horderss⟩ := List.forall_mem_append.1 horder
    obtain ⟨hlasts, hlastss⟩ := List.forall_mem_append.1 hlast
    have hrest := ih (fun q hq => hv q (by simp [hq])) hpairss horderss hlastss
    cases ss with
    | nil =>
      exact .cons (holds_between (hv s (by simp)) hpairs horders fun u hu hk =>
        Nat.le_trans (hlasts u hu hk) (Nat.le_max_left _ _)) .nil
    | cons q ss =>
      obtain ⟨t, rest, ht, -, hstart⟩ := Statement.exists_head (hv q (by simp))
      have hline : t.start.line = q.node.start.line := congrArg Position.line hstart
      refine .cons (holds_between (hv s (by simp)) hpairs horders fun u hu hk => ?_) hrest
      have hlt : u.start.line < q.node.start.line := hline ▸ (hbefore u hu t (by simp [ht])).2 hk
      exact Nat.le_trans (Nat.le_sub_one_of_lt hlt) (Nat.le_max_left _ _)

end Offside
