import Offside.Layout.Tokenize
import Offside.Proofs.Lexeme.Evaluate
import Offside.Proofs.Statement.Fate

/-!
# Where a structural error is reported

The first token that a program cannot have is where the error is reported, unless
what it breaks is a rule and something else comes in between: another breach within
the suite that it opens or the clauses that it begins, or a token that cannot be read
before reading gets back to the outermost level. Then it is reported further on.

Results:
* `Outliner.Tells`: when the error is reported at the token;
* `Outliner.indent_fate`, `Outliner.clause_fate`: the tokens that break the two rules;
* `outline_error_place`: where the error of a stream is reported.
-/
namespace Offside

open Grammar

namespace Outliner

/-- The first of the tokens, which a program cannot have here, is the one that is
told of. -/
inductive Tells (o : Outliner) : List Token → Prop
  /-- It cannot be read. -/
  | unreadable {t : Token} {ts : List Token} (stuck : o.step t = none) : Tells o (t :: ts)
  /-- It opens a suite that keeps the rules, and reading gets to the outermost level. -/
  | suite {n : Outliner} {s : Suite} {ts : List Token} (valid : s.Valid)
      (read : o.run s.tokens = (n, [])) (surfaces : n.Surfaces ts) : Tells o (s.tokens ++ ts)
  /-- It begins clauses that keep the rules, and reading gets to the outermost level. Behind
  the clauses the statement ends, or nothing comes to an end there any more. -/
  | clauses {n : Outliner} {cs : List Block} {ts : List Token} (nonempty : cs ≠ [])
      (valid : ∀ c ∈ cs, c.Valid .clause) (read : o.run (cs.flatMap (·.tokens)) = (n, []))
      (surfaces : n.Surfaces ts) (ends : Avoids GoesOnStatement ts ∨ ¬ n.Returns ts) :
      Tells o (cs.flatMap (·.tokens) ++ ts)

section

variable {o g n : Outliner} {t w : Token} {ts rest left : List Token} {f e : StructureError}
  {d : Draft} {cs : List Block}

/-! ## Clauses -/

/-- The reader `g` has read clauses that the statement at `o` does not take. -/
structure Grows (o : Outliner) (cs : List Block) (g : Outliner) : Prop where
  read : o.run (cs.flatMap (·.tokens)) = (g, [])
  line : g.line? = none
  around : g.around = o.around
  faults : g.level.faults = []
  draft : ∃ d ds b, g.level.pending = .statement d ∧ DraftOf d ds (b :: cs) ∧
    ValidBlocks (b :: cs) ∧ d.takesClauses = false

theorem Grows.found (h : o.Grows cs g) : g.level.found = [] := by
  obtain ⟨d, ds, b, hd, hdraft, -, -⟩ := h.draft
  simp [Level.found, hd, hdraft.faults, h.faults]

theorem Grows.breaches {c : Block} (h : o.Grows (c :: cs) g) :
    g.level.breaches = [⟨c.line.head.start, .code c.line.head.text⟩] := by
  obtain ⟨d, ds, b, hd, hdraft, -, htakes⟩ := h.draft
  have hclause : d.clause? = some c.line.head := hdraft.clause
  simp [Level.breaches, Level.settle, hd, h.faults, Draft.breaches, hclause, htakes, hdraft.faults]

theorem Grows.valid (h : o.Grows cs g) : ∀ c ∈ cs, c.Valid .clause := by
  obtain ⟨d, ds, b, -, -, hblocks, -⟩ := h.draft
  exact hblocks.2

theorem Grows.grow {us : List Token} {cs' : List Block} {ds : List Line} {b : Block}
    (h : o.Grows cs g) (hcs : cs' ≠ []) (hrun : g.run us =
      (⟨none, { g.level with pending := .statement d }, g.around⟩, []))
    (htokens : cs'.flatMap (·.tokens) = cs.flatMap (·.tokens) ++ us)
    (hdraft : DraftOf d ds (b :: cs')) (hblocks : ValidBlocks (b :: cs'))
    (htakes : d.takesClauses = false) :
    ∃ cs' m, cs' ≠ [] ∧ o.Grows cs' m ∧ g.run us = (m, []) ∧
      cs'.flatMap (·.tokens) = cs.flatMap (·.tokens) ++ us := by
  have hm : o.Grows cs' ⟨none, { g.level with pending := .statement d }, g.around⟩ :=
    ⟨by rw [htokens, run_append h.read, hrun], rfl, h.around, h.faults,
      d, ds, b, rfl, hdraft, hblocks, htakes⟩
  exact ⟨cs', _, hcs, hm, hrun, htokens⟩

theorem Grows.addLine {l : Line} (h : o.Grows cs g) (hl : l.Valid .clause) :
    ∃ cs' m, cs' ≠ [] ∧ o.Grows cs' m ∧ g.run l.tokens = (m, []) ∧
      cs'.flatMap (·.tokens) = cs.flatMap (·.tokens) ++ l.tokens := by
  obtain ⟨d, ds, b, hd, hdraft, hblocks, htakes⟩ := h.draft
  have hne : cs ++ [Block.mk l none] ≠ [] := by simp
  refine h.grow (b := b) hne (run_clause hl h.line hd) ?_
    hdraft.addClause (hblocks.addClause (by simp) hl) htakes
  rw [List.flatMap_append, List.flatMap_singleton, Block.tokens]

theorem Grows.addSuite {s : Suite} (h : o.Grows cs g) (hcs : cs ≠ []) (hs : s.Valid)
    (hd : g.level.pending = .statement d) (hafter : d.afterLine? = some true) :
    ∃ cs' m, cs' ≠ [] ∧ o.Grows cs' m ∧ g.run s.tokens = (m, []) ∧
      cs'.flatMap (·.tokens) = cs.flatMap (·.tokens) ++ s.tokens := by
  obtain ⟨opener, body, closer⟩ := s
  obtain ⟨d', ds, b, hd', hdraft, hblocks, htakes⟩ := h.draft
  cases hd.symm.trans hd'
  have hsome : d.afterLine?.isSome = true := by rw [hafter]; rfl
  have hf : (d.addSuite opener [] []).faults = [] := by
    simp [Draft.addSuite, hdraft.faults, hafter]
  obtain ⟨bs, l, hbs, hcolon⟩ := hdraft.opens hsome hf
  obtain ⟨cs, c, rfl⟩ := (List.eq_nil_or_concat cs).resolve_left hcs
  rw [List.concat_eq_append, ← List.cons_append] at hbs
  obtain ⟨rfl, hc⟩ := List.append_inj' hbs rfl
  cases hc
  rw [List.concat_eq_append] at h hdraft hblocks ⊢
  rw [← List.cons_append] at hdraft hblocks
  have hne : body ≠ [] := by
    rw [Suite.Valid] at hs
    exact hs.2.1
  have hrun := Suite.run ⟨opener, body, closer⟩ hs h.line hd hsome
  rw [Suite.nodes] at hrun
  have hne' : cs ++ [Block.mk l (some ⟨opener, body, closer⟩)] ≠ [] := by simp
  have hblocks' := hblocks.addSuite hcolon hs
  refine h.grow (b := b) hne' hrun ?_ (hdraft.addSuite hcolon hne) hblocks' htakes
  simp [Block.tokens]

theorem Grows.clauses (h : o.Grows [] o) (hcs : ∀ c ∈ cs, c.Valid .clause) :
    ∃ m, o.Grows cs m := by
  obtain ⟨d, ds, b, hd, hdraft, hblocks, htakes⟩ := h.draft
  obtain ⟨d', hrun, hd'⟩ := run_clauses hcs (fun c hc => c.run .clause (hcs c hc)) h.line hd hdraft
  refine ⟨_, hrun, rfl, rfl, h.faults, d', ds, b, rfl, hd', ⟨hblocks.1, hcs⟩, ?_⟩
  have hold := hdraft.takes
  have hnew := hd'.takes
  simp only [List.cons_append, List.map_cons, List.head?_cons, Option.map_some,
    Option.some.injEq] at hold hnew
  rw [← hnew, hold, htakes]

theorem Grows.fate (h : o.Grows cs g) (hcs : cs ≠ []) (ha : ∀ a ∈ o.around, a.1.breaches = [])
    (hr : g.run rest = (n, left)) : o.Tells (cs.flatMap (·.tokens) ++ rest) ∨
      ∀ f, n.breaches.head? = some f → f.Blames (· ∈ rest) := by
  induction hlen : rest.length using Nat.strongRecOn generalizing cs g rest with
  | _ k ih =>
  subst hlen
  have hg : ∀ a ∈ g.around, a.1.breaches = [] := h.around ▸ ha
  have hlater : ∀ {cs' m us vs}, o.Grows cs' m → cs' ≠ [] → rest = us ++ vs → us ≠ [] →
      cs'.flatMap (·.tokens) = cs.flatMap (·.tokens) ++ us → g.run us = (m, []) →
      o.Tells (cs.flatMap (·.tokens) ++ rest) ∨
        ∀ f, n.breaches.head? = some f → f.Blames (· ∈ rest) := by
    intro cs' m us vs hm hcs' heq hus htokens hrun
    subst heq
    rw [run_append hrun] at hr
    have hlt : vs.length < (us ++ vs).length := by
      have := List.length_pos_iff.2 hus
      rw [List.length_append]
      omega
    rcases ih _ hlt hm hcs' hr rfl with htells | hblames
    · rw [htokens, List.append_assoc] at htells
      exact Or.inl htells
    · exact Or.inr fun f hf => (hblames f hf).mono fun t ht => List.mem_append_right us ht
  by_cases hav : Avoids GoesOnStatement rest
  · by_cases hsurf : g.Surfaces rest
    · exact Or.inl (.clauses hcs h.valid h.read hsurf (Or.inl hav))
    · obtain ⟨c, cs, rfl⟩ := List.exists_cons_of_ne_nil hcs
      exact Or.inr fun f hf => absurd ((settled_fate h.line h.breaches hg hav hr).1 hf).2 hsurf
  · obtain ⟨w, rest, rfl, hw⟩ := exists_of_not_avoids hav
    rcases goesOn_fate h.line h.found hg hw hr with
      ⟨s, vs, d, hs, ho, heq, hd, hafter⟩ | ⟨l, vs, d, hl, heq, hd⟩ | ⟨hblames, -⟩ |
      ⟨hbreaches, hno⟩
    · by_cases hcolon : d.afterLine? = some true
      · obtain ⟨cs', m, hcs', hm, hrun, htokens⟩ := h.addSuite hcs hs hd hcolon
        exact hlater hm hcs' heq s.tokens_ne_nil htokens hrun
      · have hnot := eq_some_false hafter hcolon
        obtain ⟨m, hrun, hml, hma, hleads⟩ := leads_suite h.line hd hnot h.found hg hs
        rw [heq, run_append hrun] at hr
        refine Or.inr fun f hf => ?_
        obtain ⟨rfl, -⟩ := (hleads.fate (lineFits_of_none hml) hr).1 hf
        exact ⟨w, by simp, by rw [ho]⟩
    · obtain ⟨cs', m, hcs', hm, hrun, htokens⟩ := h.addLine hl
      exact hlater hm hcs' heq (by simp [Line.tokens]) htokens hrun
    · exact Or.inr fun f hf => (hblames f hf).mono fun t ht => List.mem_cons_of_mem w ht
    · by_cases hnil : g.around = []
      · exact Or.inl (.clauses hcs h.valid h.read (surfaces_iff.2 (Or.inl ⟨h.line, hnil⟩))
          (Or.inr hno))
      · rw [hbreaches, breaches_eq_nil_of_around hnil hg]
        exact Or.inr (by simp)

/-! ## The first token that a program cannot have -/

/-- The clauses behind `o`, of which there are none yet, would be the first of a
statement that takes none. -/
theorem grows_nil {us : List Token} (h : o.Tidy) (hsketch : Sketch o us) (hl : o.line? = none)
    (hd : o.level.pending = .statement d) (htakes : d.takesClauses = false) : o.Grows [] o := by
  obtain ⟨hfaults, hgrown⟩ := Level.breaches_eq_nil.1 h.clean.1
  obtain ⟨-, vs, -, -, hlevel, -, -⟩ := hsketch
  obtain ⟨line?, ⟨nodes, faults, pending⟩, around⟩ := o
  dsimp only at hd hl hlevel
  subst hd
  subst hl
  cases hlevel with
  | @mk ss _ ts vs hts hvs =>
    cases hvs with
    | @statement _ ds bs hds hbs draft =>
      obtain ⟨b, bs, rfl⟩ := List.exists_cons_of_ne_nil draft.ne_nil
      have hclause := (Draft.breaches_eq_nil.1 (hgrown d rfl)).2.resolve_right (by simp [htakes])
      rw [draft.clause] at hclause
      cases bs with
      | nil => exact ⟨rfl, rfl, rfl, rfl, d, ds, b, rfl, draft, hbs, htakes⟩
      | cons c bs => cases hclause

theorem Tells.of_indent (h : o.Tells (t :: rest)) (hs : o.step t ≠ none)
    (ht : t.kind = .indent) : ∃ (s : Suite) (us : List Token) (m : Outliner), s.Valid ∧
      s.opener = t ∧ t :: rest = s.tokens ++ us ∧ o.run s.tokens = (m, []) ∧ m.Surfaces us := by
  generalize hts : t :: rest = ts at h
  cases h with
  | unreadable hstuck =>
    obtain ⟨rfl, -⟩ := List.cons.inj hts
    exact absurd hstuck hs
  | @suite m s us hvalid hread hsurf =>
    obtain ⟨vs, hvs⟩ := s.tokens_eq
    have hopener : t :: rest = s.opener :: (vs ++ us) := by rw [hts, hvs, List.cons_append]
    exact ⟨s, us, m, hvalid, (List.cons.inj hopener).1.symm, rfl, hread, hsurf⟩
  | clauses hne hvalid =>
    obtain ⟨c, cs, rfl⟩ := List.exists_cons_of_ne_nil hne
    obtain ⟨u, us, hus, hcode, -⟩ := Block.begins (hvalid c (by simp))
    rw [List.flatMap_cons, hus] at hts
    obtain ⟨rfl, -⟩ := List.cons.inj hts
    cases ht.symm.trans hcode

theorem Tells.of_code (h : o.Tells (t :: rest)) (hs : o.step t ≠ none) (ht : t.kind = .code) :
    ∃ (c : Block) (cs : List Block) (us : List Token) (m : Outliner),
      (∀ b ∈ c :: cs, b.Valid .clause) ∧ c.line.head = t ∧
      t :: rest = (c :: cs).flatMap (·.tokens) ++ us ∧
      o.run ((c :: cs).flatMap (·.tokens)) = (m, []) ∧ m.Surfaces us ∧
      (Avoids GoesOnStatement us ∨ ¬ m.Returns us) := by
  generalize hts : t :: rest = ts at h
  cases h with
  | unreadable hstuck =>
    obtain ⟨rfl, -⟩ := List.cons.inj hts
    exact absurd hstuck hs
  | @suite m s us hvalid hread hsurf =>
    obtain ⟨vs, hvs⟩ := s.tokens_eq
    rw [hvs] at hts
    obtain ⟨rfl, -⟩ := List.cons.inj hts
    cases ht.symm.trans (Suite.opener_kind hvalid)
  | @clauses m cs us hne hvalid hread hsurf hends =>
    obtain ⟨c, cs, rfl⟩ := List.exists_cons_of_ne_nil hne
    obtain ⟨vs, hvs⟩ := c.tokens_eq
    have hhead : t :: rest = c.line.head :: (vs ++ (cs.flatMap (·.tokens) ++ us)) := by
      rw [hts, List.flatMap_cons, hvs, List.append_assoc, List.cons_append]
    exact ⟨c, cs, us, m, hvalid, (List.cons.inj hhead).1.symm, rfl, hread, hsurf, hends⟩

/-- The suite that `t` opens behind a line that opens none. -/
theorem indent_fate (ht : t.kind = .indent) (hl : o.line? = none)
    (hd : o.level.pending = .statement d) (hafter : d.afterLine? = some false) (hclean : o.Clean)
    (hr : o.run (t :: rest) = (n, left)) :
    (o.Tells (t :: rest) → ∃ f, n.breaches.head? = some f ∧ f.place = t.start) ∧
    (¬ o.Tells (t :: rest) → ∀ f, n.breaches.head? = some f → f.Blames (· ∈ rest)) := by
  have hfound := Level.found_eq_nil hclean.1
  have hstep : o.step t ≠ none := by simp [step, hl, ht, openSuite, hd, hafter]
  constructor
  · intro htells
    obtain ⟨s, us, q, hs, rfl, heq, hread, hsurf⟩ := htells.of_indent hstep ht
    obtain ⟨m, hrun, hml, -, hleads⟩ := leads_suite hl hd hafter hfound hclean.2 hs
    cases hread.symm.trans hrun
    rw [heq, run_append hrun] at hr
    exact ⟨_, (hleads.fate (lineFits_of_none hml) hr).2 ⟨rfl, Or.inr hsurf⟩, rfl⟩
  · intro hno
    rcases goesOn_fate hl hfound hclean.2 (Or.inl ht) hr with
      ⟨s, vs, d', hs, rfl, heq, hd', -⟩ | ⟨l, vs, d', hline, heq, hd'⟩ | ⟨hblames, -⟩ |
      ⟨hbreaches, -⟩
    · obtain ⟨m, hrun, hml, hma, hleads⟩ := leads_suite hl hd hafter hfound hclean.2 hs
      rw [heq, run_append hrun] at hr
      intro f hf
      obtain ⟨-, hsurf⟩ := (hleads.fate (lineFits_of_none hml) hr).1 hf
      refine absurd ?_ hno
      rw [heq]
      refine .suite hs hrun (hsurf.elim (fun hzero => surfaces_iff.2 (Or.inl ⟨hml, ?_⟩)) id)
      rw [hma]
      exact List.eq_nil_of_length_eq_zero hzero
    · obtain ⟨rfl, -⟩ := List.cons.inj heq
      cases ht.symm.trans hline.head
    · exact hblames
    · rw [hbreaches, hclean.breaches]
      exact nofun

/-- The clause that `t` begins behind a statement that takes none. -/
theorem clause_fate (ht : t.kind = .code) (h : o.Grows [] o) (hclean : o.Clean)
    (hstep : o.step t ≠ none) (hgoes : GoesOnStatement t) (hr : o.run (t :: rest) = (n, left)) :
    (o.Tells (t :: rest) → ∃ f, n.breaches.head? = some f ∧ f.place = t.start) ∧
    (¬ o.Tells (t :: rest) → ∀ f, n.breaches.head? = some f → f.Blames (· ∈ rest)) := by
  constructor
  · intro htells
    obtain ⟨c, cs, us, q, hvalid, rfl, heq, hread, hsurf, hends⟩ := htells.of_code hstep ht
    obtain ⟨m, hm⟩ := h.clauses hvalid
    cases hread.symm.trans hm.read
    have ha : ∀ a ∈ q.around, a.1.breaches = [] := hm.around ▸ hclean.2
    rw [heq, run_append hread] at hr
    refine ⟨⟨c.line.head.start, .code c.line.head.text⟩, ?_, rfl⟩
    rcases hends with hav | hno
    · exact (settled_fate hm.line hm.breaches ha hav hr).2 ⟨rfl, hsurf⟩
    · exact halted_fate ((surfaces_iff.1 hsurf).resolve_right hno) hm.breaches hm.found hno hr
  · intro hno
    rcases goesOn_fate h.line h.found hclean.2 hgoes hr with
      ⟨s, vs, d, hs, rfl, heq, -, -⟩ | ⟨l, vs, d, hl, heq, -⟩ | ⟨hblames, -⟩ | ⟨hbreaches, -⟩
    · cases ht.symm.trans (Suite.opener_kind hs)
    · obtain ⟨cs, m, hcs, hm, hrun, htokens⟩ := h.addLine hl
      have hrest : ∀ u ∈ vs, u ∈ rest := by
        intro u hu
        obtain ⟨-, rfl⟩ := List.cons.inj heq
        simp [hu]
      rw [heq] at hr hno
      rw [run_append hrun] at hr
      rcases hm.fate hcs hclean.2 hr with htells | hblames
      · rw [htokens] at htells
        exact absurd htells hno
      · exact fun f hf => (hblames f hf).mono hrest
    · exact hblames
    · rw [hbreaches, hclean.breaches]
      exact nofun

theorem Tidy.fate {us : List Token} {m : Outliner} (h : o.Tidy) (hsketch : Sketch o us)
    (hfits : o.LineFits) (hs : o.step t = some m) (hm : ¬ m.Tidy)
    (hr : o.run (t :: rest) = (n, left)) :
    (o.Tells (t :: rest) → ∃ f, n.breaches.head? = some f ∧ f.place = t.start) ∧
    (¬ o.Tells (t :: rest) → ∀ f, n.breaches.head? = some f → f.Blames (· ∈ rest)) := by
  have hbreaks : o.Breaks t := Classical.not_not.1 fun hno =>
    hm (h.step hfits hs fun hb => absurd hb hno)
  have hgoes := hbreaks.goesOn
  obtain ⟨hl, d, hd, ⟨hk, hafter⟩ | ⟨hk, hrole, htakes⟩⟩ := hbreaks
  · obtain ⟨d', hd', hsome, -⟩ := openSuite_spec (o := o) (t := t) (n := m)
      (by simpa [step, hl, hk] using hs)
    cases hd.symm.trans hd'
    exact indent_fate hk hl hd (eq_some_false hsome hafter) h.clean hr
  · exact clause_fate hk (grows_nil h hsketch hl hd htakes) h.clean (by simp [hs]) hgoes hr

end

end Outliner

open Outliner

theorem outline_eq_error {ts : List Token} {e : StructureError} (h : outline ts = .error e) :
    ∃ n rest, start.run (Token.significant ts) = (n, rest) ∧
      (n.breaches.head? = some e ∨ n.breaches = [] ∧
        ((∃ t ∈ rest.head?, e.place = t.start) ∨ rest = [] ∧ e.place = endOfTokens ts)) := by
  unfold outline at h
  generalize start.run (Token.significant ts) = found at h
  obtain ⟨n, rest⟩ := found
  refine ⟨n, rest, rfl, ?_⟩
  dsimp only at h
  split at h
  · next f fs hb =>
    cases h
    exact Or.inl (by rw [hb]; rfl)
  · next t us hb =>
    cases h
    exact Or.inr ⟨hb, Or.inl ⟨t, rfl, rfl⟩⟩
  · next hb hn =>
    cases h
    exact Or.inr ⟨hb, Or.inr ⟨rfl, rfl⟩⟩
  · cases h

section

variable {ts us rest : List Token} {t : Token} {e : StructureError} {o m : Outliner}

theorem place_of_viable (h : outline ts = .error e) (hv : Viable (Token.significant ts)) :
    e.place = endOfTokens ts := by
  obtain ⟨n, left, hr, hplace⟩ := outline_eq_error h
  obtain ⟨o, ho, htidy⟩ := viable_iff.1 hv
  cases hr.symm.trans ho
  rcases hplace with hb | ⟨-, ⟨t, ht, -⟩ | ⟨-, hend⟩⟩
  · rw [htidy.clean.breaches] at hb
    cases hb
  · cases ht
  · exact hend

/-- The error of a program with a token that cannot be read, where no rule was broken
before. -/
theorem place_of_stuck (h : outline ts = .error e) (hsig : Token.significant ts = us ++ t :: rest)
    (ho : start.run us = (o, [])) (htidy : o.Tidy) (hs : o.step t = none) :
    e.place = t.start := by
  obtain ⟨n, left, hr, hplace⟩ := outline_eq_error h
  rw [hsig, run_append ho, run, hs] at hr
  cases hr
  rcases hplace with hb | ⟨-, ⟨t', ht, he⟩ | ⟨hnil, -⟩⟩
  · rw [htidy.clean.breaches] at hb
    cases hb
  · cases ht
    exact he
  · cases hnil

theorem place_of_broken (h : outline ts = .error e) (hsig : Token.significant ts = us ++ t :: rest)
    (ho : start.run us = (o, [])) (htidy : o.Tidy) (hs : o.step t = some m) (hm : ¬ m.Tidy) :
    (o.Tells (t :: rest) → e.place = t.start) ∧
    (¬ o.Tells (t :: rest) → e.place = endOfTokens ts ∨ ∃ u ∈ rest, e.place = u.start) := by
  obtain ⟨n, left, hr, hplace⟩ := outline_eq_error h
  rw [hsig, run_append ho] at hr
  have hsketch : Sketch o us := sketch_start.run lineFits_start ho htidy.clean
  obtain ⟨htells, hlater⟩ := htidy.fate hsketch (lineFits_start.run ho) hs hm hr
  have hleft : ∀ u ∈ left.head?, u ∈ rest := by
    rw [run, hs] at hr
    obtain ⟨vs, rfl, -, -⟩ := run_spec hr
    exact fun u hu => List.mem_append_right vs (List.mem_of_head? hu)
  constructor
  · intro ht
    obtain ⟨f, hf, hplace'⟩ := htells ht
    rcases hplace with hb | ⟨hb, -⟩
    · cases hb.symm.trans hf
      exact hplace'
    · rw [hb] at hf
      cases hf
  · intro ht
    rcases hplace with hb | ⟨-, ⟨u, hu, he⟩ | ⟨-, hend⟩⟩
    · obtain ⟨u, hu, he⟩ := hlater ht e hb
      exact Or.inr ⟨u, hu, he⟩
    · exact Or.inr ⟨u, hleft u hu, he⟩
    · exact Or.inl hend

end

/-- Where the error of a stream is reported. If a program can begin with the whole of
it, at its end. If not, at the first token that a program cannot have, in the cases that
`Outliner.Tells` lists; in all others behind this token. -/
theorem outline_error_place {ts : List Token} {e : StructureError} (h : outline ts = .error e) :
    (Viable (Token.significant ts) → e.place = endOfTokens ts) ∧
    ∀ us t rest, Token.significant ts = us ++ t :: rest → Viable us → ¬ Viable (us ++ [t]) →
      ∃ o, start.run us = (o, []) ∧
        (o.Tells (t :: rest) → e.place = t.start) ∧
        (¬ o.Tells (t :: rest) → e.place = endOfTokens ts ∨ ∃ u ∈ rest, e.place = u.start) := by
  refine ⟨place_of_viable h, fun us t rest hsig hv hno => ?_⟩
  obtain ⟨o, ho, htidy⟩ := viable_iff.1 hv
  refine ⟨o, ho, ?_⟩
  cases hs : o.step t with
  | none =>
    exact ⟨fun _ => place_of_stuck h hsig ho htidy hs,
      fun htells => absurd (.unreadable hs) htells⟩
  | some m =>
    have hm : ¬ m.Tidy := fun hm =>
      hno (viable_iff.2 ⟨m, (run_append ho).trans (run_cons.2 ⟨m, hs, rfl⟩), hm⟩)
    exact place_of_broken h hsig ho htidy hs hm

/-- Of two suites that no line opens, one within the other, the inner one is told of. -/
theorem outline_error_place_nested : ∃ ts e us t rest o,
    tokenize "x\n  y\n    z\n".toList = .ok ts ∧ outline ts = .error e ∧
      Token.significant ts = us ++ t :: rest ∧ Viable us ∧ ¬ Viable (us ++ [t]) ∧
      start.run us = (o, []) ∧ ¬ o.Tells (t :: rest) ∧
      t.start = ⟨2, 0⟩ ∧ e = ⟨⟨3, 0⟩, .indent⟩ := by
  let x : Token := ⟨.code, ⟨1, 0⟩, ⟨1, 1⟩, ['x']⟩
  let n : Token := ⟨.newline, ⟨1, 1⟩, ⟨1, 2⟩, ['\n']⟩
  let i : Token := ⟨.indent, ⟨2, 0⟩, ⟨2, 2⟩, [' ', ' ']⟩
  let rest : List Token := [⟨.code, ⟨2, 2⟩, ⟨2, 3⟩, ['y']⟩, ⟨.newline, ⟨2, 3⟩, ⟨2, 4⟩, ['\n']⟩,
    ⟨.indent, ⟨3, 0⟩, ⟨3, 4⟩, [' ', ' ', ' ', ' ']⟩, ⟨.code, ⟨3, 4⟩, ⟨3, 5⟩, ['z']⟩,
    ⟨.newline, ⟨3, 5⟩, ⟨3, 6⟩, ['\n']⟩, .mark .dedent ⟨4, 0⟩, .mark .dedent ⟨4, 0⟩]
  have hts : tokenize "x\n  y\n    z\n".toList =
      .ok ([x, n] ++ i :: (rest ++ [.mark .endMarker ⟨4, 0⟩])) := by
    simp only [tokenize, tokenizeWith, Lexeme.scan_eq_scanIn]
    decide +kernel
  have he : outline ([x, n] ++ i :: (rest ++ [.mark .endMarker ⟨4, 0⟩])) =
      .error ⟨⟨3, 0⟩, .indent⟩ := rfl
  have hv : Viable [x, n] := ⟨[x, n], [⟨⟨1, 0⟩, 1, []⟩], rfl, List.prefix_rfl⟩
  have hno : ¬ Viable ([x, n] ++ [i]) := by
    intro h
    obtain ⟨o, ho, htidy⟩ := viable_iff.1 h
    cases ho
    obtain ⟨d, hd, hopen⟩ := htidy.opener _ (List.mem_singleton.2 rfl)
    cases hd
    revert hopen
    decide
  obtain ⟨o, ho, htells, -⟩ := (outline_error_place he).2 [x, n] i rest rfl hv hno
  refine ⟨_, _, [x, n], i, rest, o, hts, he, rfl, hv, hno, ho, fun h => ?_, rfl, rfl⟩
  have hplace := htells h
  revert hplace
  decide

end Offside
