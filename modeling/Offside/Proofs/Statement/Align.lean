import Offside.Proofs.Layout.Gist
import Offside.Proofs.Statement.Start

/-!
# Streams that say the same

Streams that say the same agree in kinds and words, so their statements begin at
the same of their heads. Which head that is in one stream can be told from where
it stands in the other, since no two heads stand on one line.

Results:
* `akin_of_gists`: streams that say the same agree in kinds and words;
* `heads_around`: the heads of a log before a row, of the row, and behind it;
* `head_follows`: where a statement starts with the head of a row, one starts
  with the head of the row that stands for it in the other log.
-/
namespace Offside

open Lexeme Text Layout

theorem akin_of_gist {t u : Token} (h : t.gist = u.gist) : t.Akin u := by
  have hk : t.kind = u.kind := congrArg Prod.fst h
  refine ⟨hk, fun hc w hw => ?_⟩
  have hb : bare t.text = bare u.text := by
    have htext := congrArg Prod.snd h
    simpa [Token.gist, ← hk, hc, Token.Kind.isContent] using htext
  exact eq_iff_of_bare_eq hb hw

/-- Streams that say the same agree in kinds and words. -/
theorem akin_of_gists {ts us : List Token} (h : gists ts = gists us) :
    List.Forall₂ Token.Akin (Token.significant ts) (Token.significant us) := by
  have hsig : ∀ ts : List Token, Token.significant ts =
      (ts.filter (·.kind != .blankLine)).filter fun t => t.kind.isSignificant := by
    intro ts
    rw [List.filter_filter]
    apply List.filter_congr
    intro t _
    cases t.kind <;> rfl
  have hall : List.Forall₂ (fun t u => Token.gist t = Token.gist u)
      (ts.filter (·.kind != .blankLine)) (us.filter (·.kind != .blankLine)) := by
    unfold gists at h
    rw [← List.forall₂_eq_eq_eq, List.forall₂_map_left_iff, List.forall₂_map_right_iff] at h
    exact h
  rw [hsig, hsig]
  refine (List.rel_filter (fun t u hg => ?_) hall).imp fun t u => akin_of_gist
  have hk : t.kind = u.kind := congrArg Prod.fst hg
  show t.kind.isSignificant = true ↔ u.kind.isSignificant = true
  rw [hk]

theorem heads_akin {ts us : List Token} (h : List.Forall₂ Token.Akin ts us) (free : Bool) :
    List.Forall₂ Token.Akin (heads free ts) (heads free us) := by
  induction h generalizing free with
  | nil => exact .nil
  | @cons t u ts us ht _ ih =>
    have hfrees : u.frees free = t.frees free := by simp [Token.frees, ht.kind]
    rw [heads, heads, hfrees, ← ht.kind]
    refine List.rel_append ?_ (ih _)
    split
    · exact .cons ht .nil
    · exact .nil

theorem length_heads {ts us : List Token} (h : gists ts = gists us) (free : Bool) :
    (heads free ts).length = (heads free us).length := by
  rw [← heads_significant free ts, ← heads_significant free us]
  exact (heads_akin (akin_of_gists h) free).length_eq

/-! ## The head of a row -/

section log

variable {r : Ruler}

theorem heads_bound {s last : Layout} {es : List Entry} (h : Reads r s es last)
    (hne : ∀ row ∈ es.map (·.row), row.text ≠ []) (n : Nat) :
    ∀ t ∈ heads (!s.codeSeen) (lay n es), n ≤ t.start.line ∧ t.start.line < n + height es := by
  intro t ht
  have hmem := (heads_lay h n).2.subset (List.mem_map_of_mem ht)
  have hlt := rowStarts_lt hne hmem
  rw [List.flatMap_map] at hlt
  exact ⟨le_of_mem_rowStarts hmem, hlt⟩

/-- The heads of a log before a row, of the row, and behind it. -/
theorem heads_around {last : Layout} {ds gs : List Entry} {g : Entry} {p : Position}
    (h : Reads r .start (ds ++ g :: gs) last)
    (hne : ∀ row ∈ (ds ++ g :: gs).map (·.row), row.text ≠ []) :
    ∃ m rest, g.row.read r g.before = some (g.strip, m) ∧
      heads true (lay 1 (ds ++ g :: gs) ++ closing last p) = heads true (lay 1 ds) ++
        (heads (!g.before.codeSeen) (g.strip.map (Token.down (1 + height ds))) ++ rest) ∧
      (∀ t ∈ heads true (lay 1 ds), t.start.line < 1 + height ds) ∧
      ∀ t ∈ rest, 1 + height ds < t.start.line := by
  obtain ⟨k, hds, hg⟩ := h.split
  have hgl := List.length_pos_iff.2 (Row.lines_ne_nil (hne g.row (by simp)))
  cases hg with
  | @cons _ m _ row ts _ hr hrest =>
    have hfree : freeAfter true (lay 1 ds) = !k.codeSeen := (heads_lay hds 1).1
    have hstrip : freeAfter (!k.codeSeen) (ts.map (Token.down (1 + height ds))) = !m.codeSeen := by
      rw [freeAfter_down, (read_heads hr).1]
    have hlay : lay 1 (ds ++ ⟨k, row, ts⟩ :: gs) = lay 1 ds ++
        (ts.map (Token.down (1 + height ds)) ++ lay (1 + height ds + row.lines.length) gs) :=
      lay_append 1 ds _
    have hne' : ∀ q ∈ ds.map (·.row) ++ gs.map (·.row), q.text ≠ [] := by
      intro q hq
      apply hne q
      rw [List.map_append, List.map_cons, List.mem_append, List.mem_cons]
      rcases List.mem_append.1 hq with hq | hq
      · exact Or.inl hq
      · exact Or.inr (Or.inr hq)
    refine ⟨m, heads (!m.codeSeen) (lay (1 + height ds + row.lines.length) gs), hr, ?_, ?_, ?_⟩
    · rw [hlay, heads_append, heads_closing, List.append_nil, heads_append, hfree, heads_append,
        hstrip]
    · exact fun t ht => (heads_bound hds (fun q hq => hne' q (by simp [hq])) 1 t ht).2
    · intro t ht
      have hle := (heads_bound hrest (fun q hq => hne' q (by simp [hq])) _ t ht).1
      dsimp only at hgl
      omega

theorem mem_tail_of_zip {pairs : List (Token × Token)} {xs ys us vs : List Token} {x y : Token}
    {k : Nat} (h : List.Sublist pairs ((xs ++ x :: us).zip (ys ++ y :: vs)))
    (hlen : xs.length = ys.length) (hxs : ∀ t ∈ xs, t.start.line ≠ k)
    (hus : ∀ t ∈ us, t.start.line ≠ k) (hk : k ∈ (pairs.map (·.1.start.line)).tail) :
    (x, y) ∈ pairs.tail := by
  rw [← List.map_tail] at hk
  obtain ⟨q, hq, hqk⟩ := List.mem_map.1 hk
  have hmem := h.subset (List.mem_of_mem_tail hq)
  rw [List.zip_append hlen, List.zip_cons_cons, List.mem_append, List.mem_cons] at hmem
  rcases hmem with hmem | rfl | hmem
  · exact absurd hqk (hxs _ (List.of_mem_zip hmem).1)
  · exact hq
  · exact absurd hqk (hus _ (List.of_mem_zip hmem).1)

/-- Where a statement starts with the head of a row, one starts with the head of
the row that says the same in a log that says the same up to it. -/
theorem head_follows {last last' : Layout} {ds gs ds' gs' : List Entry} {g g' : Entry}
    {p p' : Position} {pairs : List (Token × Token)}
    (h : Reads r .start (ds ++ g :: gs) last) (h' : Reads r .start (ds' ++ g' :: gs') last')
    (hne : ∀ row ∈ (ds ++ g :: gs).map (·.row), row.text ≠ [])
    (hne' : ∀ row ∈ (ds' ++ g' :: gs').map (·.row), row.text ≠ [])
    (hds : gists (lay 1 ds) = gists (lay 1 ds')) (hg : gists g.strip = gists g'.strip)
    (hb : g.before = g'.before)
    (hpairs : List.Sublist pairs ((heads true (lay 1 (ds ++ g :: gs) ++ closing last p)).zip
      (heads true (lay 1 (ds' ++ g' :: gs') ++ closing last' p'))))
    (hk : 1 + height ds ∈ (pairs.map (·.1.start.line)).tail) :
    g'.before.codeSeen = false ∧ ∃ before t rest, g'.strip = before ++ t :: rest ∧
      (∀ u ∈ before, u.kind = .comment ∧ u.start.line = t.start.line ∨ u.kind = .dedent) ∧
      t.kind = .code ∧ (t.down (1 + height ds')).start ∈ (pairs.map (·.2.start)).tail := by
  obtain ⟨m, us, hr, heq, hlow, hhigh⟩ := heads_around (p := p) h hne
  obtain ⟨m', us', hr', heq', -, -⟩ := heads_around (p := p') h' hne'
  have hhead : ∃ x ∈ heads true (lay 1 (ds ++ g :: gs) ++ closing last p),
      x.start.line = 1 + height ds := by
    obtain ⟨q, hq, hqk⟩ := List.mem_map.1 (List.mem_of_mem_tail hk)
    exact ⟨q.1, (List.of_mem_zip (hpairs.subset hq)).1, hqk⟩
  obtain ⟨x, hx, hxk⟩ := hhead
  rw [heq, List.mem_append, List.mem_append] at hx
  have hstrip : heads (!g.before.codeSeen) (g.strip.map (Token.down (1 + height ds))) ≠ [] := by
    intro hnil
    rw [hnil] at hx
    rcases hx with hx | hx | hx
    · have := hlow x hx
      omega
    · cases hx
    · have := hhigh x hx
      omega
  rw [heads_down] at hstrip heq
  rw [heads_down] at heq'
  rcases (read_heads hr).2 with h0 | ⟨_, y, _, -, hy, -, -, -, -⟩
  · exact absurd (by rw [h0]; rfl) hstrip
  have hcount := length_heads hg (!g.before.codeSeen)
  rw [hy, hb] at hcount
  rcases (read_heads hr').2 with h0 | ⟨before, t, rest, hts, ht, hseen, hline, hbefore, -⟩
  · rw [h0] at hcount
    cases hcount
  have htcode : t.kind = .code := (mem_heads (ht ▸ List.mem_singleton_self t)).2
  refine ⟨hseen, before, t, rest, hts, fun u hu => ?_, htcode, ?_⟩
  · rw [hline]
    exact hbefore u hu
  · rw [heq, heq', hy, ht] at hpairs
    have hmem := mem_tail_of_zip hpairs (length_heads hds true)
      (fun u hu => Nat.ne_of_lt (hlow u hu)) (fun u hu => Nat.ne_of_gt (hhigh u hu)) hk
    rw [← List.map_tail]
    exact List.mem_map_of_mem hmem

end log

end Offside
