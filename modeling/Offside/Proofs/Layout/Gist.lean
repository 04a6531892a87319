import Offside.Proofs.Layout.Separate

/-!
# What tokens say

Two programs mean the same if their tokens say the same, wherever they stand:
the same kinds in the same order, and the same characters up to carriage returns
before newlines, blank lines left out.

Results:
* `gists_lay`: a log says what its rows say, one after another;
* `gists_separateLog`: putting separators in and writing rows anew keeps what a
  log says.
-/
namespace Offside

open Lexeme Text Layout

/-- What a token says: its kind, and its characters up to carriage returns
before newlines if they are those of the program. -/
def Token.gist (t : Token) : Token.Kind × Text :=
  (t.kind, if t.kind.isContent then bare t.text else [])

/-- What tokens say, blank lines left out. -/
def gists (ts : List Token) : List (Token.Kind × Text) :=
  (ts.filter (·.kind != .blankLine)).map Token.gist

theorem gists_cons (t : Token) (ts : List Token) :
    gists (t :: ts) = (if t.kind = .blankLine then [] else [t.gist]) ++ gists ts := by
  unfold gists
  by_cases h : t.kind = .blankLine <;> simp [h]

theorem gists_append (ts us : List Token) : gists (ts ++ us) = gists ts ++ gists us := by
  rw [gists, List.filter_append, List.map_append]
  rfl

theorem gists_down (n : Nat) (ts : List Token) : gists (ts.map (Token.down n)) = gists ts := by
  rw [gists, List.filter_map, List.map_map]
  rfl

theorem gists_alike {ts us : List Token} (h : List.Forall₂ Token.Alike ts us) :
    gists ts = gists us := by
  induction h with
  | nil => rfl
  | @cons t u ts us ht _ ih =>
    have hgist : t.gist = u.gist := by
      unfold Token.gist
      rw [← ht.kind]
      split
      · next hc => rw [(ht.content hc).2]
      · rfl
    rw [gists_cons, gists_cons, ih, hgist, ht.kind]

/-- What rows say does not depend on where they stand. -/
theorem gists_lay (n : Nat) (es : List Entry) :
    gists (lay n es) = es.flatMap fun e => gists e.strip := by
  induction es generalizing n with
  | nil => rfl
  | cons e es ih => rw [lay, gists_append, gists_down, ih, List.flatMap_cons]

theorem gists_closing (s : Layout) (p q : Position) : gists (closing s p) = gists (closing s q) := by
  have hmark : ∀ (kind : Token.Kind) (p : Position), (Token.mark kind p).gist = (kind, []) := by
    intro kind p
    cases kind <;> rfl
  have hall : ∀ p, (closing s p).filter (·.kind != .blankLine) = closing s p := by
    intro p
    apply List.filter_eq_self.2
    intro t ht
    simpa using blankLine_not_mem_closing p t ht
  rw [gists, gists, hall, hall, closing, closing, List.map_append, List.map_append, List.map_map,
    List.map_map]
  simp only [Function.comp_def, hmark, List.map_singleton]

theorem gists_blank {r : Ruler} {s last : Layout} {es : List Entry} (h : Reads r s es last)
    (hh : s.lineHeld = false) : ∀ e ∈ es, e.isSolid = false → gists e.strip = [] := by
  intro e he hb
  have hspec := strip_spec h hh e he
  rw [if_pos (by simpa [Entry.isSolid, Row.isSolid] using hb)] at hspec
  rw [hspec.2]
  rfl

theorem gists_solid {es : List Entry} (h : ∀ e ∈ es, e.isSolid = false → gists e.strip = []) :
    (es.flatMap fun e => gists e.strip) = (es.filter Entry.isSolid).flatMap fun e => gists e.strip := by
  induction es with
  | nil => rfl
  | cons e es ih =>
    have ih' := ih fun f hf => h f (by simp [hf])
    rw [List.flatMap_cons, ih']
    cases hb : e.isSolid with
    | true => rw [List.filter_cons_of_pos hb, List.flatMap_cons]
    | false => rw [List.filter_cons_of_neg (by simp [hb]), h e (by simp) hb, List.nil_append]

theorem gists_entries {es fs : List Entry} (h : List.Forall₂ Entry.Alike es fs) :
    (es.flatMap fun e => gists e.strip) = fs.flatMap fun e => gists e.strip := by
  induction h with
  | nil => rfl
  | cons he _ ih => rw [List.flatMap_cons, List.flatMap_cons, gists_alike he.strip, ih]

theorem filter_alike {es fs : List Entry} (h : List.Forall₂ Entry.Alike es fs) :
    List.Forall₂ Entry.Alike (es.filter Entry.isSolid) (fs.filter Entry.isSolid) := by
  refine List.rel_filter (fun e f he => ?_) h
  show e.isSolid = true ↔ f.isSolid = true
  rw [he.solid]

/-- A log and the same log with separators put in, both written anew, say the
same. -/
theorem gists_separateLog {ns : List Nat} {n i j : Nat} {es fs gs : List Entry}
    (hs : ∀ e ∈ es, e.isSolid = true) (hf : List.Forall₂ Entry.Alike es fs)
    (hg : List.Forall₂ Entry.Alike (separateLog ns n es) gs) :
    gists (lay i fs) = gists (lay j gs) := by
  have hblank : ∀ e ∈ separateLog ns n es, e.isSolid = false → gists e.strip = [] := by
    intro e he hb
    rcases mem_separateLog he with hm | hstrip
    · rw [hs e hm] at hb
      cases hb
    · rw [hstrip]
      rfl
  rw [gists_lay, gists_lay, ← gists_entries hf, ← gists_entries hg, gists_solid hblank,
    filter_separateLog hs]

end Offside
