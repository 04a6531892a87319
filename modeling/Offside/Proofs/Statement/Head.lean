import Offside.Statement.Outline

/-!
# Heads

A statement of the outermost level begins with a token that begins a line, and
not right behind an indent. `heads` are these tokens of a stream. They can be
found piece by piece: what stands before a piece matters only in whether a
statement can begin there.

Results:
* `heads_append`: the heads of two pieces;
* `heads_significant`: tokens without structure do not matter;
* `heads_within`: within a logical line there are none.
-/
namespace Offside

/-- Whether a statement of the outermost level can begin behind the token. -/
def Token.frees (free : Bool) (t : Token) : Bool :=
  match t.kind with
  | .newline | .dedent => true
  | .code | .indent => false
  | .lineBreak | .blankLine | .comment | .endMarker => free

/-- Whether a statement of the outermost level can begin behind the tokens. -/
def freeAfter (free : Bool) (ts : List Token) : Bool := ts.foldl Token.frees free

/-- The code that a statement of the outermost level can begin with. -/
def heads (free : Bool) : List Token → List Token
  | [] => []
  | t :: ts => (if free = true ∧ t.kind = .code then [t] else []) ++ heads (t.frees free) ts

theorem freeAfter_append (free : Bool) (ts us : List Token) :
    freeAfter free (ts ++ us) = freeAfter (freeAfter free ts) us := List.foldl_append

theorem heads_append (free : Bool) (ts us : List Token) :
    heads free (ts ++ us) = heads free ts ++ heads (freeAfter free ts) us := by
  induction ts generalizing free with
  | nil => rfl
  | cons t ts ih => simp only [List.cons_append, heads, ih, List.append_assoc]; rfl

@[simp] theorem freeAfter_nil (free : Bool) : freeAfter free [] = free := rfl

theorem heads_code {t : Token} (h : t.kind = .code) (free : Bool) (ts : List Token) :
    heads free (t :: ts) = (if free = true then [t] else []) ++ heads false ts := by
  simp [heads, h, Token.frees]

theorem heads_of_ne_code {t : Token} (h : t.kind ≠ .code) (free : Bool) (ts : List Token) :
    heads free (t :: ts) = heads (t.frees free) ts := by
  simp [heads, h]

/-- Tokens without structure are no heads and free nothing. -/
theorem heads_significant (free : Bool) (ts : List Token) :
    heads free (Token.significant ts) = heads free ts := by
  induction ts generalizing free with
  | nil => rfl
  | cons t ts ih =>
    unfold Token.significant at ih ⊢
    by_cases hs : t.kind.isSignificant = true
    · rw [List.filter_cons, if_pos hs, heads, ih]
      rfl
    · have hk : t.frees free = free ∧ t.kind ≠ .code := by
        unfold Token.frees
        cases hk : t.kind <;> simp [hk, Token.Kind.isSignificant] at hs ⊢
      rw [List.filter_cons, if_neg hs, ih, heads, hk.1, if_neg (fun h => hk.2 h.2), List.nil_append]

theorem mem_heads {free : Bool} {ts : List Token} {t : Token} (h : t ∈ heads free ts) :
    t ∈ ts ∧ t.kind = .code := by
  induction ts generalizing free with
  | nil => cases h
  | cons u ts ih =>
    rcases List.mem_append.1 h with h | h
    · split at h
      · next hu => rcases List.mem_singleton.1 h with rfl; exact ⟨by simp, hu.2⟩
      · cases h
    · obtain ⟨hm, hk⟩ := ih h
      exact ⟨by simp [hm], hk⟩

theorem heads_of_dedents {ts : List Token} (h : ∀ t ∈ ts, t.kind = .dedent) :
    heads true ts = [] ∧ freeAfter true ts = true := by
  induction ts with
  | nil => exact ⟨rfl, rfl⟩
  | cons t ts ih =>
    have ht := h t (by simp)
    have hf : t.frees true = true := by simp [Token.frees, ht]
    obtain ⟨h1, h2⟩ := ih fun u hu => h u (by simp [hu])
    simp only [heads, freeAfter, List.foldl_cons, hf, ht] at h2 ⊢
    exact ⟨by simp [h1], h2⟩

/-- Within a logical line there are no heads. -/
theorem heads_within {ts : List Token} (h : ∀ t ∈ ts, t.kind = .comment ∨ t.kind = .code) :
    heads false ts = [] ∧ freeAfter false ts = false := by
  induction ts with
  | nil => exact ⟨rfl, rfl⟩
  | cons t ts ih =>
    have hf : t.frees false = false := by
      rcases h t (by simp) with ht | ht <;> simp [Token.frees, ht]
    obtain ⟨h1, h2⟩ := ih fun u hu => h u (by simp [hu])
    simp only [heads, freeAfter, List.foldl_cons, hf] at h2 ⊢
    exact ⟨by simp [h1], h2⟩

end Offside
