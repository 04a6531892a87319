import Offside.Proofs.Lexeme.Shape
import Offside.Settings.Path

/-!
# Names in any case of letters

A path to a name in a table is spelled with a point between the two. Spelled in other
cases of letters it leads to the same names, told apart without regard to case.

Results:
* `Path.plain_of_foldCase`: whether a name is plain does not depend on case;
* `Path.exists_pair`: a spelling of two names in any case of letters;
* `Path.parse?_pair`, `Path.parse?_plain`: the paths that plain names spell.
-/
namespace Offside

theorem forall_ascii {P : Char → Prop} (h : ∀ n < 128, P (Char.ofNat n)) {c : Char}
    (hc : c.toNat < 128) : P c := by
  have hP := h c.toNat hc
  rwa [Char.ofNat_toNat] at hP

theorem toLower_of_le {c : Char} (h : 128 ≤ c.toNat) : c.toLower = c := by
  unfold Char.toLower
  rw [dif_neg]
  intro hupper
  have hle := UInt32.le_iff_toNat_le.1 hupper.2
  have hZ : 'Z'.val.toNat = 90 := rfl
  have hc : c.val.toNat = c.toNat := rfl
  omega

theorem toLower_eq_point {c : Char} : c.toLower = '.' ↔ c = '.' := by
  by_cases h : c.toNat < 128
  · exact forall_ascii (P := fun c => c.toLower = '.' ↔ c = '.') (by decide) h
  · rw [toLower_of_le (Nat.le_of_not_lt h)]

namespace Path

theorem plainChar_toLower (c : Char) :
    (c.toLower.isAlphanum ∨ c.toLower = '_') ↔ (c.isAlphanum ∨ c = '_') := by
  by_cases h : c.toNat < 128
  · exact forall_ascii
      (P := fun c => (c.toLower.isAlphanum ∨ c.toLower = '_') ↔ (c.isAlphanum ∨ c = '_')) (by decide) h
  · rw [toLower_of_le (Nat.le_of_not_lt h)]

theorem plain_of_foldCase {t : Text} (h : Plain (Value.foldCase t)) : Plain t := by
  refine ⟨fun ht => h.1 (by rw [ht]; rfl), fun c hc => ?_⟩
  exact (plainChar_toLower c).1 (h.2 _ (List.mem_map_of_mem hc))

/-- What two plain names with a point between them look like in any case of letters. -/
theorem exists_pair {t a b : Text} (h : Value.foldCase t = a ++ '.' :: b) (ha : Plain a) (hb : Plain b) :
    ∃ n m, t = n ++ '.' :: m ∧ Plain n ∧ Plain m ∧ Value.foldCase n = a ∧ Value.foldCase m = b := by
  obtain ⟨n, rest, rfl, rfl, hrest⟩ := List.map_eq_append_iff.1 h
  obtain ⟨c, m, rfl, hc, rfl⟩ := List.map_eq_cons_iff.1 hrest
  obtain rfl := toLower_eq_point.1 hc
  exact ⟨n, m, rfl, plain_of_foldCase ha, plain_of_foldCase hb, rfl, rfl⟩

/-! ## Reading paths -/

theorem Plain.isNameChar {t : Text} (h : Plain t) : ∀ c ∈ t, isNameChar c = true := by
  intro c hc
  rcases h.2 c hc with hc | rfl
  · simp [Path.isNameChar, hc]
  · decide

theorem name?_append {n t : Text} (hn : Plain n) (ht : ∀ c ∈ t.head?, isNameChar c = false) :
    name? (n ++ t) = some (n, t) := by
  obtain ⟨h1, h2⟩ := Lexeme.takeWhile_run hn.isNameChar ht
  rw [name?, h1, h2]
  cases n with
  | nil => exact absurd rfl hn.1
  | cons c n => rfl

theorem name?_plain {n : Text} (hn : Plain n) : name? n = some (n, []) := by
  have h := name?_append (t := []) hn nofun
  rwa [List.append_nil] at h

theorem steps?_nil : steps? [] = some [] := by
  rw [steps?]
  rfl

/-- A plain name spells itself. -/
theorem parse?_plain {a : Text} (ha : Plain a) : parse? a = some ⟨a, []⟩ := by
  simp [parse?, name?_plain ha, steps?_nil]

/-- The path that two plain names with a point between them spell. -/
theorem parse?_pair {a b : Text} (ha : Plain a) (hb : Plain b) :
    parse? (a ++ '.' :: b) = some ⟨a, [.name b]⟩ := by
  have hsteps : steps? ('.' :: b) = some [.name b] := by
    rw [steps?, if_neg (by simp), step?, name?_plain hb]
    simp [steps?_nil]
  have hpoint : ∀ c ∈ ('.' :: b).head?, isNameChar c = false := by
    intro c hc
    obtain rfl := Option.some.inj hc
    decide
  rw [parse?, name?_append ha hpoint]
  dsimp only
  rw [hsteps]
  rfl

end Path

end Offside
