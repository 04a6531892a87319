import Offside.Proofs.Lexeme.Evaluate
import Offside.Proofs.Normalize.Pass

/-!
# The ranges of a cleaned text

An analysis tells the lines of a program by the list that is left without the blank
ones. A reader who is given these lines as one text counts the lines of that text.
Both come to the same number: the last line that is left holds something, and a
carriage return at the end of a line takes no other line with it.

Results:
* `length_cleaned`: the lines that are left, put together and cut again, are as many;
* `findRanges_of_clean`: the ranges of the cleaned text are those of the analysis;
* `findRanges_cleaned`: the same for success and for what is wrong with the program.
-/
namespace Offside

open Lexeme Text Layout

/-- Put together and cut again, the lines that are left without the blank ones are as
many as before. -/
theorem length_cleaned {s : Text} {c : Cleaned} (h : clean s = .ok c) :
    c.text.lines.length = c.lines.length := by
  obtain ⟨ts, hts⟩ : ∃ ts, tokenize s = .ok ts := by
    cases hts : tokenize s with
    | ok ts => exact ⟨ts, rfl⟩
    | error e =>
      rw [clean, tokensOf, hts] at h
      cases h
  obtain ⟨es, last, hlog, rfl⟩ := exists_log hts
  obtain rfl := Except.ok.inj (hlog.clean_eq.symm.trans h)
  -- the cleaned text has a log of its own, with the rows that hold something
  obtain ⟨es', hlog', hrows, -⟩ := hlog.exists_cleaned
  calc (Text.lines (joinLines ((solidRows es).flatMap Row.lines))).length
      = height es' := hlog'.height_eq.symm
    _ = height (es.filter Entry.isSolid) := height_congr (hlog.lengths_of_cleaned hrows)
    _ = ((solidRows es).flatMap Row.lines).length := by rw [height, solidRows, List.flatMap_map]

/-- The ranges of the cleaned text are those of the analysis, and it is refused for the
same reason. -/
theorem findRanges_of_clean {s : Text} {c : Cleaned} (h : clean s = .ok c) (merge : Bool) :
    findRanges merge c.text = (analyse merge s).map (·.ranges) := by
  rw [findRanges, analyse, h, length_cleaned h]
  dsimp only
  cases tokensOf c.text with
  | error e => rfl
  | ok us =>
    dsimp only
    cases rangesOf merge us c.lines.length <;> rfl

/-- The ranges of a program are found in the text without its blank lines as well: if
the program has an analysis, they are its ranges; if it is refused once its cleaned text
has tokens, the cleaned text is refused for the same reason. -/
theorem findRanges_cleaned (merge : Bool) (s : Text) :
    (∀ a, analyse merge s = .ok a → findRanges merge (joinLines a.lines) = .ok a.ranges) ∧
    ∀ c us e, clean s = .ok c → tokensOf c.text = .ok us →
      rangesOf merge us c.lines.length = .error e →
      analyse merge s = .error e ∧ findRanges merge c.text = .error e := by
  constructor
  · intro a ha
    obtain ⟨ts, us, hts, hlines, hends, -, -⟩ := analyse_eq_ok.1 ha
    have hclean : clean s = .ok ⟨a.lines, a.endsBlank⟩ := by
      rw [clean, tokensOf_eq_ok.2 hts, hlines, hends]
      rfl
    have hfind := findRanges_of_clean hclean merge
    rw [ha] at hfind
    exact hfind
  · intro c us e hc hus he
    have hrefused : analyse merge s = .error e := by
      simp only [analyse, hc, hus, he]
    refine ⟨hrefused, ?_⟩
    rw [findRanges_of_clean hc, hrefused]
    rfl

/-- Lines that end in carriage returns, an empty one that is part of a literal, and blank
ones at the end; and an indent that stands where none can. -/
theorem findRanges_cleaned_returns :
    (∃ a, analyse true "a\r\r\n\n\'\'\'\n\n\'\'\'\r\nb\r\n \n".toList = .ok a ∧
      joinLines a.lines = "a\r\n\'\'\'\n\n\'\'\'\nb".toList ∧
      findRanges true "a\r\n\'\'\'\n\n\'\'\'\nb".toList = .ok a.ranges) ∧
    ∃ c us, clean "x\n\n  y\n".toList = .ok c ∧ tokensOf c.text = .ok us ∧
      rangesOf true us c.lines.length = .error (.structural ⟨⟨2, 0⟩, .indent⟩) ∧
      findRanges true c.text = .error (.structural ⟨⟨2, 0⟩, .indent⟩) := by
  constructor
  · have ha : analyse true "a\r\r\n\n\'\'\'\n\n\'\'\'\r\nb\r\n \n".toList = .ok
        ⟨["a\r", "\'\'\'", "", "\'\'\'", "b"].map (·.toList),
          [⟨1, 1, true⟩, ⟨2, 4, false⟩, ⟨5, 5, true⟩], true⟩ := by
      simp only [analyse, clean, tokensOf, tokenize, tokenizeWith, scan_eq_scanIn]
      decide +kernel
    exact ⟨_, ha, rfl, (findRanges_cleaned true _).1 _ ha⟩
  · have hc : clean "x\n\n  y\n".toList = .ok ⟨["x".toList, "  y".toList], true⟩ := by
      simp only [clean, tokensOf, tokenize, tokenizeWith, scan_eq_scanIn]
      decide +kernel
    have hall : (tokensOf (joinLines ["x".toList, "  y".toList])).map (rangesOf true · 2) =
        .ok (.error (.structural ⟨⟨2, 0⟩, .indent⟩)) := by
      simp only [tokensOf, tokenize, tokenizeWith, scan_eq_scanIn]
      decide +kernel
    cases hus : tokensOf (joinLines ["x".toList, "  y".toList]) with
    | error e => rw [hus] at hall; cases hall
    | ok us =>
      rw [hus] at hall
      have he : rangesOf true us 2 = .error (.structural ⟨⟨2, 0⟩, .indent⟩) := Except.ok.inj hall
      exact ⟨_, us, hc, hus, he, ((findRanges_cleaned true _).2 _ us _ hc hus he).2⟩

end Offside
