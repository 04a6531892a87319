import Mathlib.Data.List.Induction
import Offside.Place
import Offside.Proofs.Bytes.Checked

/-!
# Positions by search

The position of a byte offset is found among the offsets at which lines start: the line
is that of the last start that is not behind the offset, and the column what is left.
The search never comes out before the first line. For an offset between two characters the
position is that of the place there; within a character it is as many bytes on.

Results:
* `pairwise_lineStarts`: the list that is searched is ascending;
* `exists_lineStarts`: the starts of lines around a place of a text;
* `search_of_fits`: what a search comes to, whatever way it looks;
* `position_within`: the position of every byte of a text;
* `position_eq`: the position of every place of a text.
-/
namespace Offside

namespace Checked

open Text

/-- Where lines start behind the newlines among some bytes, the first of which is at
offset `n`. -/
def startsFrom (n : Nat) : List UInt8 → List Nat
  | [] => []
  | b :: bs =>
    if b = '\n'.toUInt8 then (n + 1) :: startsFrom (n + 1) bs else startsFrom (n + 1) bs

/-- The byte offsets at which the lines of a text start. -/
def lineStarts (t : Text) : List Nat := 0 :: startsFrom 0 t.bytes

/-- What looking a number up in an ascending list comes to: its place, or the place where
it would belong. -/
inductive Search where
  | found (i : Nat)
  | missing (i : Nat)
  deriving DecidableEq, Repr

/-- Looks a number up in an ascending list. -/
def search (ns : List Nat) (n : Nat) : Search :=
  let i := (ns.takeWhile (· < n)).length
  if ns[i]? = some n then .found i else .missing i

/-- The place of the last number that is not behind the one looked up. -/
def Search.last : Search → Option Nat
  | .found i => some i
  | .missing i => sub i 1

/-- The position of a byte offset, by the offsets at which lines start. -/
def position (starts : List Nat) (offset : Nat) : Option Position := do
  let i ← (search starts offset).last
  let start ← starts[i]?
  let column ← sub offset start
  return ⟨i + 1, column⟩

/-! ## Where lines start -/

theorem startsFrom_append (n : Nat) (bs cs : List UInt8) :
    startsFrom n (bs ++ cs) = startsFrom n bs ++ startsFrom (n + bs.length) cs := by
  induction bs generalizing n with
  | nil => rfl
  | cons b bs ih =>
    rw [List.cons_append, startsFrom, startsFrom, ih, List.length_cons, Nat.add_assoc,
      Nat.add_comm 1]
    split <;> rfl

theorem lt_of_mem_startsFrom {n : Nat} {bs : List UInt8} : ∀ m ∈ startsFrom n bs, n < m := by
  induction bs generalizing n with
  | nil => exact nofun
  | cons b bs ih =>
    intro m hm
    rw [startsFrom] at hm
    split at hm
    · rcases List.mem_cons.1 hm with rfl | hm
      · exact Nat.lt_succ_self n
      · exact Nat.lt_of_succ_lt (ih m hm)
    · exact Nat.lt_of_succ_lt (ih m hm)

theorem pairwise_startsFrom (n : Nat) (bs : List UInt8) : (startsFrom n bs).Pairwise (· < ·) := by
  induction bs generalizing n with
  | nil => exact List.Pairwise.nil
  | cons b bs ih =>
    rw [startsFrom]
    split
    · exact List.pairwise_cons.2 ⟨lt_of_mem_startsFrom, ih _⟩
    · exact ih _

/-- The list that is searched is ascending. -/
theorem pairwise_lineStarts (t : Text) : (lineStarts t).Pairwise (· < ·) :=
  List.pairwise_cons.2 ⟨lt_of_mem_startsFrom, pairwise_startsFrom _ _⟩

theorem startsFrom_eq_nil {n : Nat} {bs : List UInt8} (h : '\n'.toUInt8 ∉ bs) :
    startsFrom n bs = [] := by
  induction bs generalizing n with
  | nil => rfl
  | cons b bs ih =>
    rw [List.mem_cons, not_or] at h
    rw [startsFrom, if_neg (Ne.symm h.1), ih h.2]

theorem newline_not_mem_encode {c : Char} (hc : c ≠ '\n') :
    '\n'.toUInt8 ∉ String.utf8EncodeChar c := by
  intro hmem
  rcases exists_encode c with ⟨hlt, he⟩ | ⟨b, bs, -, he, hbs⟩
  · rw [he, List.mem_singleton] at hmem
    exact hc ((toUInt8_inj (by decide) hlt).1 hmem).symm
  · have hle := hbs _ (he ▸ hmem)
    have hten : ('\n'.toUInt8).toNat = 10 := by decide
    omega

theorem startsFrom_encode (n : Nat) (c : Char) :
    startsFrom n (String.utf8EncodeChar c) = if c = '\n' then [n + 1] else [] := by
  by_cases hc : c = '\n'
  · rw [if_pos hc, hc]
    rfl
  · rw [if_neg hc, startsFrom_eq_nil (newline_not_mem_encode hc)]

theorem lt_of_mem_startsFrom_within {n m : Nat} {b : Text} (h : ∀ c ∈ b.head?, m < c.utf8Size) :
    ∀ k ∈ startsFrom n b.bytes, n + m < k := by
  intro k hk
  cases b with
  | nil => cases hk
  | cons c b =>
    have hm : m < c.utf8Size := h c rfl
    rw [bytes_cons, startsFrom_append, startsFrom_encode, String.length_utf8EncodeChar] at hk
    rcases List.mem_append.1 hk with hk | hk
    · split at hk
      · next hc =>
        obtain rfl := List.mem_singleton.1 hk
        have hone : c.utf8Size = 1 := by rw [hc]; decide
        omega
      · cases hk
    · have := lt_of_mem_startsFrom k hk
      omega

theorem lineStarts_append (a b : Text) :
    lineStarts (a ++ b) = lineStarts a ++ startsFrom (byteSize a) b.bytes := by
  rw [lineStarts, bytes_append, startsFrom_append, Nat.zero_add]
  exact congrArg (fun n => 0 :: (_ ++ startsFrom n _)) (length_bytes a)

/-- The last line that starts before a place is the line of that place. -/
theorem exists_lineStarts (a : Text) : ∃ before start, lineStarts a = before ++ [start] ∧
    before.length + 1 = (Place.start.advance a).line ∧
    start + byteSize (Place.start.advance a).behind = byteSize a := by
  -- character by character from the right: only a newline opens another line
  induction a using List.reverseRecOn with
  | nil => exact ⟨[], 0, rfl, rfl, rfl⟩
  | append_singleton a c ih =>
    obtain ⟨before, start, hstarts, hline, hsize⟩ := ih
    have hbytes : bytes [c] = String.utf8EncodeChar c := by simp
    rw [lineStarts_append, hbytes, startsFrom_encode, hstarts, Place.advance_append,
      Place.advance_cons, Place.advance_nil, Place.step, byteSize_append, byteSize_cons, byteSize_nil]
    by_cases hc : c = '\n'
    · rw [if_pos hc, if_pos hc]
      refine ⟨before ++ [start], byteSize a + 1, rfl, ?_, ?_⟩
      · simp [hline]
      · have hone : c.utf8Size = 1 := by rw [hc]; decide
        simp [hone]
    · rw [if_neg hc, if_neg hc, List.append_nil]
      exact ⟨before, start, rfl, hline, by rw [byteSize_cons]; omega⟩

/-! ## Searching -/

/-- What looking a number up may come to: where it stands, or where it could be put in with
the list still ascending. -/
def Search.Fits (ns : List Nat) (n : Nat) : Search → Prop
  | .found i => ns[i]? = some n
  | .missing i => i ≤ ns.length ∧ (∀ m ∈ ns.take i, m < n) ∧ ∀ m ∈ ns.drop i, n < m

theorem search_append {before after : List Nat} {n : Nat} (hbefore : ∀ m ∈ before, m < n)
    (hafter : ∀ m ∈ after, n ≤ m) : search (before ++ after) n =
      if after.head? = some n then .found before.length else .missing before.length := by
  have hstop : after.takeWhile (· < n) = [] := by
    cases after with
    | nil => rfl
    | cons m after =>
      have hm := hafter m List.mem_cons_self
      exact List.takeWhile_cons_of_neg (by simpa using hm)
  have htake : (before ++ after).takeWhile (· < n) = before := by
    rw [List.takeWhile_append_of_pos fun m hm => decide_eq_true (hbefore m hm), hstop,
      List.append_nil]
  rw [search, htake, List.getElem?_append_right (Nat.le_refl _), Nat.sub_self,
    ← List.head?_eq_getElem?]

/-- Whatever way an ascending list is searched, there is one thing that it can come to. -/
theorem search_of_fits {ns : List Nat} {n : Nat} {r : Search} (h : ns.Pairwise (· < ·))
    (hr : r.Fits ns n) : search ns n = r := by
  cases r with
  | found i =>
    obtain ⟨hi, hget⟩ := List.getElem?_eq_some_iff.1 hr
    have hsplit : ns = ns.take i ++ n :: ns.drop (i + 1) := by
      rw [← hget, List.getElem_cons_drop, List.take_append_drop]
    rw [hsplit] at h
    obtain ⟨-, hdrop, hcross⟩ := List.pairwise_append.1 h
    have hbefore : ∀ m ∈ ns.take i, m < n := fun m hm => hcross m hm n List.mem_cons_self
    have hafter : ∀ m ∈ n :: ns.drop (i + 1), n ≤ m := List.forall_mem_cons.2
      ⟨Nat.le_refl n, fun m hm => Nat.le_of_lt ((List.pairwise_cons.1 hdrop).1 m hm)⟩
    rw [hsplit, search_append hbefore hafter, if_pos List.head?_cons,
      List.length_take_of_le (Nat.le_of_lt hi)]
  | missing i =>
    obtain ⟨hle, hbefore, hafter⟩ := hr
    have hhead : (ns.drop i).head? ≠ some n := fun hn =>
      Nat.lt_irrefl n (hafter n (List.mem_of_mem_head? hn))
    rw [← List.take_append_drop i ns,
      search_append hbefore fun m hm => Nat.le_of_lt (hafter m hm), if_neg hhead,
      List.length_take_of_le hle]

/-- The position of every byte of a text, `m` bytes into the character behind a place: the
search does not come out before the first line, and the line does not start behind the
offset. -/
theorem position_within (a b : Text) {m : Nat} (h : ∀ c ∈ b.head?, m < c.utf8Size) :
    position (lineStarts (a ++ b)) (byteSize a + m) =
      some ⟨(Place.start.advance a).line, (Place.start.advance a).position.column + m⟩ := by
  obtain ⟨before, start, hstarts, hline, hsize⟩ := exists_lineStarts a
  have hascending := pairwise_lineStarts (a ++ b)
  have hbehind : ∀ k ∈ startsFrom (byteSize a) b.bytes, byteSize a + m < k :=
    lt_of_mem_startsFrom_within h
  rw [lineStarts_append, hstarts] at hascending ⊢
  generalize startsFrom (byteSize a) b.bytes = after at hascending hbehind
  have hget : (before ++ [start] ++ after)[before.length]? = some start := by simp
  have hindex : (search (before ++ [start] ++ after) (byteSize a + m)).last = some before.length := by
    by_cases heq : start = byteSize a + m
    · have hfits : (Search.found before.length).Fits (before ++ [start] ++ after) (byteSize a + m) :=
        heq ▸ hget
      rw [search_of_fits hascending hfits, Search.last]
    · have hbefore : ∀ k ∈ before ++ [start], k < byteSize a + m := by
        have hlt := (List.pairwise_append.1 (List.pairwise_append.1 hascending).1).2.2
        intro k hk
        rcases List.mem_append.1 hk with hk | hk
        · have := hlt k hk start (List.mem_singleton_self _)
          omega
        · obtain rfl := List.mem_singleton.1 hk
          omega
      have hfits : (Search.missing (before ++ [start]).length).Fits
          (before ++ [start] ++ after) (byteSize a + m) := by
        refine ⟨by simp, ?_, ?_⟩
        · rwa [List.take_left]
        · rwa [List.drop_left]
      rw [search_of_fits hascending hfits, Search.last, List.length_append, List.length_singleton]
      exact sub_of_le (Nat.le_add_left _ _)
  have hcolumn : sub (byteSize a + m) start =
      some (byteSize (Place.start.advance a).behind + m) := by
    rw [sub_of_le (by omega)]
    exact congrArg some (by omega)
  simp only [position, hindex, hget, hcolumn, Option.bind_eq_bind, Option.bind_some, hline]
  rfl

/-- The position of every place of a text. -/
theorem position_eq (a b : Text) :
    position (lineStarts (a ++ b)) (byteSize a) = some (Place.start.advance a).position :=
  position_within a b fun c _ => c.utf8Size_pos

end Checked

end Offside
