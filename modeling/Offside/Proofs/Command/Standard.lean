import Offside.Command.Basic
import Offside.Proofs.Settings.Standard

/-!
# The command that runs keeps the laws

Results:
* `Json.numbers_render`: the numbers of a plain value are read back from what is written;
* `Standard.toolkit_laws`: the libraries that the command runs with do what is asked of them.
-/
namespace Offside

open Text

namespace Json

theorem numbers_indent (depth : Nat) (t : Text) : (indent depth ++ t).numbers = t.numbers := by
  refine numbers_append (fun c hc => ?_) t
  rw [List.eq_of_mem_replicate hc]
  rfl

theorem toNat_lt_of_plain {c : Char} (h : c.isAlpha ∨ c = '_') : c.toNat < 128 := by
  rcases h with h | rfl
  · unfold Char.isAlpha Char.isUpper Char.isLower at h
    simp only [Bool.or_eq_true, Bool.and_eq_true, decide_eq_true_eq, UInt32.le_iff_toNat_le,
      ge_iff_le] at h
    have hc : c.toNat = c.val.toNat := rfl
    have hZ : 'Z'.val.toNat = 90 := rfl
    have hz : 'z'.val.toNat = 122 := rfl
    omega
  · decide

theorem escape_of_plain {c : Char} (h : c.isAlpha ∨ c = '_') : c.isDigit = false ∧ escape c = [c] :=
  forall_ascii (P := fun c => (c.isAlpha ∨ c = '_') → c.isDigit = false ∧ escape c = [c])
    (by decide) (toNat_lt_of_plain h) h

theorem numbers_quote {name : Text} (h : PlainName name) (t : Text) :
    (quote name ++ t).numbers = t.numbers := by
  have hquote : quote name = '"' :: name ++ ['"'] := by
    have hflat : name.flatMap escape = name := by
      induction name with
      | nil => rfl
      | cons c name ih =>
        obtain ⟨hc, hname⟩ := List.forall_mem_cons.1 h
        rw [List.flatMap_cons, (escape_of_plain hc).2, ih hname]
        rfl
    rw [quote, hflat]
  rw [hquote]
  refine numbers_append (fun c hc => ?_) t
  simp only [List.mem_append, List.mem_cons, List.not_mem_nil, or_false] at hc
  rcases hc with (rfl | hc) | rfl
  · rfl
  · exact (escape_of_plain (h c hc)).1
  · rfl

theorem numbers_append_separator (last : Bool) (s t : Text) :
    (s ++ ((if last then ['\n'] else [',', '\n']) ++ t)).numbers = s.numbers ++ t.numbers := by
  cases last with
  | true => exact numbers_append_cons (by decide) s t
  | false =>
    refine (numbers_append_cons (by decide) s ('\n' :: t)).trans ?_
    exact congrArg (s.numbers ++ ·) (numbers_append_cons (by decide) [] t)

mutual

/-- The numbers of a plain value are read back from what is written. -/
theorem numbers_render (depth : Nat) (v : Json) (h : v.Plain) :
    (render depth v).numbers = v.numbers :=
  match v with
  | .number n => numbers_toDigits n
  | .boolean b => by cases b <;> rfl
  | .string t => h.elim
  | .list [] => rfl
  | .list (v :: vs) => by
    rw [render, List.append_assoc, List.append_assoc, numbers_append (by simp)]
    have hvs := numbers_renderElements (depth + 1) (v :: vs) h (indent depth ++ [']'])
    rw [hvs, numbers_indent]
    exact List.append_nil _
  | .object [] => rfl
  | .object (m :: ms) => by
    rw [render, List.append_assoc, List.append_assoc, numbers_append (by simp)]
    have hms := numbers_renderMembers (depth + 1) (m :: ms) h (indent depth ++ ['\x7d'])
    rw [hms, numbers_indent]
    exact List.append_nil _

theorem numbers_renderElements (depth : Nat) (vs : List Json) (h : PlainElements vs) (t : Text) :
    (renderElements depth vs ++ t).numbers = elementNumbers vs ++ t.numbers :=
  match vs with
  | [] => rfl
  | v :: vs => by
    have hv := numbers_render depth v h.1
    have hvs := numbers_renderElements depth vs h.2 t
    rw [renderElements, elementNumbers, List.append_assoc, List.append_assoc, List.append_assoc,
      numbers_indent, numbers_append_separator, hv, hvs, List.append_assoc]

theorem numbers_renderMembers (depth : Nat) (ms : List (String × Json)) (h : PlainMembers ms)
    (t : Text) : (renderMembers depth ms ++ t).numbers = memberNumbers ms ++ t.numbers :=
  match ms with
  | [] => rfl
  | (name, v) :: ms => by
    have hv := numbers_render depth v h.2.1
    have hms := numbers_renderMembers depth ms h.2.2 t
    simp only [renderMembers, memberNumbers, List.append_assoc]
    rw [numbers_indent, numbers_quote h.1, numbers_append (by simp), numbers_append_separator,
      hv, hms]

end

end Json

/-- The libraries that the command runs with do what is asked of them. -/
theorem Standard.toolkit_laws (files : Text → Option Text) : (toolkit files).Laws where
  settings := library_laws files
  defaults := library_readsDefaults files
  pretty_plain {v} hv := ⟨v.render 0, rfl, Json.numbers_render 0 v hv⟩

end Offside
