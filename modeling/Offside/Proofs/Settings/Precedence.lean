import Offside.Proofs.Settings.Overrides
import Offside.Proofs.Settings.Standard

/-!
# Which value a setting has

A setting has the value of the last override that names it; without one, the value
that the file gives it; without that, what holds by default. A value that is a table is
no single value: it is merged entry by entry into the value below it, and an empty one
changes nothing. What does not count need not make sense.

Results:
* `Setting.counts_winning`: which value counts;
* `Loader.build_precedence`: the settings that a file and overrides of settings come to;
* `Settings.load_of_empty_table`: an empty table and a list where tables belong.
-/
namespace Offside

open Settings Value

/-- Whether a value says anything: all do but the empty table. -/
def Value.tells : Value → Bool
  | .table [] => false
  | _ => true

section

variable {merge : Value → List (Text × Value) → Value}

theorem foldl_overlay_filter (hmerge : ∀ v, merge v [] = v) (vs : List Value) (old : Value) :
    (vs.filter tells).foldl (overlay merge) old = vs.foldl (overlay merge) old := by
  induction vs generalizing old with
  | nil => rfl
  | cons v vs ih =>
    cases hv : v.tells with
    | true =>
      rw [List.filter_cons_of_pos hv]
      exact ih _
    | false =>
      have hempty : v = .table [] := by
        unfold tells at hv
        split at hv
        · rfl
        · cases hv
      rw [List.filter_cons_of_neg (by simp [hv]), List.foldl_cons, hempty, overlay, hmerge]
      exact ih _

theorem foldl_overlay_of_getLast {vs : List Value} {v : Value}
    (h : vs.getLast? = some v) (hv : v.isTable = false) (old : Value) :
    vs.foldl (overlay merge) old = v := by
  obtain ⟨ws, rfl⟩ := List.getLast?_eq_some_iff.1 h
  rw [List.foldl_append]
  exact overlay_of_not_table merge hv _

end

namespace Setting

/-- The value that counts for the setting. -/
def winning (x : Setting) (L : Library) (entries overrides : List (Text × Value)) : Value :=
  (x.fromFile L entries ++ (given x.key overrides).getLast?.toList).foldl (overlay L.merge) x.initial

/-- `w` is the value that counts for the setting, of those that a file gives to it and the
last override: the last that says anything, unless that is a table. -/
structure Counts (x : Setting) (file : List Value) (override? : Option Value) (w : Value) : Prop where
  of_override : ∀ v ∈ override?, v.isTable = false → w = v
  of_file : override?.any tells = false →
    ∀ v ∈ (file.filter tells).getLast?, v.isTable = false → w = v
  of_none : override?.any tells = false → file.filter tells = [] → w = x.initial

/-- Which value counts for a setting. -/
theorem counts_winning {L : Library} (h : L.SourceLaws) (x : Setting)
    (entries overrides : List (Text × Value)) :
    x.Counts (x.fromFile L entries) (given x.key overrides).getLast? (x.winning L entries overrides) := by
  have hwinning : ∀ {override? : Option Value}, override?.any tells = false →
      (x.fromFile L entries ++ override?.toList).foldl (overlay L.merge) x.initial =
        ((x.fromFile L entries).filter tells).foldl (overlay L.merge) x.initial := by
    intro override? hnone
    rw [← foldl_overlay_filter h.merge_nil, List.filter_append]
    cases override? with
    | none => rw [Option.toList_none, List.filter_nil, List.append_nil]
    | some v =>
      rw [Option.toList_some, List.filter_cons_of_neg (by simpa using hnone), List.filter_nil,
        List.append_nil]
  refine ⟨fun v hv ht => ?_, fun hnone v hv ht => ?_, fun hnone hfile => ?_⟩
  · refine foldl_overlay_of_getLast ?_ ht _
    rw [Option.mem_def.1 hv, Option.toList_some, List.getLast?_append]
    rfl
  · rw [winning, hwinning hnone]
    exact foldl_overlay_of_getLast hv ht _
  · rw [winning, hwinning hnone, hfile]
    rfl

end Setting

variable {L : Library}

theorem Loader.build_of_overrides (h : L.Laws) (hd : L.ReadsDefaults) {s : Source}
    {entries os : List (Text × Value)} (hentries : L.entries s = .ok entries)
    (hfits : ∀ x : Setting, ∀ a ∈ L.layer entries, Path.Fits x.group a) (hos : L.OfSettings os) :
    ∃ l : Loader L, (Loader.new.add s).overrideAll os = .ok l ∧ ∀ c, l.build = .ok c ↔
      ∀ x : Setting, L.read x.shape (x.winning L entries os) = .ok (c.value x) := by
  obtain ⟨l, hl, hsources, hholds⟩ := Loader.overrideAll_ofSettings h hos (Loader.overridden_add h s)
  obtain ⟨root, hroot, hat⟩ := Loader.at?_add h hd hentries hfits
  rw [hroot] at hsources
  obtain ⟨t, ht⟩ := h.build_isOk.2 ⟨root, hsources⟩
  have hvalue : ∀ x : Setting, at? x.group x.name t = some (x.winning L entries os) := by
    intro x
    rw [hholds.at?_build h hos hsources ht, hat, settle_some, Setting.winning, List.foldl_append]
  refine ⟨l, hl, fun c => ?_⟩
  rw [Loader.build_eq_ok, ← read_shape_of_at? h.toReadLaws (h.build_isTable ht) hvalue, ht]
  simp

/-- The settings that a source and overrides of settings come to, where the source makes
tables of all groups: the overrides are taken in, each setting has the value that counts for
it, and they fail to come about exactly if one of these values cannot be read. Overrides of
different settings can change places. -/
theorem Loader.build_precedence (h : L.Laws) (hd : L.ReadsDefaults) {s : Source}
    {entries os : List (Text × Value)} (hentries : L.entries s = .ok entries)
    (hfits : ∀ x : Setting, ∀ a ∈ L.layer entries, Path.Fits x.group a) (hos : L.OfSettings os) :
    ∃ l : Loader L, (Loader.new.add s).overrideAll os = .ok l ∧
      (∀ c, l.build = .ok c ↔
        ∀ x : Setting, L.read x.shape (x.winning L entries os) = .ok (c.value x)) ∧
      ((∃ e, l.build = .error e) ↔
        ∃ (x : Setting) (e : L.Error), L.read x.shape (x.winning L entries os) = .error e) ∧
      (∀ x : Setting, x.Counts (x.fromFile L entries) (given x.key os).getLast?
        (x.winning L entries os)) ∧
      ∀ os', List.Perm os' os → (∀ x : Setting, given x.key os' = given x.key os) →
        ∃ l' : Loader L, (Loader.new.add s).overrideAll os' = .ok l' ∧
          ∀ c, l'.build = .ok c ↔ l.build = .ok c := by
  obtain ⟨l, hl, hbuild⟩ := Loader.build_of_overrides h hd hentries hfits hos
  refine ⟨l, hl, hbuild, ⟨?_, ?_⟩, fun x => x.counts_winning h.toSourceLaws _ _,
    fun os' hperm hgiven => ?_⟩
  · rintro ⟨e, he⟩
    by_contra hnone
    have hread : ∀ x : Setting, ∃ a, L.read x.shape (x.winning L entries os) = .ok a := by
      intro x
      cases hx : L.read x.shape (x.winning L entries os) with
      | ok a => exact ⟨a, rfl⟩
      | error e => exact absurd ⟨x, e, hx⟩ hnone
    obtain ⟨c, hc⟩ := exists_value hread
    have hok := (hbuild c).2 hc
    rw [he] at hok
    cases hok
  · rintro ⟨x, e, hx⟩
    cases hb : l.build with
    | error e => exact ⟨e, rfl⟩
    | ok c =>
      have hok := (hbuild c).1 hb x
      rw [hx] at hok
      cases hok
  · have hos' : L.OfSettings os' :=
      ⟨fun o ho => hos.keys o (hperm.subset ho),
        fun o ho o' ho' => hos.alike o (hperm.subset ho) o' (hperm.subset ho')⟩
    obtain ⟨l', hl', hbuild'⟩ := Loader.build_of_overrides h hd hentries hfits hos'
    refine ⟨l', hl', fun c => ?_⟩
    have hsame : ∀ x : Setting, x.winning L entries os' = x.winning L entries os := fun x => by
      rw [Setting.winning, Setting.winning, hgiven]
    rw [hbuild, hbuild']
    simp only [hsame]

/-- A value that makes no sense and one that is overridden do not matter. -/
theorem Loader.build_precedence_shadowed :
    ∃ l : Loader (Standard.library fun _ => some
        "[normalize]\nline_ending = 'cr'\nmerge_single_line_runs = 0\n[Logging]\nLEVEL = 3\n".toList),
      (Loader.new.add (.file "replfeed.toml".toList true)).overrideAll
        [("Normalize.Line_Ending".toList, .text "LF".toList),
          ("output.on_error".toList, .text "never".toList),
          ("output.on_error".toList, .text "passthrough".toList)] = .ok l ∧
      l.build = .ok ⟨.lf, false, .passthrough, "3".toList⟩ := by
  have hentries : (Standard.library fun _ => some
      "[normalize]\nline_ending = 'cr'\nmerge_single_line_runs = 0\n[Logging]\nLEVEL = 3\n".toList).entries
        (.file "replfeed.toml".toList true) =
      .ok [("normalize".toList, .table [
          ("line_ending".toList, .text "cr".toList), ("merge_single_line_runs".toList, .integer 0)]),
        ("Logging".toList, .table [("LEVEL".toList, .integer 3)])] := by
    decide +kernel
  have hos : (Standard.library fun _ => some
      "[normalize]\nline_ending = 'cr'\nmerge_single_line_runs = 0\n[Logging]\nLEVEL = 3\n".toList).OfSettings
        [("Normalize.Line_Ending".toList, .text "LF".toList),
          ("output.on_error".toList, .text "never".toList),
          ("output.on_error".toList, .text "passthrough".toList)] := by
    refine ⟨?_, by decide +kernel⟩
    exact List.forall_mem_cons.2 ⟨⟨.lineEnding, by decide⟩,
      List.forall_mem_cons.2 ⟨⟨.onError, by decide⟩,
        List.forall_mem_cons.2 ⟨⟨.onError, by decide⟩, nofun⟩⟩⟩
  obtain ⟨l, hl, hbuild, -⟩ := build_precedence (Standard.library_laws _)
    (Standard.library_readsDefaults _) hentries (fun x => by cases x <;> decide +kernel) hos
  refine ⟨l, hl, (hbuild _).2 fun x => ?_⟩
  cases x <;> decide +kernel

namespace Settings

theorem load_eq_ok {file : Option Text} {entries os : List (Text × Value)}
    (hentries : (Standard.library fun _ => file).entries (.file "settings".toList false) = .ok entries)
    (hfits : ∀ x : Setting, ∀ a ∈ (Standard.library fun _ => file).layer entries, Path.Fits x.group a)
    (hos : (Standard.library fun _ => file).OfSettings os) {c : Settings} :
    load file os = .ok c ↔ ∀ x : Setting, Standard.read x.shape
      (x.winning (Standard.library fun _ => file) entries os) = .ok (c.value x) := by
  obtain ⟨l, hl, hbuild⟩ := Loader.build_of_overrides (Standard.library_laws _)
    (Standard.library_readsDefaults _) hentries hfits hos
  rw [load, hl]
  exact hbuild c

/-- An empty table changes nothing, although it is no line ending; an element of a list
takes the place of a table that no entry names. -/
theorem load_of_empty_table :
    (Toml.parse? "[normalize]\nline_ending = \x7b\x7d\n".toList =
        some [("normalize".toList, .table [("line_ending".toList, .table [])])] ∧
      Standard.read lineEndingShape (.table []) = .error .value ∧
      load (some "[normalize]\nline_ending = \x7b\x7d\n".toList) [] =
        .ok ⟨.native, true, .fail, "warn".toList⟩) ∧
    (Toml.parse? "\"normalize[0]\" = 1\n".toList = some [("normalize[0]".toList, .integer 1)] ∧
      load none [] = .ok ⟨.native, true, .fail, "warn".toList⟩ ∧
      load (some "\"normalize[0]\" = 1\n".toList) [] = .error .value) := by
  have hnone : ∀ file, (Standard.library fun _ => file).OfSettings [] := fun _ => ⟨nofun, nofun⟩
  have hempty : (Standard.library fun _ => some "[normalize]\nline_ending = \x7b\x7d\n".toList).entries
      (.file "settings".toList false) =
      .ok [("normalize".toList, .table [("line_ending".toList, .table [])])] := by
    decide +kernel
  have hmissing : (Standard.library fun _ => none).entries (.file "settings".toList false) = .ok [] := by
    decide +kernel
  refine ⟨⟨by decide +kernel, by decide +kernel, ?_⟩, by decide +kernel, ?_, by decide +kernel⟩
  · refine (load_eq_ok hempty (fun x => by cases x <;> decide +kernel) (hnone _)).2 fun x => ?_
    cases x <;> decide +kernel
  · refine (load_eq_ok hmissing (fun _ => nofun) (hnone _)).2 fun x => ?_
    cases x <;> decide +kernel

end Settings

end Offside
