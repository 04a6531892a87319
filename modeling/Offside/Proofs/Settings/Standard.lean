import Offside.Proofs.Settings.Layer
import Offside.Proofs.Settings.Spelling
import Offside.Settings.Standard

/-!
# The settings library that runs keeps the laws

Results:
* `Standard.library_laws`: the library that the program runs with does what is asked of a
  settings library;
* `Standard.library_readsDefaults`: it takes the shipped text as it reads.
-/
namespace Offside

open Value

namespace Shape

/-- In a table it does not matter where a list would have the fields. -/
theorem read?_of_isTable {α : Type} (s : Shape α) {v : Value} (h : v.isTable = true) (i j : Nat) :
    s.read? i v = s.read? j v := by
  obtain ⟨es, rfl⟩ := isTable_iff.1 h
  induction s generalizing i j with
  | boolean | text | choice => rfl
  | field name s => rfl
  | both s s' ih ih' => rw [read?, read?, ih i j, ih' (i + s.size) (j + s.size)]

end Shape

namespace Standard

/-! ## Overrides of a builder -/

theorem lookup_append_filter (os : List (Path × Value)) (p q : Path) (v : Value) :
    (os.filter (·.1 ≠ p) ++ [(p, v)]).lookup q = if q = p then some v else os.lookup q := by
  induction os with
  | nil =>
    rw [List.filter_nil, List.nil_append, List.lookup_cons]
    by_cases h : q = p
    · rw [beq_iff_eq.2 h, if_pos h]
    · rw [beq_false_of_ne h, if_neg h]
  | cons o os ih =>
    by_cases hq : q = o.1
    · by_cases hp : o.1 = p
      · rw [List.filter_cons_of_neg (by simpa using hp), ih, if_pos (hq.trans hp), if_pos (hq.trans hp)]
      · rw [List.filter_cons_of_pos (by simpa using hp), List.cons_append, List.lookup_cons,
          List.lookup_cons, beq_iff_eq.2 hq, if_neg (hq ▸ hp)]
    · have hcons : (o :: os).lookup q = os.lookup q := by rw [List.lookup_cons, beq_false_of_ne hq]
      by_cases hp : o.1 = p
      · rw [List.filter_cons_of_neg (by simpa using hp), ih, hcons]
      · rw [List.filter_cons_of_pos (by simpa using hp), List.cons_append, List.lookup_cons,
          beq_false_of_ne hq, hcons]
        exact ih

theorem lookup_of_mem {os : List (Path × Value)} (h : (os.map (·.1)).Nodup) {a : Path × Value}
    (ha : a ∈ os) : os.lookup a.1 = some a.2 := by
  induction os with
  | nil => cases ha
  | cons o os ih =>
    obtain ⟨hnot, hos⟩ := List.nodup_cons.1 h
    rcases List.mem_cons.1 ha with rfl | ha
    · exact List.lookup_cons_self
    · have hne : a.1 ≠ o.1 := fun he => hnot (List.mem_map.2 ⟨a, ha, he⟩)
      rw [List.lookup_cons, beq_false_of_ne hne]
      exact ih hos ha

section

variable {group name : Text} {os : List (Path × Value)}

theorem flatMap_valuesFor_eq_nil (hpaired : ∀ a ∈ os, ∃ g n, a.1.Leads g n)
    (h : ∀ a ∈ os, ¬a.1.Leads group name) : os.flatMap (Path.valuesFor group name) = [] := by
  refine List.flatMap_eq_nil_iff.2 fun a ha => ?_
  obtain ⟨g, n, hleads⟩ := hpaired a ha
  rw [Path.valuesFor_of_leads hleads, if_neg]
  rintro ⟨rfl, rfl⟩
  exact h a ha hleads

theorem flatMap_valuesFor_eq_singleton (hnodup : (os.map (·.1)).Nodup)
    (hpaired : ∀ a ∈ os, ∃ g n, a.1.Leads g n) {p : Path} {v : Value} (hp : p.Leads group name)
    (hv : os.lookup p = some v) (hone : ∀ a ∈ os, a.1.Leads group name → a.1 = p) :
    os.flatMap (Path.valuesFor group name) = [v] := by
  obtain ⟨l, r, rfl, -⟩ := List.lookup_eq_some_iff.1 hv
  rw [List.map_append, List.map_cons] at hnodup
  have hnot := (List.nodup_cons.1 (List.perm_middle.nodup_iff.1 hnodup)).1
  have hrest : ∀ a ∈ l ++ r, ¬a.1.Leads group name := by
    intro a ha hleads
    have hmem : a ∈ l ++ (p, v) :: r := by
      rcases List.mem_append.1 ha with ha | ha
      · exact List.mem_append_left _ ha
      · exact List.mem_append_right _ (List.mem_cons_of_mem _ ha)
    refine hnot ?_
    rw [← List.map_append]
    exact List.mem_map.2 ⟨a, ha, hone a hmem hleads⟩
  have hl : l.flatMap (Path.valuesFor group name) = [] := flatMap_valuesFor_eq_nil
    (fun a ha => hpaired a (List.mem_append_left _ ha)) fun a ha => hrest a (List.mem_append_left _ ha)
  have hr : r.flatMap (Path.valuesFor group name) = [] := flatMap_valuesFor_eq_nil
    (fun a ha => hpaired a (List.mem_append_right _ (List.mem_cons_of_mem _ ha)))
    fun a ha => hrest a (List.mem_append_right _ ha)
  rw [List.flatMap_append, List.flatMap_cons, hl, hr, Path.valuesFor_of_leads hp, if_pos ⟨rfl, rfl⟩]
  rfl

end

/-! ## The laws -/

variable (files : Text → Option Text)

theorem nameLaws : (library files).NameLaws where
  key_pair {a b} ha hb := by
    refine ⟨⟨a, [.name b]⟩, ?_, b, rfl, rfl, rfl⟩
    show key (a ++ '.' :: b) = _
    rw [key, Path.parse?_pair ha hb]
    rfl
  name_plain {a} ha := by
    have hname : (library files).name a = ⟨a, []⟩ := by
      show pathOfName a = _
      rw [pathOfName, Path.parse?_plain ha]
      rfl
    rw [hname]
    exact ⟨rfl, rfl⟩

theorem layers_append {files} {root root' : Value} {ss : List Source} {s : Source}
    {es : List (Text × Value)} (h : layers files root ss = .ok root')
    (hs : entries files s = .ok es) :
    layers files root (ss ++ [s]) = .ok (Path.setAll ((library files).layer es) root') := by
  induction ss generalizing root with
  | nil =>
    obtain rfl := Except.ok.inj h
    rw [List.nil_append, layers, hs]
    rfl
  | cons s' ss ih =>
    rw [layers] at h
    rw [List.cons_append, layers]
    cases hs' : entries files s' with
    | error e => rw [hs'] at h; cases h
    | ok es' =>
      rw [hs'] at h
      exact ih h

theorem sourceLaws : (library files).SourceLaws where
  sources_new := rfl
  sources_add hb hs := ⟨_, layers_append hb hs, fun _ hfits name => Path.at?_setAll hfits name _⟩
  merge_nil v := by
    show putAll v [] = v
    rw [putAll]

theorem isTable_layers {files} {root root' : Value} (hroot : root.isTable = true) {ss : List Source}
    (h : layers files root ss = .ok root') : root'.isTable = true := by
  induction ss generalizing root with
  | nil =>
    obtain rfl := Except.ok.inj h
    exact hroot
  | cons s ss ih =>
    rw [layers] at h
    cases hs : entries files s with
    | error e => rw [hs] at h; cases h
    | ok es =>
      rw [hs] at h
      exact ih (Path.isTable_setAll hroot _) h

theorem build_eq {files} {b : Builder} {root t : Value} (hb : (library files).sources b = .ok root)
    (ht : (library files).build b = .ok t) : t = Path.setAll b.overrides root := by
  have hbuild : (library files).build b = ((library files).sources b).map (Path.setAll b.overrides) := rfl
  rw [hbuild, hb] at ht
  exact (Except.ok.inj ht).symm

theorem exists_leads {files} {b : Builder} (h : (library files).Paired b) :
    ∀ a ∈ b.overrides, ∃ g n, a.1.Leads g n :=
  fun a ha => h a.1 a.2 (lookup_of_mem b.nodup ha)

theorem overrideLaws : (library files).OverrideLaws where
  overridden_new _ := rfl
  overridden_add _ _ _ := rfl
  override_ok {k p} hk v b := by
    refine ⟨Builder.overrideAt p v b, ?_, rfl, fun q => lookup_append_filter _ p q v⟩
    show (key k).map _ = _
    rw [show key k = .ok p from hk]
    rfl
  build_isOk {b} := by
    have hbuild : (library files).build b = ((library files).sources b).map (Path.setAll b.overrides) := rfl
    rw [hbuild]
    cases (library files).sources b <;> simp [Except.map]
  build_isTable {b t} ht := by
    obtain ⟨root, hroot⟩ : ∃ root, (library files).sources b = .ok root := by
      cases hb : (library files).sources b with
      | ok root => exact ⟨root, rfl⟩
      | error e =>
        rw [show (library files).build b = ((library files).sources b).map _ from rfl, hb] at ht
        cases ht
    rw [build_eq hroot ht]
    exact Path.isTable_setAll (isTable_layers rfl hroot) _
  build_override {b root t} hb ht hpaired p group name v hp hv hone := by
    have hleads := exists_leads hpaired
    rw [build_eq hb ht, Path.at?_setAll (fun a ha => ?_), flatMap_valuesFor_eq_singleton b.nodup hleads hp hv
      fun a ha => hone a.1 a.2 (lookup_of_mem b.nodup ha)]
    · rfl
    · obtain ⟨g, n, h⟩ := hleads a ha
      exact Path.fits_of_leads h a.2 group
  build_rest {b root t} hb ht hpaired group name hnone := by
    have hleads := exists_leads hpaired
    rw [build_eq hb ht, Path.at?_setAll (fun a ha => ?_), flatMap_valuesFor_eq_nil hleads
      fun a ha => hnone a.1 a.2 (lookup_of_mem b.nodup ha)]
    · rfl
    · obtain ⟨g, n, h⟩ := hleads a ha
      exact Path.fits_of_leads h a.2 group
  build_group {b root t} hb ht group hnone := by
    rw [build_eq hb ht]
    exact Path.lookup?_setAll fun a ha => hnone a.1 a.2 (lookup_of_mem b.nodup ha)

theorem read_eq_ok {α : Type} {s : Shape α} {v : Value} {a : α} :
    read s v = .ok a ↔ s.read? 0 v = some a := by
  rw [read]
  cases s.read? 0 v <;> simp

theorem readLaws : (library files).ReadLaws where
  read_boolean _ := rfl
  read_choice {α names n a} hfold ha := by
    refine read_eq_ok.2 ?_
    obtain ⟨l, r, hnames, -⟩ := List.lookup_eq_some_iff.1 ha
    have hn : foldCase n = n := hfold (n, a) (by rw [hnames]; exact List.mem_append_right _ List.mem_cons_self)
    rw [Shape.read?, choice?, hn, ha]
  read_field {α name s v a} hv := by
    obtain ⟨es, rfl⟩ := isTable_iff.1 hv
    refine read_eq_ok.trans ?_
    rw [Shape.read?, Option.bind_eq_some_iff]
    exact exists_congr fun w => and_congr_right fun _ => read_eq_ok.symm
  read_both {α β s s' v a b} hv := by
    refine read_eq_ok.trans (Iff.trans ?_ (and_congr read_eq_ok read_eq_ok).symm)
    rw [Shape.read?, s'.read?_of_isTable hv (0 + s.size) 0]
    cases s.read? 0 v <;> cases s'.read? 0 v <;> simp

/-- The library that the program runs with does what is asked of a settings library. -/
theorem library_laws : (library files).Laws where
  toNameLaws := nameLaws files
  toSourceLaws := sourceLaws files
  toOverrideLaws := overrideLaws files
  toReadLaws := readLaws files

/-- It takes the shipped text as it reads. -/
theorem library_readsDefaults : (library files).ReadsDefaults := by
  have hparse : Toml.parse? Settings.defaultText = some [
      (Settings.normalizeName, .table [
        (Settings.lineEndingName, .text LineEnding.native.name), (Settings.mergeRunsName, .boolean true)]),
      (Settings.outputName, .table [(Settings.onErrorName, .text ErrorPolicy.fail.name)]),
      (Settings.loggingName, .table [(Settings.levelName, .text "warn".toList)])] := by
    decide +kernel
  refine ⟨_, _, ?_, .rfl, .rfl⟩
  show document _ = _
  rw [document, hparse]
  rfl

end Standard

end Offside
