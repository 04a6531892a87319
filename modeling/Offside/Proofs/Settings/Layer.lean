import Offside.Settings.Library

/-!
# Layers of settings

A layer gives values to names in nested tables. What it does to one name of one table
depends on nothing but the values that it gives to that name: they are put over the
value that is there, one after another.

Results:
* `lookup?_putAll`: what the entries of a table do to one name;
* `Path.set_eq_put`: a path of names does what nested tables would do;
* `Path.at?_setAll`: what a layer does to one name of one table;
* `Path.lookup?_setAll`: a layer without a name says nothing about it.
-/
namespace Offside

namespace Value

/-! ## Telling values apart -/

mutual

/-- Values are told apart part by part. -/
def decideEq (v w : Value) : Decidable (v = w) :=
  if h : v.ctorIdx = w.ctorIdx then
    match v, w, h with
    | .nothing, .nothing, _ => .isTrue rfl
    | .boolean a, .boolean b, _ => decidable_of_iff (a = b) (by simp)
    | .integer a, .integer b, _ => decidable_of_iff (a = b) (by simp)
    | .double a, .double b, _ => decidable_of_iff (a = b) (by simp)
    | .text a, .text b, _ => decidable_of_iff (a = b) (by simp)
    | .list a, .list b, _ => have := decideEqElements a b; decidable_of_iff (a = b) (by simp)
    | .table a, .table b, _ => have := decideEqEntries a b; decidable_of_iff (a = b) (by simp)
  else .isFalse fun e => h (congrArg Value.ctorIdx e)

def decideEqElements (vs ws : List Value) : Decidable (vs = ws) :=
  match vs, ws with
  | [], [] => .isTrue rfl
  | v :: vs, w :: ws =>
    have := decideEq v w
    have := decideEqElements vs ws
    decidable_of_iff (v = w ∧ vs = ws) (by simp)
  | [], _ :: _ | _ :: _, [] => .isFalse nofun

def decideEqEntries (es fs : List (Text × Value)) : Decidable (es = fs) :=
  match es, fs with
  | [], [] => .isTrue rfl
  | (n, v) :: es, (m, w) :: fs =>
    have := decideEq v w
    have := decideEqEntries es fs
    decidable_of_iff (n = m ∧ v = w ∧ es = fs) (by simp [and_assoc])
  | [], _ :: _ | _ :: _, [] => .isFalse nofun

end

instance : DecidableEq Value := decideEq

/-! ## One value over another -/

theorem put_eq (name : Text) (root v : Value) :
    put name root v = withName name (fun old => overlay putAll (old.getD (.table [])) v) root := by
  cases v <;> rfl

theorem lookup?_withName (name other : Text) (f : Option Value → Value) (root : Value) :
    lookup? other (withName name f root).entries =
      if other = foldCase name then some (f (lookup? (foldCase name) root.entries))
      else lookup? other root.entries :=
  lookup?_assign _ _ _ _

theorem lookup?_put (name other : Text) (root v : Value) :
    lookup? other (put name root v).entries =
      if other = foldCase name then
        some (overlay putAll ((lookup? other root.entries).getD (.table [])) v)
      else lookup? other root.entries := by
  rw [put_eq, lookup?_withName]
  split
  · next h => rw [h]
  · rfl

/-- What the entries of a table do to one name. -/
theorem lookup?_putAll (name : Text) (root : Value) (es : List (Text × Value)) :
    lookup? name (putAll root es).entries =
      settle putAll (lookup? name root.entries) (given name es) := by
  induction es generalizing root with
  | nil => rfl
  | cons e es ih =>
    obtain ⟨n, v⟩ := e
    rw [putAll, ih, lookup?_put]
    by_cases h : name = foldCase n
    · rw [if_pos h]
      simp [given, settle, h]
    · rw [if_neg h]
      simp [given, Ne.symm h]

theorem isTable_iff {v : Value} : v.isTable = true ↔ ∃ es, v = .table es := by
  cases v <;> simp [isTable]

theorem at?_put_table (group name other : Text) (root : Value) (es : List (Text × Value)) :
    at? group name (put other root (.table es)) =
      settle putAll (at? group name root) (if foldCase other = group then given name es else []) := by
  rw [at?, at?, lookup?_put]
  by_cases h : group = foldCase other
  · rw [if_pos h, if_pos h.symm, Option.bind_some]
    cases hold : lookup? group root.entries with
    | none => exact lookup?_putAll name _ es
    | some old => exact lookup?_putAll name old es
  · rw [if_neg h, if_neg (Ne.symm h)]
    rfl

end Value

/-! ## Paths of names -/

namespace Path

open Value

theorem setFrom_name (v : Value) (n : Text) (step : Step) (steps : List Step) (root : Value) :
    setFrom v (.name n :: step :: steps) root =
      root.withName n fun old => setFrom v (step :: steps) (old.getD .nothing) := by
  rw [setFrom]
  exact nofun

theorem setFrom_names {v : Value} {steps : List Step} {ns : List Text} (h : names? steps = some ns)
    (n : Text) (root : Value) :
    setFrom v (.name n :: steps) root = root.put n (nested v ns) := by
  induction steps generalizing n ns root with
  | nil =>
    cases h
    rfl
  | cons step steps ih =>
    cases step with
    | index i => cases h
    | name m =>
      obtain ⟨ms, hms, rfl⟩ := Option.map_eq_some_iff.1 h
      rw [setFrom_name, put_eq, nested]
      refine congrArg (withName n · root) (funext fun old => ?_)
      rw [ih hms, overlay, putAll, putAll]
      cases old <;> simp [put_eq, withName, entries]

/-- A path of names does what nested tables would do. -/
theorem set_eq_put {p : Path} {v w : Value} (h : p.headValue? v = some w) (root : Value) :
    p.set v root = root.put p.head w := by
  obtain ⟨ns, hns, rfl⟩ := Option.map_eq_some_iff.1 h
  exact setFrom_names hns _ _

theorem exists_withName (p : Path) (v : Value) :
    ∃ f, ∀ root, p.set v root = root.withName p.head f := by
  obtain ⟨head, steps⟩ := p
  cases steps with
  | nil => exact ⟨_, fun root => put_eq head root v⟩
  | cons step steps => exact ⟨_, setFrom_name v head step steps⟩

theorem lookup?_set {p : Path} {group : Text} (h : foldCase p.head ≠ group) (v root : Value) :
    lookup? group (p.set v root).entries = lookup? group root.entries := by
  obtain ⟨f, hf⟩ := p.exists_withName v
  rw [hf, lookup?_withName, if_neg (Ne.symm h)]

theorem isTable_set (p : Path) (v root : Value) : (p.set v root).isTable = true := by
  obtain ⟨f, hf⟩ := p.exists_withName v
  rw [hf]
  rfl

/-! ## Layers -/

section

variable {group name : Text} {a : Path × Value} {layer : List (Path × Value)} {root : Value}

theorem Fits.exists_entries (h : Fits group a) (hg : foldCase a.1.head = group) :
    ∃ es, a.1.headValue? a.2 = some (.table es) := by
  have hany := h hg
  cases hw : a.1.headValue? a.2 with
  | none => rw [hw] at hany; cases hany
  | some w =>
    rw [hw] at hany
    obtain ⟨es, rfl⟩ := isTable_iff.1 hany
    exact ⟨es, rfl⟩

theorem at?_set (h : Fits group a) (name : Text) (root : Value) :
    at? group name (a.1.set a.2 root) =
      settle putAll (at? group name root) (valuesFor group name a) := by
  by_cases hhead : foldCase a.1.head = group
  · obtain ⟨es, hw⟩ := h.exists_entries hhead
    rw [set_eq_put hw, at?_put_table, valuesFor, if_pos hhead, if_pos hhead, hw]
    rfl
  · rw [valuesFor, if_neg hhead, at?, lookup?_set hhead]
    rfl

/-- What a layer does to one name of one table. -/
theorem at?_setAll (h : ∀ a ∈ layer, Fits group a) (name : Text) (root : Value) :
    at? group name (setAll layer root) =
      settle putAll (at? group name root) (layer.flatMap (valuesFor group name)) := by
  induction layer generalizing root with
  | nil => rfl
  | cons a layer ih =>
    obtain ⟨ha, hlayer⟩ := List.forall_mem_cons.1 h
    rw [List.flatMap_cons, settle_append, ← at?_set ha]
    exact ih hlayer _

theorem isTable_setAll (h : root.isTable = true) (layer : List (Path × Value)) :
    (setAll layer root).isTable = true := by
  induction layer generalizing root with
  | nil => exact h
  | cons a layer ih => exact ih (isTable_set _ _ _)

/-- A layer without a name says nothing about it. -/
theorem lookup?_setAll (h : ∀ a ∈ layer, foldCase a.1.head ≠ group) :
    lookup? group (setAll layer root).entries = lookup? group root.entries := by
  induction layer generalizing root with
  | nil => rfl
  | cons a layer ih =>
    obtain ⟨ha, hlayer⟩ := List.forall_mem_cons.1 h
    exact (ih hlayer).trans (lookup?_set ha _ _)

/-! ## Paths to names in groups -/

theorem fits_of_leads {p : Path} (h : p.Leads group name) (v : Value) (other : Text) :
    Fits other (p, v) := by
  obtain ⟨m, hsteps, -, -⟩ := h
  intro _
  rw [headValue?, hsteps]
  rfl

/-- A path to a name in a group gives it its value, and nothing else. -/
theorem valuesFor_of_leads {p : Path} {g n : Text} (h : p.Leads g n) (v : Value) :
    valuesFor group name (p, v) = if g = group ∧ n = name then [v] else [] := by
  obtain ⟨m, hsteps, rfl, rfl⟩ := h
  rw [valuesFor, headValue?, hsteps]
  by_cases hg : foldCase p.head = group
  · by_cases hn : foldCase m = name <;> simp [hg, hn, names?, nested, given, entries]
  · simp [hg]

end

end Path

end Offside
