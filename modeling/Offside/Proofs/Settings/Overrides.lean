import Offside.Proofs.Settings.Spelling
import Offside.Settings.Basic

/-!
# Settings, layer by layer

With every settings library that keeps the laws, the sources give each setting a value, the
builder holds the last override of each, and what is built puts the one over the other.
Where overrides of one setting are spelled in different cases of letters, the library has to
take them for the same key.

Results:
* `Loader.at?_add`: what a file gives to settings, over what holds by default;
* `Loader.overrideAll_spec`: the overrides that a builder holds after a run of them;
* `Library.Holds.at?_build`: the value of a setting in what is built;
* `Settings.read_shape`, `Settings.read_shape_of_at?`: settings are read group by group, and
  in tables one by one.
-/
namespace Offside

open Settings Value

/-- A single setting. -/
inductive Setting where
  | lineEnding
  | mergeRuns
  | onError
  | level
  deriving DecidableEq, Repr

namespace Setting

/-- The table that the setting belongs to. -/
def group : Setting → Text
  | .lineEnding | .mergeRuns => normalizeName
  | .onError => outputName
  | .level => loggingName

/-- The name of the setting in its table. -/
def name : Setting → Text
  | .lineEnding => lineEndingName
  | .mergeRuns => mergeRunsName
  | .onError => onErrorName
  | .level => levelName

/-- How an override spells the setting, in small letters. -/
def key (x : Setting) : Text := x.group ++ '.' :: x.name

/-- The value of the setting where nothing else is said. -/
def initial : Setting → Value
  | .lineEnding => .text LineEnding.native.name
  | .mergeRuns => .boolean true
  | .onError => .text ErrorPolicy.fail.name
  | .level => .text "warn".toList

/-- What the setting is once it is read. -/
abbrev Data : Setting → Type
  | .lineEnding => LineEnding
  | .mergeRuns => Bool
  | .onError => ErrorPolicy
  | .level => Text

/-- How the setting is read. -/
def shape : (x : Setting) → Shape x.Data
  | .lineEnding => lineEndingShape
  | .mergeRuns => .boolean
  | .onError => onErrorShape
  | .level => .text

/-- The values that the entries of a file give to the setting, in order. -/
def fromFile (x : Setting) (L : Library) (entries : List (Text × Value)) : List Value :=
  (L.layer entries).flatMap (Path.valuesFor x.group x.name)

theorem key_inj {x y : Setting} : x.key = y.key ↔ x = y := by
  cases x <;> cases y <;> decide

theorem group_name_inj {x y : Setting} : x.group = y.group ∧ x.name = y.name ↔ x = y := by
  cases x <;> cases y <;> decide

theorem plain_group (x : Setting) : Path.Plain x.group := by cases x <;> decide

theorem plain_name (x : Setting) : Path.Plain x.name := by cases x <;> decide

end Setting

/-- The setting as it is in all settings. -/
def Settings.value (s : Settings) : (x : Setting) → x.Data
  | .lineEnding => s.lineEnding
  | .mergeRuns => s.mergeRuns
  | .onError => s.onError
  | .level => s.level

theorem Settings.exists_value {P : (x : Setting) → x.Data → Prop} (h : ∀ x, ∃ a, P x a) :
    ∃ s : Settings, ∀ x, P x (s.value x) := by
  choose value hvalue using h
  exact ⟨⟨value .lineEnding, value .mergeRuns, value .onError, value .level⟩,
    fun x => by cases x <;> exact hvalue _⟩

variable {L : Library}

/-! ## Keys of settings -/

theorem Path.Leads.unique {p : Path} {g g' n n' : Text} (h : p.Leads g n) (h' : p.Leads g' n') :
    g = g' ∧ n = n' := by
  obtain ⟨m, hsteps, rfl, rfl⟩ := h
  obtain ⟨m', hsteps', rfl, rfl⟩ := h'
  rw [hsteps] at hsteps'
  cases hsteps'
  exact ⟨rfl, rfl⟩

theorem Setting.exists_leads (h : L.NameLaws) {x : Setting} {k : Text} (hk : foldCase k = x.key) :
    ∃ p, L.key k = .ok p ∧ p.Leads x.group x.name := by
  obtain ⟨a, b, rfl, ha, hb, hga, hnb⟩ := Path.exists_pair hk x.plain_group x.plain_name
  rw [← hga, ← hnb]
  exact h.key_pair ha hb

/-! ## Sources -/

theorem valuesFor_plain (h : L.NameLaws) {n : Text} (hn : Path.Plain n) (group name : Text) (v : Value) :
    Path.valuesFor group name (L.name n, v) =
      if foldCase n = group then given name v.entries else [] := by
  obtain ⟨hsteps, hhead⟩ := h.name_plain hn
  rw [Path.valuesFor, Path.headValue?, hsteps, hhead]
  rfl

theorem fits_plain (h : L.NameLaws) {n : Text} (hn : Path.Plain n) {v : Value} (hv : v.isTable = true)
    (group : Text) : Path.Fits group (L.name n, v) := by
  obtain ⟨hsteps, -⟩ := h.name_plain hn
  intro _
  rw [Path.headValue?, hsteps]
  exact hv

theorem Setting.fromFile_defaults (h : L.NameLaws) {es ns : List (Text × Value)}
    (hes : es.Perm [
      (normalizeName, .table ns),
      (outputName, .table [(onErrorName, .text ErrorPolicy.fail.name)]),
      (loggingName, .table [(levelName, .text "warn".toList)])])
    (hns : ns.Perm [
      (lineEndingName, .text LineEnding.native.name), (mergeRunsName, .boolean true)])
    (hplain : ∀ e ∈ es, Path.Plain e.1) (x : Setting) : x.fromFile L es = [x.initial] := by
  have hflat : x.fromFile L es =
      es.flatMap fun e => if foldCase e.1 = x.group then given x.name e.2.entries else [] := by
    rw [Setting.fromFile, Library.layer, List.flatMap_map]
    exact List.flatMap_congr fun e he => valuesFor_plain h (hplain e he) _ _ _
  have hnames : ∀ n, (given n ns).Perm (given n [
      (lineEndingName, .text LineEnding.native.name), (mergeRunsName, .boolean true)]) :=
    fun n => (hns.filter _).map _
  refine List.perm_singleton.1 (hflat ▸ (hes.flatMap_right _).trans ?_)
  simp only [List.flatMap_cons, List.flatMap_nil, List.append_nil, entries]
  cases x with
  | lineEnding =>
    rw [if_pos (by decide), if_neg (by decide), if_neg (by decide), List.append_nil, List.append_nil]
    exact hnames lineEndingName
  | mergeRuns =>
    rw [if_pos (by decide), if_neg (by decide), if_neg (by decide), List.append_nil, List.append_nil]
    exact hnames mergeRunsName
  | onError =>
    rw [if_neg (by decide), if_pos (by decide), if_neg (by decide)]
    exact .rfl
  | level =>
    rw [if_neg (by decide), if_neg (by decide), if_pos (by decide)]
    exact .rfl

theorem Loader.at?_new (h : L.Laws) (hd : L.ReadsDefaults) :
    ∃ root, L.sources (Loader.new (L := L)).builder = .ok root ∧
      ∀ x : Setting, at? x.group x.name root = some x.initial := by
  obtain ⟨es, ns, hentries, hes, hns⟩ := hd
  have hplain : ∀ e ∈ es, Path.Plain e.1 ∧ e.2.isTable = true := by
    intro e he
    have hmem := hes.mem_iff.1 he
    simp only [List.mem_cons, List.not_mem_nil, or_false] at hmem
    rcases hmem with rfl | rfl | rfl
    · exact ⟨Setting.lineEnding.plain_group, rfl⟩
    · exact ⟨Setting.onError.plain_group, rfl⟩
    · exact ⟨Setting.level.plain_group, rfl⟩
  obtain ⟨root, hroot, hat⟩ := h.sources_add h.sources_new hentries
  refine ⟨root, hroot, fun x => ?_⟩
  have hfits : ∀ a ∈ L.layer es, Path.Fits x.group a := by
    intro a ha
    obtain ⟨e, he, rfl⟩ := List.mem_map.1 ha
    exact fits_plain h.toNameLaws (hplain e he).1 (hplain e he).2 _
  have hgiven : (L.layer es).flatMap (Path.valuesFor x.group x.name) = [x.initial] :=
    x.fromFile_defaults h.toNameLaws hes hns fun e he => (hplain e he).1
  rw [hat _ hfits, hgiven]
  cases x <;> rfl

/-- With a source that makes tables of all groups, each setting has the value that the
source puts over its initial one. -/
theorem Loader.at?_add (h : L.Laws) (hd : L.ReadsDefaults) {s : Source} {entries : List (Text × Value)}
    (hentries : L.entries s = .ok entries)
    (hfits : ∀ x : Setting, ∀ a ∈ L.layer entries, Path.Fits x.group a) :
    ∃ root, L.sources (Loader.new.add (L := L) s).builder = .ok root ∧
      ∀ x : Setting, at? x.group x.name root =
        some ((x.fromFile L entries).foldl (overlay L.merge) x.initial) := by
  obtain ⟨root, hroot, hat⟩ := Loader.at?_new h hd
  obtain ⟨root', hroot', hat'⟩ := h.sources_add hroot hentries
  refine ⟨root', hroot', fun x => ?_⟩
  rw [hat' _ (hfits x), hat, settle_some]
  rfl

/-! ## A run of overrides -/

/-- The values that overrides give along a path, in order. -/
def Library.valuesAlong (L : Library) (p : Path) (os : List (Text × Value)) : List Value :=
  (os.filter fun o => (L.key o.1).toOption = some p).map (·.2)

/-- One override: the builder holds its value on its path, and else what it held. -/
theorem Loader.override_spec (h : L.OverrideLaws) {k : Text} {p : Path} (hk : L.key k = .ok p)
    (v : Value) (l : Loader L) :
    ∃ l', l.override k v = .ok l' ∧ L.sources l'.builder = L.sources l.builder ∧
      ∀ q, L.overridden l'.builder q = if q = p then some v else L.overridden l.builder q := by
  obtain ⟨b, hb, hsources, hoverridden⟩ := h.override_ok hk v l.builder
  exact ⟨⟨b⟩, by rw [Loader.override, hb], hsources, hoverridden⟩

/-- A run of overrides: the builder holds the last value on each path, and else what it
held before. -/
theorem Loader.overrideAll_spec (h : L.OverrideLaws) {os : List (Text × Value)}
    (hkeys : ∀ o ∈ os, ∃ p, L.key o.1 = .ok p) (l : Loader L) :
    ∃ l', l.overrideAll os = .ok l' ∧ L.sources l'.builder = L.sources l.builder ∧
      ∀ q, L.overridden l'.builder q = (L.valuesAlong q os).getLast?.or (L.overridden l.builder q) := by
  induction os generalizing l with
  | nil => exact ⟨l, rfl, rfl, fun q => rfl⟩
  | cons o os ih =>
    obtain ⟨⟨p, hp⟩, hrest⟩ := List.forall_mem_cons.1 hkeys
    obtain ⟨l₁, hl₁, hsources₁, hoverridden₁⟩ := Loader.override_spec h hp o.2 l
    obtain ⟨l₂, hl₂, hsources₂, hoverridden₂⟩ := ih hrest l₁
    refine ⟨l₂, by rw [Loader.overrideAll, hl₁]; exact hl₂, hsources₂.trans hsources₁, fun q => ?_⟩
    have hcons : L.valuesAlong q (o :: os) =
        if q = p then o.2 :: L.valuesAlong q os else L.valuesAlong q os := by
      rw [Library.valuesAlong, List.filter_cons, hp]
      by_cases hq : q = p
      · simp [Except.toOption, Library.valuesAlong, hq]
      · simp [Except.toOption, Library.valuesAlong, hq, Ne.symm hq]
    rw [hoverridden₂, hoverridden₁, hcons]
    by_cases hq : q = p
    · rw [if_pos hq, if_pos hq, List.getLast?_cons]
      cases (L.valuesAlong q os).getLast? <;> rfl
    · rw [if_neg hq, if_neg hq]

/-! ## Overrides of settings -/

/-- Overrides of settings. Those of one setting are spelled so that the library takes them
for the same key, as it does at least if they are spelled alike. -/
structure Library.OfSettings (L : Library) (os : List (Text × Value)) : Prop where
  keys : ∀ o ∈ os, ∃ x : Setting, foldCase o.1 = x.key
  alike : ∀ o ∈ os, ∀ o' ∈ os, foldCase o.1 = foldCase o'.1 → L.key o.1 = L.key o'.1

section

variable {os : List (Text × Value)} {p : Path} {x : Setting}

theorem mem_given {name : Text} {es : List (Text × Value)} {v : Value} :
    v ∈ given name es ↔ ∃ n, (n, v) ∈ es ∧ foldCase n = name := by
  simp [given]

theorem toOption_eq_some {ε α : Type} {e : Except ε α} {a : α} : e.toOption = some a ↔ e = .ok a := by
  cases e <;> simp [Except.toOption]

/-- The path of an override leads to the setting that the override spells. -/
theorem Library.OfSettings.exists_leads (h : L.NameLaws) (hos : L.OfSettings os) {o : Text × Value}
    (ho : o ∈ os) (hkey : L.key o.1 = .ok p) :
    ∃ y : Setting, foldCase o.1 = y.key ∧ p.Leads y.group y.name := by
  obtain ⟨y, hy⟩ := hos.keys o ho
  obtain ⟨q, hq, hleads⟩ := Setting.exists_leads h hy
  obtain rfl := Except.ok.inj (hkey.symm.trans hq)
  exact ⟨y, hy, hleads⟩

theorem Setting.key_of_leads (h : L.NameLaws) (hos : L.OfSettings os) (hp : p.Leads x.group x.name)
    {o : Text × Value} (ho : o ∈ os) (hkey : L.key o.1 = .ok p) : foldCase o.1 = x.key := by
  obtain ⟨y, hy, hleads⟩ := hos.exists_leads h ho hkey
  rw [hy, Setting.key_inj]
  exact Setting.group_name_inj.1 (hleads.unique hp)

theorem Library.valuesAlong_eq (h : L.NameLaws) (hos : L.OfSettings os) (hp : p.Leads x.group x.name)
    {o : Text × Value} (ho : o ∈ os) (hkey : L.key o.1 = .ok p) :
    L.valuesAlong p os = given x.key os := by
  have hfilter : os.filter (fun o => (L.key o.1).toOption = some p) =
      os.filter (fun o => foldCase o.1 = x.key) := by
    refine List.filter_congr fun o' ho' => decide_eq_decide.2 ⟨fun hp' => ?_, fun hx => ?_⟩
    · exact Setting.key_of_leads h hos hp ho' (toOption_eq_some.1 hp')
    · have hfold := Setting.key_of_leads h hos hp ho hkey
      rw [hos.alike o' ho' o ho (hx.trans hfold.symm), hkey]
      rfl
  rw [Library.valuesAlong, hfilter, given]

/-- A builder that holds overrides of settings and no others. -/
def Library.Holds (L : Library) (os : List (Text × Value)) (b : L.Builder) : Prop :=
  ∀ q, L.overridden b q = (L.valuesAlong q os).getLast?

theorem Library.Holds.exists_override {b : L.Builder} (hb : L.Holds os b) {v : Value}
    (hv : L.overridden b p = some v) : ∃ o ∈ os, L.key o.1 = .ok p ∧ o.2 = v := by
  rw [hb] at hv
  obtain ⟨o, ho, rfl⟩ := List.mem_map.1 (List.mem_of_getLast? hv)
  obtain ⟨ho, hkey⟩ := List.mem_filter.1 ho
  exact ⟨o, ho, toOption_eq_some.1 (of_decide_eq_true hkey), rfl⟩

theorem Library.Holds.paired (h : L.NameLaws) (hos : L.OfSettings os) {b : L.Builder}
    (hb : L.Holds os b) : L.Paired b := by
  intro q v hv
  obtain ⟨o, ho, hkey, -⟩ := hb.exists_override hv
  obtain ⟨y, -, hleads⟩ := hos.exists_leads h ho hkey
  exact ⟨_, _, hleads⟩

/-- What is built gives a setting its last override, put over what the sources give it. -/
theorem Library.Holds.at?_build (h : L.Laws) (hos : L.OfSettings os) {b : L.Builder}
    (hb : L.Holds os b) {root t : Value} (hroot : L.sources b = .ok root) (ht : L.build b = .ok t)
    (x : Setting) :
    at? x.group x.name t =
      settle L.merge (at? x.group x.name root) (given x.key os).getLast?.toList := by
  cases hlast : (given x.key os).getLast? with
  | none =>
    refine h.build_rest hroot ht (hb.paired h.toNameLaws hos) fun q w hw hq => ?_
    obtain ⟨o, ho, hkey, -⟩ := hb.exists_override hw
    have hmem : o.2 ∈ given x.key os :=
      mem_given.2 ⟨o.1, ho, Setting.key_of_leads h.toNameLaws hos hq ho hkey⟩
    rw [List.getLast?_eq_none_iff.1 hlast] at hmem
    cases hmem
  | some v =>
    obtain ⟨k, ho, hk⟩ := mem_given.1 (List.mem_of_getLast? hlast)
    obtain ⟨q, hkey, hq⟩ := Setting.exists_leads h.toNameLaws hk
    have hv : L.overridden b q = some v := by
      rw [hb, L.valuesAlong_eq h.toNameLaws hos hq ho hkey, hlast]
    refine h.build_override hroot ht (hb.paired h.toNameLaws hos) hq hv fun r w hw hr => ?_
    obtain ⟨o, ho', hkey', -⟩ := hb.exists_override hw
    have hfold := Setting.key_of_leads h.toNameLaws hos hr ho' hkey'
    exact Except.ok.inj (hkey'.symm.trans ((hos.alike o ho' _ ho (hfold.trans hk.symm)).trans hkey))

theorem Library.Holds.lookup?_build (h : L.Laws) (hos : L.OfSettings os) {b : L.Builder}
    (hb : L.Holds os b) {root t : Value} (hroot : L.sources b = .ok root) (ht : L.build b = .ok t)
    {group : Text} (hnone : ∀ x : Setting, x.group = group → given x.key os = []) :
    lookup? group t.entries = lookup? group root.entries := by
  refine h.build_group hroot ht fun q w hw hgroup => ?_
  obtain ⟨o, ho, hkey, -⟩ := hb.exists_override hw
  obtain ⟨y, hy, m, -, hhead, -⟩ := hos.exists_leads h.toNameLaws ho hkey
  have hmem : o.2 ∈ given y.key os := mem_given.2 ⟨o.1, ho, hy⟩
  rw [hnone y (hhead.symm.trans hgroup)] at hmem
  cases hmem

theorem Loader.overrideAll_ofSettings (h : L.Laws) (hos : L.OfSettings os) {l : Loader L}
    (hl : ∀ q, L.overridden l.builder q = none) :
    ∃ l', l.overrideAll os = .ok l' ∧ L.sources l'.builder = L.sources l.builder ∧
      L.Holds os l'.builder := by
  have hkeys : ∀ o ∈ os, ∃ p, L.key o.1 = .ok p := by
    intro o ho
    obtain ⟨x, hx⟩ := hos.keys o ho
    obtain ⟨p, hp, -⟩ := Setting.exists_leads h.toNameLaws hx
    exact ⟨p, hp⟩
  obtain ⟨l', hl', hsources, hoverridden⟩ := Loader.overrideAll_spec h.toOverrideLaws hkeys l
  exact ⟨l', hl', hsources, fun q => by rw [hoverridden, hl, Option.or_none]⟩

end

theorem Loader.overridden_add (h : L.Laws) (s : Source) (q : Path) :
    L.overridden (Loader.new.add (L := L) s).builder q = none := by
  rw [Loader.add, h.overridden_add, Loader.new, Loader.add, h.overridden_add, h.overridden_new]

/-! ## Reading settings -/

theorem exists_table_of_at? {group name : Text} {root w : Value} (h : at? group name root = some w) :
    ∃ u, lookup? group root.entries = some u ∧ u.isTable = true ∧ lookup? name u.entries = some w := by
  obtain ⟨u, hu, hw⟩ := Option.bind_eq_some_iff.1 h
  refine ⟨u, hu, ?_, hw⟩
  cases u with
  | table es => rfl
  | _ => cases hw

namespace Library.ReadLaws

theorem read_field_congr (h : L.ReadLaws) {t t' : Value} (ht : t.isTable = true) (ht' : t'.isTable = true)
    {name : Text} (hlookup : lookup? name t.entries = lookup? name t'.entries) {α : Type}
    {shape : Shape α} {a : α} :
    L.read (.field name shape) t = .ok a ↔ L.read (.field name shape) t' = .ok a := by
  rw [h.read_field ht, h.read_field ht', hlookup]

theorem read_field_of_at? (h : L.ReadLaws) {t w : Value} (ht : t.isTable = true) {group name : Text}
    (hw : at? group name t = some w) {α : Type} {shape : Shape α} {a : α} :
    L.read (.field group (.field name shape)) t = .ok a ↔ L.read shape w = .ok a := by
  obtain ⟨u, hu, hutable, hlookup⟩ := exists_table_of_at? hw
  simp only [h.read_field ht, hu, Option.some.injEq, exists_eq_left', h.read_field hutable, hlookup]

end Library.ReadLaws

namespace Settings

/-- Settings are read group by group. -/
theorem read_shape (h : L.ReadLaws) {t : Value} (ht : t.isTable = true) {e : LineEnding} {b : Bool}
    {p : ErrorPolicy} {level : Text} :
    L.read shape t = .ok ((e, b), p, level) ↔
      L.read (.field normalizeName normalizeShape) t = .ok (e, b) ∧
      L.read (.field outputName (.field onErrorName onErrorShape)) t = .ok p ∧
      L.read (.field loggingName (.field levelName .text)) t = .ok level := by
  rw [shape, h.read_both ht, h.read_both ht]

theorem read_normalize (h : L.ReadLaws) {t u : Value} (ht : t.isTable = true)
    (hu : lookup? normalizeName t.entries = some u) (hutable : u.isTable = true)
    {e : LineEnding} {b : Bool} :
    L.read (.field normalizeName normalizeShape) t = .ok (e, b) ↔
      (∃ w, at? normalizeName lineEndingName t = some w ∧ L.read lineEndingShape w = .ok e) ∧
      ∃ w, at? normalizeName mergeRunsName t = some w ∧ L.read .boolean w = .ok b := by
  rw [h.read_field ht, at?, at?, hu]
  simp only [Option.some.injEq, exists_eq_left', Option.bind_some]
  rw [normalizeShape, h.read_both hutable, h.read_field hutable, h.read_field hutable]

/-- In tables, settings are read from the values of their names. -/
theorem read_shape_of_at? (h : L.ReadLaws) {t : Value} (ht : t.isTable = true) {value : Setting → Value}
    (hvalue : ∀ x : Setting, at? x.group x.name t = some (value x)) (s : Settings) :
    L.read shape t = .ok ((s.lineEnding, s.mergeRuns), s.onError, s.level) ↔
      ∀ x : Setting, L.read x.shape (value x) = .ok (s.value x) := by
  have hlineEnding : at? normalizeName lineEndingName t = some (value .lineEnding) := hvalue .lineEnding
  have hmergeRuns : at? normalizeName mergeRunsName t = some (value .mergeRuns) := hvalue .mergeRuns
  have honError : at? outputName onErrorName t = some (value .onError) := hvalue .onError
  have hlevel : at? loggingName levelName t = some (value .level) := hvalue .level
  obtain ⟨u, hu, hutable, -⟩ := exists_table_of_at? hlineEnding
  rw [read_shape h ht, read_normalize h ht hu hutable, hlineEnding, hmergeRuns,
    h.read_field_of_at? ht honError, h.read_field_of_at? ht hlevel]
  simp only [Option.some.injEq, exists_eq_left']
  constructor
  · rintro ⟨⟨he, hb⟩, hp, hl⟩ x
    cases x with
    | lineEnding => exact he
    | mergeRuns => exact hb
    | onError => exact hp
    | level => exact hl
  · intro hall
    exact ⟨⟨hall .lineEnding, hall .mergeRuns⟩, hall .onError, hall .level⟩

end Settings

theorem Loader.build_eq_ok {l : Loader L} {s : Settings} :
    l.build = .ok s ↔ ∃ t, L.build l.builder = .ok t ∧
      L.read Settings.shape t = .ok ((s.lineEnding, s.mergeRuns), s.onError, s.level) := by
  rw [Loader.build]
  cases L.build l.builder with
  | error e => simp
  | ok t =>
    simp only [Except.ok.injEq, exists_eq_left']
    cases L.read Settings.shape t with
    | error e => simp [Except.map]
    | ok f =>
      obtain ⟨⟨e, b⟩, p, level⟩ := f
      obtain ⟨e', b', p', level'⟩ := s
      simp [Except.map, Settings.ofFields, and_assoc]

end Offside
