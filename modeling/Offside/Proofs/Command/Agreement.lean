import Offside.Proofs.Command.Standard
import Offside.Proofs.Normalize.Pass
import Offside.Proofs.Settings.Precedence

/-!
# Two commands on one program

One command normalizes a program, another lists the ranges of its statements. Each
finds its settings by itself, the first with more overrides than the second. What these
say beyond the second's is nothing about runs of single lines, so that both see the same
ranges.

Results:
* `Request.exists_settings`: a file of tables that has settings has them under every command;
* `Request.exists_settings_iff`: where nothing is said of line endings, both commands have
  settings or neither has;
* `Request.mergeRuns_eq`: both commands keep runs of single lines together, or neither does;
* `Command.numbers_formatRanges`: the lines of ranges are read back from what is written;
* `Toolkit.run_agree`: both commands succeed on the same programs, and what the first
  writes is told by what the second does.
-/
namespace Offside

open Text Settings Value

variable {L : Library} {T : Toolkit}

/-! ## What a command overrides -/

namespace Command

/-- The values that a command gives to a setting. -/
def valuesOf : Command → Setting → List Value
  | .normalize lineEnding? _ _, .lineEnding => lineEnding?.toList.map fun e => .text e.name
  | .normalize _ noMerge _, .mergeRuns => if noMerge then [.boolean false] else []
  | .normalize _ _ onError?, .onError => onError?.toList.map fun p => .text p.name
  | .statements _ noMerge, .mergeRuns => if noMerge then [.boolean false] else []
  | _, _ => []

theorem given_merging (noMerge : Bool) (x : Setting) : given x.key (overrides.merging noMerge) =
    if x = .mergeRuns ∧ noMerge then [.boolean false] else [] := by
  cases noMerge <;> cases x <;> rfl

theorem given_overrides (c : Command) (x : Setting) : given x.key c.overrides = c.valuesOf x := by
  cases c with
  | tokens f => rfl
  | statements f m => rw [overrides, given_merging]; cases m <;> cases x <;> rfl
  | normalize e m p =>
    have happend : ∀ os os', given x.key (os ++ os') = given x.key os ++ given x.key os' := by
      intro os os'
      rw [given, List.filter_append, List.map_append]
      rfl
    rw [overrides, happend, happend, given_merging]
    cases x <;> cases e <;> cases m <;> cases p <;> rfl

theorem overrides_ofSettings (c : Command) : L.OfSettings c.overrides := by
  have hmerging : ∀ m, ∀ o ∈ overrides.merging m, ∃ x : Setting, o.1 = x.key := by
    intro m o ho
    cases m with
    | false => cases ho
    | true =>
      obtain rfl := List.mem_singleton.1 ho
      exact ⟨.mergeRuns, rfl⟩
  have hkeys : ∀ o ∈ c.overrides, ∃ x : Setting, o.1 = x.key := by
    cases c with
    | tokens f => exact nofun
    | statements f m => exact hmerging m
    | normalize e m p =>
      intro o ho
      rcases List.mem_append.1 ho with ho | ho
      · rcases List.mem_append.1 ho with ho | ho
        · obtain ⟨e, -, rfl⟩ := List.mem_map.1 ho
          exact ⟨.lineEnding, rfl⟩
        · obtain ⟨p, -, rfl⟩ := List.mem_map.1 ho
          exact ⟨.onError, rfl⟩
      · exact hmerging m o ho
  have hfold : ∀ x : Setting, foldCase x.key = x.key := by
    intro x
    cases x <;> decide
  refine ⟨fun o ho => ?_, fun o ho o' ho' he => ?_⟩
  · obtain ⟨x, hx⟩ := hkeys o ho
    exact ⟨x, hx ▸ hfold x⟩
  · obtain ⟨x, hx⟩ := hkeys o ho
    obtain ⟨y, hy⟩ := hkeys o' ho'
    rw [hx, hy, hfold, hfold] at he
    rw [hx, hy, he]

end Command

theorem read_lineEnding (h : L.ReadLaws) (e : LineEnding) :
    L.read lineEndingShape (.text e.name) = .ok e :=
  h.read_choice (by decide) (by cases e <;> decide)

theorem read_onError (h : L.ReadLaws) (p : ErrorPolicy) :
    L.read onErrorShape (.text p.name) = .ok p :=
  h.read_choice (by decide) (by cases p <;> decide)

theorem Command.valuesOf_spec (h : L.ReadLaws) {c : Command} {x : Setting} {v : Value}
    (hv : v ∈ c.valuesOf x) : v.isTable = false ∧ ∃ a, L.read x.shape v = .ok a := by
  have hmerging : ∀ {m : Bool}, v ∈ (if m then [.boolean false] else [] : List Value) →
      v.isTable = false ∧ ∃ a, L.read .boolean v = .ok a := by
    intro m hv
    cases m with
    | false => cases hv
    | true =>
      obtain rfl := List.mem_singleton.1 hv
      exact ⟨rfl, _, h.read_boolean _⟩
  cases c with
  | tokens f => cases x <;> cases hv
  | statements f m =>
    cases x with
    | mergeRuns => exact hmerging hv
    | _ => cases hv
  | normalize e m p =>
    cases x with
    | lineEnding =>
      obtain ⟨e, -, rfl⟩ := List.mem_map.1 hv
      exact ⟨rfl, _, read_lineEnding h e⟩
    | mergeRuns => exact hmerging hv
    | onError =>
      obtain ⟨p, -, rfl⟩ := List.mem_map.1 hv
      exact ⟨rfl, _, read_onError h p⟩
    | level => cases hv

/-! ## The settings of a request -/

namespace Request

/-- A settings file that gives settings by itself, or none where there may be none. -/
def ValidFile (r : Request) (L : Library) : Prop := ∃ s, (r.loader L).build = .ok s

/-- A settings file that makes tables of all groups, and no lists. -/
def MakesTables (r : Request) (L : Library) : Prop :=
  ∃ entries, L.entries r.configFile = .ok entries ∧
    ∀ x : Setting, ∀ a ∈ L.layer entries, Path.Fits x.group a

theorem settings_eq_ok (h : L.Laws) (hd : L.ReadsDefaults) {r : Request} {entries : List (Text × Value)}
    (hentries : L.entries r.configFile = .ok entries)
    (hfits : ∀ x : Setting, ∀ a ∈ L.layer entries, Path.Fits x.group a) {s : Settings} :
    r.settings L = .ok s ↔
      ∀ x : Setting, L.read x.shape (x.winning L entries r.command.overrides) = .ok (s.value x) := by
  obtain ⟨l, hl, hbuild⟩ := Loader.build_of_overrides h hd hentries hfits r.command.overrides_ofSettings
  rw [settings, loader, hl]
  exact hbuild s

/-- A file of tables that has settings has them under every command. -/
theorem exists_settings (h : T.Laws) {r : Request} (hvalid : r.ValidFile T.settings)
    (htables : r.MakesTables T.settings) : ∃ s, r.settings T.settings = .ok s := by
  obtain ⟨entries, hentries, hfits⟩ := htables
  -- the settings that the file gives by itself are those of a command without overrides
  obtain ⟨d, hd⟩ : ∃ d, ({ r with command := .tokens .simple } : Request).settings T.settings = .ok d :=
    hvalid
  have hbase := (settings_eq_ok h.settings h.defaults (r := { r with command := .tokens .simple })
    hentries hfits).1 hd
  have hread : ∀ x : Setting, ∃ a,
      T.settings.read x.shape (x.winning T.settings entries r.command.overrides) = .ok a := by
    intro x
    rw [Setting.winning, Command.given_overrides]
    cases hlast : (r.command.valuesOf x).getLast? with
    | none => exact ⟨_, hbase x⟩
    | some v =>
      obtain ⟨hv, ha⟩ := Command.valuesOf_spec h.settings.toReadLaws (List.mem_of_getLast? hlast)
      rw [Option.toList_some]
      rwa [foldl_overlay_of_getLast List.getLast?_concat hv]
  obtain ⟨c, hc⟩ := exists_value hread
  exact ⟨c, (settings_eq_ok h.settings h.defaults hentries hfits).2 hc⟩

end Request

/-- What is built for a command: `root` with what the command overrides put over it. -/
structure Command.Built (L : Library) (c : Command) (root t : Value) : Prop where
  isTable : t.isTable = true
  at? : ∀ x : Setting, Value.at? x.group x.name t =
    settle L.merge (Value.at? x.group x.name root) (c.valuesOf x).getLast?.toList
  lookup? : ∀ group, (∀ x : Setting, x.group = group → c.valuesOf x = []) →
    Value.lookup? group t.entries = Value.lookup? group root.entries

namespace Command.Built

variable {c c' : Command} {root t t' : Value} {x : Setting} {group : Text}

theorem at?_rest (hb : c.Built L root t) (hx : c.valuesOf x = []) :
    Value.at? x.group x.name t = Value.at? x.group x.name root := by
  rw [hb.at?, hx]
  rfl

theorem at?_override (h : L.ReadLaws) (hb : c.Built L root t) {v : Value}
    (hv : (c.valuesOf x).getLast? = some v) : Value.at? x.group x.name t = some v := by
  rw [hb.at?, hv]
  exact congrArg some (overlay_of_not_table _ (Command.valuesOf_spec h (List.mem_of_getLast? hv)).1 _)

theorem read_group (h : L.ReadLaws) (hb : c.Built L root t) (hb' : c'.Built L root t')
    (hnone : ∀ x : Setting, x.group = group → c.valuesOf x = [])
    (hnone' : ∀ x : Setting, x.group = group → c'.valuesOf x = []) {α : Type} {s : Shape α} {a : α} :
    L.read (.field group s) t = .ok a ↔ L.read (.field group s) t' = .ok a :=
  h.read_field_congr hb.isTable hb'.isTable ((hb.lookup? _ hnone).trans (hb'.lookup? _ hnone').symm)

theorem read_logging (h : L.ReadLaws) (hb : c.Built L root t) (hb' : c'.Built L root t') {l : Text} :
    L.read (.field loggingName (.field levelName .text)) t = .ok l ↔
      L.read (.field loggingName (.field levelName .text)) t' = .ok l := by
  have hlevel : ∀ (c : Command) (x : Setting), x.group = loggingName → c.valuesOf x = [] := by
    intro c x hx
    cases x with
    | level => cases c <;> rfl
    | _ => exact absurd hx (by decide)
  exact hb.read_group h hb' (hlevel c) (hlevel c')

theorem exists_output (h : L.ReadLaws) (hb : c.Built L root t)
    (hb' : (Command.tokens .simple).Built L root t') {p : ErrorPolicy}
    (hp : L.read (.field outputName (.field onErrorName onErrorShape)) t' = .ok p) :
    ∃ p, L.read (.field outputName (.field onErrorName onErrorShape)) t = .ok p := by
  cases hlast : (c.valuesOf .onError).getLast? with
  | none =>
    have hnone : ∀ x : Setting, x.group = outputName → c.valuesOf x = [] := by
      intro x hx
      cases x with
      | onError => exact List.getLast?_eq_none_iff.1 hlast
      | _ => exact absurd hx (by decide)
    exact ⟨p, (hb.read_group h hb' hnone fun x _ => by cases x <;> rfl).2 hp⟩
  | some v =>
    have hv : Value.at? outputName onErrorName t = some v := hb.at?_override h hlast
    obtain ⟨-, q, hq⟩ := Command.valuesOf_spec h (List.mem_of_getLast? hlast)
    exact ⟨q, (h.read_field_of_at? hb.isTable hv).2 hq⟩

/-- A command that separates all statements says so, whatever the file says. -/
theorem at?_mergeRuns (h : L.ReadLaws) (hb : c.Built L root t)
    (hoff : c.valuesOf .mergeRuns = [.boolean false]) :
    Value.at? normalizeName mergeRunsName t = some (.boolean false) :=
  hb.at?_override (x := .mergeRuns) h (by rw [hoff]; rfl)

theorem mergeRuns_off (h : L.ReadLaws) (hb : c.Built L root t)
    (hoff : c.valuesOf .mergeRuns = [.boolean false]) {e : LineEnding} {m : Bool}
    (hread : L.read (.field normalizeName normalizeShape) t = .ok (e, m)) : m = false := by
  have hmerge := hb.at?_mergeRuns h hoff
  obtain ⟨u, hu, hutable, -⟩ := exists_table_of_at? hmerge
  obtain ⟨-, w, hw, hm⟩ := (Settings.read_normalize h hb.isTable hu hutable).1 hread
  obtain rfl := Option.some.inj (hmerge.symm.trans hw)
  exact Except.ok.inj (hm.symm.trans (h.read_boolean false))

theorem read_normalize (h : L.ReadLaws) {noMerge : Bool} {onError? : Option ErrorPolicy} {f : Format}
    (hb : (Command.normalize none noMerge onError?).Built L root t)
    (hb' : (Command.statements f noMerge).Built L root t') {e : LineEnding} {b : Bool} :
    L.read (.field normalizeName normalizeShape) t = .ok (e, b) ↔
      L.read (.field normalizeName normalizeShape) t' = .ok (e, b) := by
  cases noMerge with
  | false =>
    refine hb.read_group h hb' (fun x hx => ?_) fun x _ => by cases x <;> rfl
    cases x with
    | onError => exact absurd hx (by decide)
    | _ => rfl
  | true =>
    have hlineEnding :
        Value.at? normalizeName lineEndingName t = Value.at? normalizeName lineEndingName t' :=
      (hb.at?_rest (x := .lineEnding) rfl).trans (hb'.at?_rest (x := .lineEnding) rfl).symm
    have hmerge := hb.at?_mergeRuns h rfl
    have hmerge' := hb'.at?_mergeRuns h rfl
    obtain ⟨u, hu, hutable, -⟩ := exists_table_of_at? hmerge
    obtain ⟨v, hv, hvtable, -⟩ := exists_table_of_at? hmerge'
    rw [Settings.read_normalize h hb.isTable hu hutable,
      Settings.read_normalize h hb'.isTable hv hvtable, hlineEnding, hmerge, hmerge']

/-- Whether runs of single lines are kept together is read alike for both commands. -/
theorem mergeRuns_eq (h : L.ReadLaws) {e : Option LineEnding} {noMerge : Bool}
    {onError? : Option ErrorPolicy} {f : Format}
    (hb : (Command.normalize e noMerge onError?).Built L root t)
    (hb' : (Command.statements f noMerge).Built L root t') {n s : Settings}
    (hn : L.read (.field normalizeName normalizeShape) t = .ok (n.lineEnding, n.mergeRuns))
    (hs : L.read (.field normalizeName normalizeShape) t' = .ok (s.lineEnding, s.mergeRuns)) :
    n.mergeRuns = s.mergeRuns := by
  cases noMerge with
  | true => exact (hb.mergeRuns_off h rfl hn).trans (hb'.mergeRuns_off h rfl hs).symm
  | false =>
    cases e with
    | none =>
      have hsame := Except.ok.inj (((hb.read_normalize h hb').1 hn).symm.trans hs)
      exact congrArg Prod.snd hsame
    | some e =>
      -- a line ending makes a table of the group, and the file gives that table the rest
      have hlineEnding : Value.at? normalizeName lineEndingName t = some (.text e.name) :=
        hb.at?_override (x := .lineEnding) h rfl
      obtain ⟨u, hu, hutable, -⟩ := exists_table_of_at? hlineEnding
      obtain ⟨-, w, hw, hm⟩ := (Settings.read_normalize h hb.isTable hu hutable).1 hn
      have hw' : Value.at? normalizeName mergeRunsName t' = some w :=
        ((hb'.at?_rest (x := .mergeRuns) rfl).trans (hb.at?_rest (x := .mergeRuns) rfl).symm).trans hw
      obtain ⟨v, hv, hvtable, -⟩ := exists_table_of_at? hw'
      obtain ⟨-, w', hw'', hm'⟩ := (Settings.read_normalize h hb'.isTable hv hvtable).1 hs
      obtain rfl := Option.some.inj (hw'.symm.trans hw'')
      exact Except.ok.inj (hm.symm.trans hm')

end Command.Built

namespace Request

/-- The overrides of a request are taken in, and leave the sources alone. -/
theorem exists_loaded (h : L.Laws) (r : Request) :
    ∃ l : Loader L, (r.loader L).overrideAll r.command.overrides = .ok l ∧
      L.sources l.builder = L.sources (r.loader L).builder ∧ L.Holds r.command.overrides l.builder :=
  Loader.overrideAll_ofSettings h r.command.overrides_ofSettings (Loader.overridden_add h r.configFile)

theorem exists_built (h : L.Laws) {r : Request} {root : Value}
    (hroot : L.sources (r.loader L).builder = .ok root) :
    ∃ t, r.command.Built L root t ∧ ∀ s, r.settings L = .ok s ↔
      L.read shape t = .ok ((s.lineEnding, s.mergeRuns), s.onError, s.level) := by
  have hos : L.OfSettings r.command.overrides := r.command.overrides_ofSettings
  obtain ⟨l, hl, hsources, hholds⟩ := r.exists_loaded h
  rw [hroot] at hsources
  obtain ⟨t, ht⟩ := h.build_isOk.2 ⟨root, hsources⟩
  refine ⟨t, ⟨h.build_isTable ht, fun x => ?_, fun group hnone => ?_⟩, fun s => ?_⟩
  · rw [hholds.at?_build h hos hsources ht, Command.given_overrides]
  · refine hholds.lookup?_build h hos hsources ht fun x hx => ?_
    rw [Command.given_overrides, hnone x hx]
  · rw [settings, hl]
    refine Loader.build_eq_ok.trans ?_
    rw [ht]
    simp

theorem exists_sources (h : L.Laws) {r : Request} {s : Settings} (hs : r.settings L = .ok s) :
    ∃ root, L.sources (r.loader L).builder = .ok root := by
  obtain ⟨l, hl, hsources, -⟩ := r.exists_loaded h
  rw [settings, hl] at hs
  obtain ⟨t, ht, -⟩ := Loader.build_eq_ok.1 hs
  rw [← hsources]
  exact h.build_isOk.1 ⟨t, ht⟩

section

variable {r r' : Request} {lineEnding? : Option LineEnding} {noMerge : Bool}
  {onError? : Option ErrorPolicy} {f : Format}

theorem loader_congr (hconfig : r'.config? = r.config?) : r'.loader L = r.loader L := by
  rw [loader, loader, configFile, configFile, hconfig]

/-- Under a file that has settings, both commands have settings or neither has, as long as
nothing is said of line endings. -/
theorem exists_settings_iff (h : L.Laws) (hnormalize : r.command = .normalize none noMerge onError?)
    (hstatements : r'.command = .statements f noMerge) (hconfig : r'.config? = r.config?)
    (hvalid : r.ValidFile L) : (∃ n, r.settings L = .ok n) ↔ ∃ s, r'.settings L = .ok s := by
  obtain ⟨d, hd⟩ : ∃ d, ({ r with command := .tokens .simple } : Request).settings L = .ok d := hvalid
  obtain ⟨root, hroot⟩ := exists_sources h hd
  obtain ⟨t₀, hb₀, hread₀⟩ := exists_built h hroot
  obtain ⟨tn, hbn, hreadn⟩ := exists_built h (r := r) hroot
  obtain ⟨ts, hbs, hreads⟩ := exists_built h (loader_congr (L := L) hconfig ▸ hroot)
  rw [hnormalize] at hbn
  rw [hstatements] at hbs
  have hsome := ((read_shape h.toReadLaws hb₀.isTable).1 ((hread₀ d).1 hd)).2.1
  obtain ⟨p, hp⟩ := hbn.exists_output h.toReadLaws hb₀ hsome
  obtain ⟨q, hq⟩ := hbs.exists_output h.toReadLaws hb₀ hsome
  simp only [hreadn, hreads, read_shape h.toReadLaws hbn.isTable, read_shape h.toReadLaws hbs.isTable,
    hbn.read_normalize h.toReadLaws hbs, hbn.read_logging h.toReadLaws hbs]
  exact ⟨fun ⟨n, hn, _, hl⟩ => ⟨{ n with onError := q }, hn, hq, hl⟩,
    fun ⟨s, hs, _, hl⟩ => ⟨{ s with onError := p }, hs, hp, hl⟩⟩

/-- Both commands keep runs of single lines together, or neither does. -/
theorem mergeRuns_eq (h : L.Laws) {lineEnding? : Option LineEnding}
    (hnormalize : r.command = .normalize lineEnding? noMerge onError?)
    (hstatements : r'.command = .statements f noMerge) (hconfig : r'.config? = r.config?)
    {n s : Settings} (hn : r.settings L = .ok n) (hs : r'.settings L = .ok s) :
    n.mergeRuns = s.mergeRuns := by
  obtain ⟨root, hroot⟩ := exists_sources h hn
  obtain ⟨t, hb, hread⟩ := exists_built h (r := r) hroot
  obtain ⟨t', hb', hread'⟩ := exists_built h (loader_congr (L := L) hconfig ▸ hroot)
  rw [hnormalize] at hb
  rw [hstatements] at hb'
  exact hb.mergeRuns_eq h.toReadLaws hb' ((read_shape h.toReadLaws hb.isTable).1 ((hread n).1 hn)).1
    ((read_shape h.toReadLaws hb'.isTable).1 ((hread' s).1 hs)).1

end

end Request

/-! ## What is written -/

namespace Command

theorem numbers_rangeLines (rs : List LineRange) :
    numbers (rs.flatMap rangeLine) = rs.flatMap fun r => [r.first, r.last] := by
  induction rs with
  | nil => rfl
  | cons r rs ih =>
    have hline : rangeLine r =
        (toString r.first).toList ++ ',' :: ((toString r.last).toList ++ ['\n']) := by
      simp only [rangeLine, String.toList_append, List.append_assoc]
      rfl
    rw [List.flatMap_cons, List.flatMap_cons, hline, List.append_assoc, List.cons_append,
      List.append_assoc, numbers_append_cons (by decide), List.singleton_append,
      numbers_append_cons (by decide), numbers_toString, numbers_toString, ih]
    rfl

theorem numbers_rangesJson (rs : List LineRange) :
    (Json.list (rs.map (·.json))).numbers = rs.flatMap fun r => [r.first, r.last] := by
  induction rs with
  | nil => rfl
  | cons r rs ih => exact congrArg ([r.first, r.last] ++ ·) ih

theorem plain_rangesJson (rs : List LineRange) : (Json.list (rs.map (·.json))).Plain := by
  induction rs with
  | nil => trivial
  | cons r rs ih =>
    exact ⟨⟨by decide, trivial, by decide, trivial, by decide, trivial, trivial⟩, ih⟩

/-- The first and the last line of each range are read back from what is written. -/
theorem numbers_formatRanges (h : T.Laws) (f : Format) (rs : List LineRange) :
    ∃ t, formatRanges T f rs = .ok t ∧ t.numbers = rs.flatMap fun r => [r.first, r.last] := by
  cases f with
  | simple => exact ⟨_, rfl, numbers_rangeLines rs⟩
  | json =>
    obtain ⟨t, ht, hnumbers⟩ := h.pretty_plain (plain_rangesJson rs)
    refine ⟨t ++ ['\n'], by rw [formatRanges, format, ht]; rfl, ?_⟩
    rw [numbers_append_cons (by decide), hnumbers, numbers_rangesJson]
    exact List.append_nil _

end Command

/-! ## What both commands answer -/

/-- How the answers of both commands to one program go together: `n` are the settings
of the one that normalizes, and the other writes ranges in the form `f`. -/
structure Command.Agree (T : Toolkit) (f : Format) (n : Settings) (source : Text)
    (normalized listed : Outcome) : Prop where
  exits : listed.exit = 0 ↔ normalized.exit = 0
  /-- Where they fail they say the same, and write nothing else. -/
  refused : normalized.exit ≠ 0 → listed = normalized ∧ normalized.output = [] ∧
    ∃ e : ProgramError, normalized.report? = some ("Error: ".toList ++ e.message.toList)
  /-- Where they succeed one writes the ranges, so that their lines are read back from it,
  and the other the lines without the blank ones, an empty line before each range but the
  first. -/
  answered : normalized.exit = 0 → normalized.report? = none ∧ listed.report? = none ∧
    ∃ a, analyse n.mergeRuns source = .ok a ∧ clean source = .ok ⟨a.lines, a.endsBlank⟩ ∧
      formatRanges T f a.ranges = .ok listed.output ∧
      listed.output.numbers = (a.ranges.flatMap fun r => [r.first, r.last]) ∧
      (∀ r ∈ a.ranges.tail, 1 < r.first ∧ r.first ≤ a.lines.length) ∧
      normalized.output =
        join n.lineEnding.text (separateLines (a.ranges.tail.map (·.first)) 1 a.lines) ++
          if a.endsBlank then n.lineEnding.text else []

theorem agree_of_settings (h : T.Laws) {n s : Settings} (hmerge : n.mergeRuns = s.mergeRuns)
    (hfail : n.onError = .fail) (e : Option LineEnding) (m m' : Bool) (p : Option ErrorPolicy)
    (f : Format) (source : Text) : Command.Agree T f n source
      ((Command.normalize e m p).apply T n source) ((Command.statements f m').apply T s source) := by
  cases ha : analyse n.mergeRuns source with
  | error e =>
    have hn : normalize n.options source = .error e := by
      rw [normalize, Settings.options, ha]
    simp only [Command.apply, hn, hfail, ← hmerge, ha]
    exact ⟨Iff.rfl, fun _ => ⟨rfl, rfl, e, rfl⟩, fun h => absurd h Nat.one_ne_zero⟩
  | ok a =>
    have hn : normalize n.options source = .ok (a.assemble n.lineEnding) := normalize_eq_ok.2 ⟨a, ha, rfl⟩
    obtain ⟨es, last, a', hp⟩ := exists_pass hn
    obtain rfl : a = a' := Except.ok.inj (ha.symm.trans hp.analysed)
    obtain ⟨t, ht, hnumbers⟩ := Command.numbers_formatRanges h f a.ranges
    simp only [Command.apply, hn, ← hmerge, ha, ht, Command.written]
    refine ⟨Iff.rfl, fun h => absurd rfl h, fun _ => ⟨rfl, rfl, a, ha, ?_,
      ht, hnumbers, fun r hr => hp.separated_bound _ (List.mem_map_of_mem hr), ?_⟩⟩
    · rw [hp.logged.clean_eq, hp.lines, hp.endsBlank]
    · rw [Outcome.success, Analysis.assemble, assemble, hp.insert_lines, Analysis.separated]

theorem Request.answer_eq {r : Request} {input : Option Text} {s : Settings} {source : Text}
    (hs : r.settings T.settings = .ok s) (hsource : r.source? input = some source) :
    r.answer T input = r.command.apply T s source := by
  rw [Request.answer, hs, hsource]

theorem Request.exists_unconfigured {r : Request} (h : ¬∃ s, r.settings T.settings = .ok s)
    (input : Option Text) : ∃ e, r.answer T input = .unconfigured (T.settings.message e) := by
  cases hs : r.settings T.settings with
  | ok s => exact absurd ⟨s, hs⟩ h
  | error e => exact ⟨e, by rw [Request.answer, hs]⟩

/-- Both commands agree on a program, from wherever each of them has it, if both are to
use the same settings file and are told alike to separate all statements or not. Under a
valid file of tables both have settings; under any valid file both or neither has, unless
a line ending is put over a list. Whatever the file, they agree under the settings that
they have. -/
theorem Toolkit.run_agree (h : T.Laws) {input input' : Option Text} {args args' : List Text}
    {r r' : Request} {lineEnding? : Option LineEnding} {noMerge : Bool} {onError? : Option ErrorPolicy}
    {f : Format} {source : Text} (hr : T.parse args = .request r) (hr' : T.parse args' = .request r')
    (hnormalize : r.command = .normalize lineEnding? noMerge onError?)
    (hstatements : r'.command = .statements f noMerge) (hconfig : r'.config? = r.config?)
    (hsource : r.source? input = some source) (hsource' : r'.source? input' = some source) :
    (r.ValidFile T.settings →
      (r.MakesTables T.settings →
        ∃ n s, r.settings T.settings = .ok n ∧ r'.settings T.settings = .ok s) ∧
      (lineEnding? = none →
        (∃ n s, r.settings T.settings = .ok n ∧ r'.settings T.settings = .ok s) ∨
        ∃ e e', T.run input args = .unconfigured (T.settings.message e) ∧
          T.run input' args' = .unconfigured (T.settings.message e'))) ∧
    ∀ n s, r.settings T.settings = .ok n → r'.settings T.settings = .ok s → n.onError = .fail →
      Command.Agree T f n source (T.run input args) (T.run input' args') := by
  have hrun : T.run input args = r.answer T input := by rw [Toolkit.run, hr]
  have hrun' : T.run input' args' = r'.answer T input' := by rw [Toolkit.run, hr']
  have hloader : r'.loader T.settings = r.loader T.settings := Request.loader_congr hconfig
  have hfile : r'.configFile = r.configFile := by
    rw [Request.configFile, hconfig, Request.configFile]
  rw [hrun, hrun']
  refine ⟨fun hvalid => ⟨fun htables => ?_, fun hnone => ?_⟩, fun n s hn hs hfail => ?_⟩
  · obtain ⟨n, hn⟩ := Request.exists_settings h hvalid htables
    have hvalid' : r'.ValidFile T.settings := by rwa [Request.ValidFile, hloader]
    have htables' : r'.MakesTables T.settings := by rwa [Request.MakesTables, hfile]
    obtain ⟨s, hs⟩ := Request.exists_settings h hvalid' htables'
    exact ⟨n, s, hn, hs⟩
  · rw [hnone] at hnormalize
    have hiff := Request.exists_settings_iff h.settings hnormalize hstatements hconfig hvalid
    by_cases hs : ∃ s, r'.settings T.settings = .ok s
    · obtain ⟨n, hn⟩ := hiff.2 hs
      obtain ⟨s, hs⟩ := hs
      exact .inl ⟨n, s, hn, hs⟩
    · obtain ⟨e, he⟩ := Request.exists_unconfigured (fun hn => hs (hiff.1 hn)) input
      obtain ⟨e', he'⟩ := Request.exists_unconfigured hs input'
      exact .inr ⟨e, e', he, he'⟩
  · have hmerge := Request.mergeRuns_eq h.settings hnormalize hstatements hconfig hn hs
    rw [Request.answer_eq hn hsource, Request.answer_eq hs hsource', hnormalize, hstatements]
    exact agree_of_settings h hmerge hfail _ _ _ _ _ _

/-- One file, and what it holds. -/
def Standard.oneFile (name text : Text) (asked : Text) : Option Text :=
  if asked = name then some text else none

/-- One command has the program as an argument and a line ending besides, the other has
it as its input; both name the same settings file. -/
theorem Toolkit.run_agree_literal :
    (Request.ValidFile ⟨some "r".toList, some "a\n\nb\n".toList, .normalize (some .crlf) true none⟩
        (Standard.library (Standard.oneFile "r.toml".toList "[output]\n".toList)) ∧
      Request.MakesTables ⟨some "r".toList, some "a\n\nb\n".toList, .normalize (some .crlf) true none⟩
        (Standard.library (Standard.oneFile "r.toml".toList "[output]\n".toList))) ∧
    Command.Agree (Standard.toolkit (Standard.oneFile "r.toml".toList "[output]\n".toList)) .simple
      ⟨.crlf, false, .fail, "warn".toList⟩ "a\n\nb\n".toList
      (runCommand (Standard.oneFile "r.toml".toList "[output]\n".toList) none
        ["-c".toList, "r".toList, "normalize".toList, "--no-merge".toList, "a\n\nb\n".toList,
          "--line-ending=crlf".toList])
      (runCommand (Standard.oneFile "r.toml".toList "[output]\n".toList) (some "a\n\nb\n".toList)
        ["statements".toList, "--no-merge".toList, "--config".toList, "r".toList]) := by
  have hentries : (Standard.library (Standard.oneFile "r.toml".toList "[output]\n".toList)).entries
      (.file "r".toList true) = .ok [("output".toList, .table [])] := by
    decide +kernel
  have hfits : ∀ x : Setting,
      ∀ a ∈ (Standard.library (Standard.oneFile "r.toml".toList "[output]\n".toList)).layer
        [("output".toList, .table [])], Path.Fits x.group a := fun x => by
    cases x <;> decide +kernel
  have hsettings : ∀ {r : Request} {s : Settings}, r.configFile = .file "r".toList true →
      (r.settings (Standard.library (Standard.oneFile "r.toml".toList "[output]\n".toList)) = .ok s ↔
        ∀ x : Setting, Standard.read x.shape (x.winning
          (Standard.library (Standard.oneFile "r.toml".toList "[output]\n".toList))
          [("output".toList, .table [])] r.command.overrides) = .ok (s.value x)) := fun hfile =>
    Request.settings_eq_ok (Standard.library_laws _) (Standard.library_readsDefaults _)
      (hfile ▸ hentries) hfits
  have hr : (Standard.toolkit (Standard.oneFile "r.toml".toList "[output]\n".toList)).parse
      ["-c".toList, "r".toList, "normalize".toList, "--no-merge".toList, "a\n\nb\n".toList,
        "--line-ending=crlf".toList] =
      .request ⟨some "r".toList, some "a\n\nb\n".toList, .normalize (some .crlf) true none⟩ := by
    decide +kernel
  have hr' : (Standard.toolkit (Standard.oneFile "r.toml".toList "[output]\n".toList)).parse
      ["statements".toList, "--no-merge".toList, "--config".toList, "r".toList] =
      .request ⟨some "r".toList, none, .statements .simple true⟩ := by
    decide +kernel
  refine ⟨⟨⟨⟨.native, true, .fail, "warn".toList⟩, ?_⟩, _, hentries, hfits⟩,
    (Toolkit.run_agree (Standard.toolkit_laws _) hr hr' rfl rfl rfl rfl rfl).2 _
      ⟨.native, false, .fail, "warn".toList⟩ ?_ ?_ rfl⟩
  · refine (hsettings (r := ⟨some "r".toList, none, .tokens .simple⟩) rfl).2 fun x => ?_
    cases x <;> decide +kernel
  · refine (hsettings rfl).2 fun x => ?_
    cases x <;> decide +kernel
  · refine (hsettings rfl).2 fun x => ?_
    cases x <;> decide +kernel

/-- A line ending that is put over a list takes the other settings of the group with it:
one command ends without settings, where the other one succeeds. -/
theorem runCommand_of_list_group :
    (Request.loader ⟨none, some "a\n".toList, .normalize (some .crlf) false none⟩
      (Standard.library (Standard.oneFile "replfeed.toml".toList
        "normalize = [\"lf\", true]\n".toList))).build = .ok ⟨.lf, true, .fail, "warn".toList⟩ ∧
    (runCommand (Standard.oneFile "replfeed.toml".toList "normalize = [\"lf\", true]\n".toList) none
      ["normalize".toList, "--line-ending".toList, "crlf".toList, "a\n".toList]).exit = 2 ∧
    runCommand (Standard.oneFile "replfeed.toml".toList "normalize = [\"lf\", true]\n".toList) none
      ["statements".toList, "a\n".toList] = .success "1,1\n".toList :=
  ⟨by decide +kernel, by decide +kernel, by decide +kernel⟩

end Offside
