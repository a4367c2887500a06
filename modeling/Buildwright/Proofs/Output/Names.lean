import Buildwright.Proofs.Output.Fragments
import Buildwright.Proofs.Output.Regeneration
import Buildwright.Proofs.Rule.Names

/-! # Names that collide

    In the standard formats every file of a run lies below the build root under a
    path that the quoted name of its rule tells.  So once rules are prepared,
    nothing but two rules of one quoted name keeps their files from being made.

    * `Emission.tails` — the paths of the files of a format below the build root;
    * `Session.exists_items` — no file is a fault;
    * `Session.generate_iff_names_differ` — which runs succeed. -/

namespace Buildwright

/-! ## Paths below the build root -/

namespace Emission

variable {e : Emission} {format : String} {id : RuleId}

/-- The path of the file of a rule below the build root, if it has one. -/
def tail? (e : Emission) (format : String) (id : RuleId) : Option (List Component) :=
  if format = Registry.makefileFormat then some [.name ((e.rule id).quotedName ++ ".mk")]
  else if (e.rule id).type.isCc then
    some [.name (e.rule id).quotedName, .name CompilationDatabase.fileName]
  else none

/-- The path of the top file below the build root. -/
def rootTail (format : String) : List Component :=
  if format = Registry.makefileFormat then [.name Make.Root.fileName]
  else [.name CompilationDatabase.fileName]

/-- The paths of the files of a format below the build root. -/
def tails (e : Emission) (format : String) : List (List Component) :=
  e.order.filterMap (e.tail? format) ++ [rootTail format]

/-- The components of the path of a file. -/
def components (f : Path × String) : List Component :=
  f.1.components

theorem components_join_makefile (base : Path) :
    (base.join ⟨Make.Root.fileName⟩).components =
      base.components ++ [.name Make.Root.fileName] :=
  Path.components_join_name base (w := Make.Root.fileName.toList) (by decide) (by decide)
    (by decide)

theorem components_join_database (base : Path) :
    (base.join ⟨CompilationDatabase.fileName⟩).components =
      base.components ++ [.name CompilationDatabase.fileName] :=
  Path.components_join_name base (w := CompilationDatabase.fileName.toList) (by decide) (by decide)
    (by decide)

/-- Rules of the types that are not compiled have no file in a database. -/
theorem find?_database (type : RuleType) :
    Registry.standard.find? Registry.databaseFormat type.name =
      some (if type.isCc then .compiler .database else .nothing) := by
  cases type <;> rfl

theorem ruleFile?_tail (hregistry : e.session.registry = Registry.standard)
    (htyped : (e.rule id).declaration.Typed)
    (hformat : format = Registry.makefileFormat ∨ format = Registry.databaseFormat) :
    ∃ file, e.ruleFile? format id = .ok file ∧
      file.map components = (e.tail? format id).map (e.buildRoot.components ++ ·) := by
  rcases hformat with rfl | rfl
  · refine ⟨_, ruleFile?_makefile hregistry htyped, ?_⟩
    rw [Option.map_some, components, Make.components_fragmentPath, tail?, if_pos rfl]
    rfl
  · have hne : Registry.databaseFormat ≠ Registry.makefileFormat := by decide
    rw [ruleFile?, hregistry, tail?, if_neg hne]
    simp only [find?_database]
    by_cases hcc : (e.rule id).type.isCc = true
    · rw [if_pos hcc, if_pos hcc]
      refine ⟨_, rfl, ?_⟩
      rw [compilerFile?, Option.map_some, components, CompilationDatabase.ofRule,
        components_join_database, Rule.components_workingFolder, List.append_assoc]
      rfl
    · rw [if_neg hcc, if_neg hcc]
      exact ⟨_, rfl, rfl⟩

theorem rootFile_tail (hregistry : e.session.registry = Registry.standard)
    (hformat : format = Registry.makefileFormat ∨ format = Registry.databaseFormat) :
    ∃ f, e.rootFile format = .ok f ∧
      components f = e.buildRoot.components ++ rootTail format := by
  rw [rootFile, hregistry]
  rcases hformat with rfl | rfl
  · refine ⟨_, rfl, ?_⟩
    rw [components, Make.Root.path, components_join_makefile]
    rfl
  · refine ⟨_, rfl, ?_⟩
    rw [components, CompilationDatabase.ofAll, components_join_database]
    rfl

/-- The item of a rule among those of a format. -/
def ruleItem? (e : Emission) (format : String) (id : RuleId) : Option (Outcome (Path × String)) :=
  match e.ruleFile? format id with
  | .ok file => file.map .ok
  | .error fault => some (.error fault)

/-- The files of rules in an order. -/
theorem exists_ruleItems {order : List RuleId} (hregistry : e.session.registry = Registry.standard)
    (htyped : ∀ id ∈ order, (e.rule id).declaration.Typed)
    (hformat : format = Registry.makefileFormat ∨ format = Registry.databaseFormat) :
    ∃ files : List (Path × String), order.filterMap (e.ruleItem? format) = files.map Except.ok ∧
      files.map components =
        (order.filterMap (e.tail? format)).map (e.buildRoot.components ++ ·) := by
  induction order with
  | nil => exact ⟨[], rfl, rfl⟩
  | cons id rest ih =>
      obtain ⟨hid, hrest⟩ := List.forall_mem_cons.1 htyped
      obtain ⟨files, hitems, hpaths⟩ := ih hrest
      obtain ⟨file, hfile, htail⟩ := ruleFile?_tail hregistry hid hformat
      rw [List.filterMap_cons, List.filterMap_cons, ruleItem?, hfile, hitems]
      cases htail? : e.tail? format id with
      | none =>
          rw [htail?, Option.map_none, Option.map_eq_none_iff] at htail
          rw [htail]
          exact ⟨files, rfl, hpaths⟩
      | some tail =>
          rw [htail?, Option.map_some, Option.map_eq_some_iff] at htail
          obtain ⟨f, rfl, hf⟩ := htail
          refine ⟨f :: files, rfl, ?_⟩
          rw [List.map_cons, List.map_cons, hf, hpaths]

/-- No file of a format is a fault. -/
theorem exists_formatItems (hregistry : e.session.registry = Registry.standard)
    (htyped : ∀ id ∈ e.order, (e.rule id).declaration.Typed)
    (hformat : format = Registry.makefileFormat ∨ format = Registry.databaseFormat) :
    ∃ files : List (Path × String), e.formatItems format = files.map Except.ok ∧
      files.map components = (e.tails format).map (e.buildRoot.components ++ ·) := by
  obtain ⟨files, hitems, hpaths⟩ := exists_ruleItems hregistry htyped hformat
  obtain ⟨f, hroot, hf⟩ := rootFile_tail hregistry hformat
  refine ⟨files ++ [f], ?_, ?_⟩
  · show e.order.filterMap (e.ruleItem? format) ++ [e.rootFile format] = _
    rw [hitems, hroot, List.map_append]
    rfl
  · rw [List.map_append, hpaths, tails, List.map_append, List.map_singleton, List.map_singleton, hf]

/-- No file of a run is a fault. -/
theorem exists_items {formats : List String} (hregistry : e.session.registry = Registry.standard)
    (htyped : ∀ id ∈ e.order, (e.rule id).declaration.Typed)
    (hformats : ∀ f ∈ formats, f = Registry.makefileFormat ∨ f = Registry.databaseFormat) :
    ∃ files : List (Path × String), formats.flatMap e.formatItems = files.map Except.ok ∧
      files.map components = (formats.flatMap e.tails).map (e.buildRoot.components ++ ·) := by
  induction formats with
  | nil => exact ⟨[], rfl, rfl⟩
  | cons format rest ih =>
      obtain ⟨hformat, hrest⟩ := List.forall_mem_cons.1 hformats
      obtain ⟨files, hitems, hpaths⟩ := exists_formatItems hregistry htyped hformat
      obtain ⟨others, hothers, hpaths'⟩ := ih hrest
      refine ⟨files ++ others, ?_, ?_⟩
      · rw [List.flatMap_cons, hitems, hothers, List.map_append]
      · rw [List.flatMap_cons, List.map_append, List.map_append, hpaths, hpaths']

/-- A name without a mark does not begin with a quoted name. -/
theorem quotedName_append_ne (rule : Rule) (behind : String) {name : String}
    (h : '@' ∉ name.toList) : rule.quotedName ++ behind ≠ name := by
  rintro rfl
  rw [String.toList_append] at h
  exact h (List.mem_append_left _ rule.mark_mem_quotedName)

/-- The files of a format have different paths if quoted names differ. -/
theorem nodup_tails (h : e.order.Pairwise fun id id' =>
    (e.rule id).quotedName ≠ (e.rule id').quotedName) (format : String) :
    (e.tails format).Nodup := by
  rw [tails, List.nodup_append]
  refine ⟨?_, List.nodup_singleton _, ?_⟩
  · rw [List.Nodup, List.pairwise_filterMap]
    refine h.imp fun hne tail htail tail' htail' heq => hne ?_
    subst heq
    have hsame := htail.trans htail'.symm
    rw [tail?] at htail htail' hsame
    split_ifs at htail htail' with hformat hcc hcc'
    · rw [tail?, if_pos hformat, if_pos hformat] at hsame
      simpa using hsame
    · rw [tail?, if_neg hformat, if_neg hformat, if_pos hcc, if_pos hcc'] at hsame
      simpa using hsame
  · rintro tail htail root hroot rfl
    obtain ⟨id, -, hid⟩ := List.mem_filterMap.1 htail
    obtain rfl := List.mem_singleton.1 hroot
    rw [tail?, rootTail] at hid
    split_ifs at hid
    · have hne : (e.rule id).quotedName ++ ".mk" ≠ Make.Root.fileName :=
        quotedName_append_ne _ ".mk" (by decide)
      simp [hne] at hid
    · simp at hid

/-- The files of the two formats have different paths. -/
theorem disjoint_tails :
    (e.tails Registry.makefileFormat).Disjoint (e.tails Registry.databaseFormat) := by
  have hne : Registry.databaseFormat ≠ Registry.makefileFormat := by decide
  have hfirst : ∀ tail ∈ e.tails Registry.makefileFormat,
      ∃ name, tail = [.name name] ∧ name ≠ CompilationDatabase.fileName := by
    intro tail htail
    rcases List.mem_append.1 htail with htail | htail
    · obtain ⟨id, -, hid⟩ := List.mem_filterMap.1 htail
      rw [tail?, if_pos rfl] at hid
      exact ⟨_, (Option.some.inj hid).symm, quotedName_append_ne _ ".mk" (by decide)⟩
    · rw [rootTail, if_pos rfl] at htail
      exact ⟨_, List.mem_singleton.1 htail, by decide⟩
  intro tail htail htail'
  obtain ⟨name, rfl, hname⟩ := hfirst tail htail
  rcases List.mem_append.1 htail' with htail' | htail'
  · obtain ⟨id, -, hid⟩ := List.mem_filterMap.1 htail'
    rw [tail?, if_neg hne] at hid
    split_ifs at hid
    simp at hid
  · rw [rootTail, if_neg hne] at htail'
    simp [hname] at htail'

/-- The files of formats have different paths if quoted names differ. -/
theorem nodup_flatMap_tails (h : e.order.Pairwise fun id id' =>
    (e.rule id).quotedName ≠ (e.rule id').quotedName) {formats : List String}
    (hnodup : formats.Nodup)
    (hformats : ∀ f ∈ formats, f = Registry.makefileFormat ∨ f = Registry.databaseFormat) :
    (formats.flatMap e.tails).Nodup := by
  refine List.nodup_flatMap.2 ⟨fun format _ => nodup_tails h format,
    hnodup.imp_of_mem fun hformat hformat' hne => ?_⟩
  show (e.tails _).Disjoint (e.tails _)
  rcases hformats _ hformat with rfl | rfl <;> rcases hformats _ hformat' with rfl | rfl
  · exact absurd rfl hne
  · exact disjoint_tails
  · exact disjoint_tails.symm
  · exact absurd rfl hne

end Emission

/-! ## Sessions -/

/-- A session has the standard formats, each once. -/
theorem Settings.start_eq_ok {settings : Settings} {root : Path} {s : Session}
    (h : settings.start root = .ok s) : s.registry = Registry.standard ∧ s.formats.Nodup ∧
      ∀ f ∈ s.formats, f = Registry.makefileFormat ∨ f = Registry.databaseFormat := by
  rw [start] at h
  split_ifs at h
  cases hunknown : settings.formats.find? fun f => !Registry.standard.hasFormat f with
  | some unknown =>
      simp only [hunknown] at h
      cases h
  | none =>
      simp only [hunknown] at h
      obtain rfl := Except.ok.inj h
      refine ⟨rfl, nodup_eraseDups _, fun f hf => ?_⟩
      have hknown : Registry.standard.hasFormat f = true := by
        simpa using List.find?_eq_none.1 hunknown f (List.mem_eraseDups.1 hf)
      obtain ⟨g, hg⟩ := Option.isSome_iff_exists.1 hknown
      have hmem : (f, g) ∈ [(Registry.databaseFormat, RootGenerator.database),
          (Registry.makefileFormat, RootGenerator.makefile)] := mem_of_lookup_eq_some hg
      rcases List.mem_pair.1 hmem with heq | heq
      · exact .inr (Prod.mk.inj heq).1
      · exact .inl (Prod.mk.inj heq).1

namespace Session

variable {s : Session} {w : Workspace} {roots : List Path} {p : Prepared} {settings : Settings}
  {root : Path}

/-- Loaded rules are told by package and name. -/
theorem Stages.nodup_names (h : s.Stages w roots p) :
    (p.linked.set.rules.map fun rule => (rule.package, rule.name)).Nodup := by
  obtain ⟨c, hload, hset⟩ := h.loaded
  obtain ⟨progress, hsteps, -, hout⟩ := Loading.exists_run_of_load hload
  obtain ⟨ps, hps⟩ := Loading.filled_reachable hsteps
  rw [hset, ← (Loading.Progress.outcome_eq_ok_iff.1 hout).2, hps.catalog]
  exact Catalog.nodup_names_adoptAll hps.nodup (fun q hq => (hps.sound q hq).names) List.nodup_nil
    fun _ hrule => absurd hrule List.not_mem_nil

/-- The files of prepared rules. -/
theorem Stages.exists_items (h : s.Stages w roots p) (hs : settings.start root = .ok s) :
    ∃ files : List (Path × String), (s.emission p).items = files.map Except.ok ∧
      files.map Emission.components =
        (s.formats.flatMap (s.emission p).tails).map
          ((s.emission p).buildRoot.components ++ ·) := by
  obtain ⟨hregistry, -, hformats⟩ := Settings.start_eq_ok hs
  refine Emission.exists_items hregistry (fun id hid => ?_) hformats
  exact h.typed (List.mem_range.1 (h.order_perm.mem_iff.1 hid))

/-- Rules with different quoted names have files that can all be collected. -/
theorem Stages.exists_compilePrepared (h : s.Stages w roots p) (hs : settings.start root = .ok s)
    (hnames : (p.linked.set.rules.map Rule.quotedName).Nodup) :
    ∃ files, s.compilePrepared p = .ok files := by
  obtain ⟨-, hnodup, hformats⟩ := Settings.start_eq_ok hs
  obtain ⟨items, hitems, hpaths⟩ := h.exists_items hs
  have horder := (h.map_order_perm Rule.quotedName).nodup_iff.2 hnames
  rw [List.Nodup, List.pairwise_map] at horder
  have hcomponents : (items.map fun f => f.1.components).Nodup := by
    show (items.map Emission.components).Nodup
    rw [hpaths]
    exact (Emission.nodup_flatMap_tails horder hnodup hformats).map (List.append_right_injective _)
  obtain ⟨g, hg⟩ := GeneratedFiles.exists_storeAll (g := {}) hcomponents fun _ _ => rfl
  rw [h.compilePrepared_eq, hitems, hg]
  exact ⟨g, rfl⟩

/-- Files of prepared rules are refused only for a path that is used twice. -/
theorem Stages.exists_of_compilePrepared_eq_error (h : s.Stages w roots p)
    (hs : settings.start root = .ok s) {fault : Fault}
    (hfault : s.compilePrepared p = .error fault) :
    ∃ f, .ok f ∈ (s.emission p).items ∧
      fault = .internal (f.1.text ++ " was generated more than once") := by
  obtain ⟨items, hitems, -⟩ := h.exists_items hs
  rw [h.compilePrepared_eq, hitems] at hfault
  cases hstored : ({} : GeneratedFiles).storeAll (items.map .ok) with
  | mk g result =>
      rw [hstored] at hfault
      cases result with
      | ok _ => cases hfault
      | error refused =>
          obtain rfl := Except.error.inj hfault
          obtain ⟨f, hf, hrefused⟩ := GeneratedFiles.exists_of_storeAll_eq_error hstored
          exact ⟨f, hitems ▸ List.mem_map_of_mem hf, hrefused⟩

/-- Plain names tell rules apart. -/
theorem Stages.nodup_quotedName_of_plain (h : s.Stages w roots p)
    (hplain : ∀ rule ∈ p.linked.set.rules, rule.Plain) :
    (p.linked.set.rules.map Rule.quotedName).Nodup := by
  have hnames := h.nodup_names
  rw [List.Nodup, List.pairwise_map] at hnames ⊢
  refine hnames.imp_of_mem fun hr hr' hne hquoted => hne ?_
  obtain ⟨hpackage, hname, -⟩ := (hplain _ hr).of_quotedName (hplain _ hr') hquoted
  exact Prod.ext hpackage hname

/-- **Names that collide.** Prepared rules have all their files made if and only if their quoted
    names differ; if not, a path is used twice, and nothing else goes wrong.  Names differ where
    no part of a full name can be taken for a separator. -/
theorem generate_iff_names_differ (hs : settings.start root = .ok s)
    (hformat : Registry.makefileFormat ∈ s.formats) (hroots : roots ≠ [])
    (hp : s.prepare w roots = .ok p) :
    ((∃ files, s.generate w roots = .ok files) ↔
        (p.linked.set.rules.map Rule.quotedName).Nodup) ∧
      (∀ fault, s.generate w roots = .error fault → ∃ f, .ok f ∈ (s.emission p).items ∧
        fault = .internal (f.1.text ++ " was generated more than once")) ∧
      ((∀ rule ∈ p.linked.set.rules, rule.Plain) →
        (p.linked.set.rules.map Rule.quotedName).Nodup) := by
  have hstages := stages_of_prepare hp
  rw [generate_eq_compilePrepared hroots hp]
  refine ⟨⟨?_, hstages.exists_compilePrepared hs⟩,
    fun fault => hstages.exists_of_compilePrepared_eq_error hs, hstages.nodup_quotedName_of_plain⟩
  rintro ⟨files, hfiles⟩
  exact hstages.nodup_quotedName hfiles (Settings.start_eq_ok hs).1 hformat

end Session

/-! ## Two rules of one name -/

namespace Regeneration

/-- Two packages of one test each whose tests have one quoted name can be prepared. -/
theorem prepare_oneName : ∃ p,
    (session Registry.standard ⟨"/proj"⟩).prepare oneName.workspace
      [⟨"a/BUILD"⟩, ⟨"a/b/BUILD"⟩] = .ok p ∧
    p.linked.set.rules = twoRules "a" "a/b" "b/c" "c" := by
  obtain ⟨p, -, hp, hset, -⟩ := exists_generate_two sound_outer sound_inner (by decide)
    (List.cons_ne_nil _ _) (mapM_rootTask packageOf_upper packageOf_lower)
    fun p hset horder => paths_bare forall_package hset horder
  exact ⟨p, hp, by rw [hset, rules_loaded]⟩

end Regeneration

namespace Session

open Regeneration

/-- A test `b/c` beside a package `a/b` with a test `c` keeps a makefile from being made. -/
theorem oneName_collides : ∃ p f,
    (session Registry.standard ⟨"/proj"⟩).prepare oneName.workspace
      [⟨"a/BUILD"⟩, ⟨"a/b/BUILD"⟩] = .ok p ∧
    p.linked.set.rules.map Rule.quotedName = ["a@@b@@c@DEFAULT", "a@@b@@c@DEFAULT"] ∧
    (session Registry.standard ⟨"/proj"⟩).generate oneName.workspace
      [⟨"a/BUILD"⟩, ⟨"a/b/BUILD"⟩] =
        .error (.internal ((f : Path × String).1.text ++ " was generated more than once")) := by
  obtain ⟨p, hp, hrules⟩ := prepare_oneName
  have hnames : p.linked.set.rules.map Rule.quotedName =
      ["a@@b@@c@DEFAULT", "a@@b@@c@DEFAULT"] := by
    rw [hrules]
    decide +kernel
  have hstart : ({ buildTypes := [.debug], jobs := some 1 } : Settings).start ⟨"/proj"⟩ =
      .ok (session Registry.standard ⟨"/proj"⟩) := rfl
  obtain ⟨hiff, herror, -⟩ := generate_iff_names_differ hstart (List.mem_singleton_self _)
    (List.cons_ne_nil _ _) hp
  cases hgenerate : (session Registry.standard ⟨"/proj"⟩).generate oneName.workspace
      [⟨"a/BUILD"⟩, ⟨"a/b/BUILD"⟩] with
  | ok files =>
      have hnodup := hiff.1 ⟨files, hgenerate⟩
      rw [hnames] at hnodup
      exact absurd hnodup (by decide)
  | error fault =>
      obtain ⟨f, -, rfl⟩ := herror fault hgenerate
      exact ⟨p, f, hp, hnames, rfl⟩

end Session

end Buildwright
