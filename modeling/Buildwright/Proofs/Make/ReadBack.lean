import Buildwright.Proofs.FileTree.Spelling
import Buildwright.Proofs.Make.Complete
import Buildwright.Proofs.Make.Lines

/-! # Makefiles are read back by lines

    What fragments and the top makefile write comes from the session, from what the
    rules declare, and from the files that their patterns match.  If none of these
    has a line feed, every target takes one line for its head and one for each of
    its commands.  Scripts may have several lines, for they are written as one.

    * `Session.OneLine`, `Rule.OneLine`, `Resolved.OneLine` — texts without line feeds;
    * `Emission.OneLine.fragment`, `Emission.OneLine.root` — targets without line feeds;
    * `Make.makefiles_read_back` — reading what is generated. -/

namespace Buildwright

open Make (IsLine isLine_append isLine_word isLine_line isLine_names isLine_intercalate_iff)

/-! ## Texts that makefiles are made from -/

/-- Whether no setting that makefiles show has a line feed. -/
structure Session.OneLine (s : Session) : Prop where
  buildRoot : IsLine s.layout.buildRoot.text
  builtinRoot : ∀ root, s.layout.builtinRoot = some root → IsLine root.text
  cc : IsLine s.toolchain.cc
  cxx : IsLine s.toolchain.cxx
  ar : IsLine s.toolchain.ar
  formats : ∀ format ∈ s.formats, IsLine format

/-- The texts of a declaration that makefiles show as they are. Scripts are written on one line,
    and patterns are not written at all. -/
def Attributes.shown : Attributes → List String
  | .cc a => a.include_ ++ a.defines ++ a.cflags ++ a.cxxflags ++ a.ldflags ++ a.args
  | .external a => a.exports
  | .script a => a.outputs

/-- Whether no flag and no argument of a compiled rule has a line feed. -/
structure CcAttributes.OneLine (a : CcAttributes) : Prop where
  include_ : ∀ s ∈ a.include_, IsLine s
  defines : ∀ s ∈ a.defines, IsLine s
  cflags : ∀ s ∈ a.cflags, IsLine s
  cxxflags : ∀ s ∈ a.cxxflags, IsLine s
  ldflags : ∀ s ∈ a.ldflags, IsLine s
  args : ∀ s ∈ a.args, IsLine s

/-- Whether nothing that makefiles show of a declared rule has a line feed. -/
structure Rule.OneLine (rule : Rule) : Prop where
  package : IsLine rule.package
  name : IsLine rule.name
  version : IsLine rule.version
  shown : ∀ s ∈ rule.declaration.attributes.shown, IsLine s

/-- Whether nothing that is known of a prepared rule has a line feed. -/
structure Resolved.OneLine (known : Resolved) : Prop where
  includes : ∀ s ∈ known.includes, IsLine s
  defines : ∀ s ∈ known.defines, IsLine s
  inherited : ∀ s ∈ known.inherited, IsLine s
  sources : ∀ s ∈ known.sources, IsLine s.stem ∧ IsLine s.path.text
  headers : ∀ path ∈ known.headers, IsLine path.text
  artifacts : ∀ t, ∀ path ∈ known.artifactsFor t, IsLine path.text

/-! ## Paths -/

namespace Path

variable {p q : Path}

theorem isLine_join (hp : IsLine p.text) (hq : IsLine q.text) : IsLine (p.join q).text := by
  have hslash : IsLine "/" := by decide
  rw [join]
  split_ifs
  · exact hq
  · exact isLine_append.2 ⟨hp, hq⟩
  · exact isLine_append.2 ⟨isLine_append.2 ⟨hp, hslash⟩, hq⟩

theorem isLine_slice (hp : IsLine p.text) (start stop : Nat) :
    IsLine (p.slice start stop).text := by
  rw [IsLine, slice, String.toList_ofList]
  exact fun h => hp (List.mem_of_mem_take (List.mem_of_mem_drop h))

theorem isLine_parent? (hp : IsLine p.text) (h : p.parent? = some q) : IsLine q.text := by
  rw [parent?] at h
  split at h
  · cases h
  · split_ifs at h
    split at h
    · obtain rfl := Option.some.inj h
      exact Make.isLine_empty
    · obtain rfl := Option.some.inj h
      exact isLine_slice hp _ _

theorem isLine_stripPrefix? {base : Path} (hp : IsLine p.text) (h : p.stripPrefix? base = some q) :
    IsLine q.text := by
  rw [stripPrefix?] at h
  split_ifs at h
  split at h
  · obtain rfl := Option.some.inj h
    exact isLine_slice hp _ _
  · obtain rfl := Option.some.inj h
    exact Make.isLine_empty

theorem isLine_directoryOf (hp : IsLine p.text) : IsLine (Make.directoryOf p).text := by
  rw [Make.directoryOf]
  cases hparent : p.parent? with
  | none => decide
  | some dir => exact isLine_parent? hp hparent

end Path

theorem Make.isLine_makeDirectory {dir : Path} (h : IsLine dir.text) :
    IsLine (makeDirectory dir) :=
  isLine_append.2 ⟨by decide, isLine_word.2 h⟩

theorem Make.isLine_texts {paths : List Path} (h : ∀ path ∈ paths, IsLine path.text) :
    ∀ s ∈ texts paths, IsLine s :=
  List.forall_mem_map.2 h

/-! ## Names of rules -/

namespace Rule.OneLine

variable {rule : Rule} {t : BuildType}

theorem fullName (h : rule.OneLine) : IsLine rule.fullName := by
  have hat : IsLine "@" := by decide
  have hslash : IsLine "/" := by decide
  have hplain : IsLine rule.plainName := by
    rw [plainName]
    split_ifs
    · exact h.name
    · exact isLine_append.2 ⟨isLine_append.2 ⟨h.package, hslash⟩, h.name⟩
  exact isLine_append.2 ⟨isLine_append.2 ⟨hplain, hat⟩, h.version⟩

theorem quotedName (h : rule.OneLine) : IsLine rule.quotedName := by
  rw [Rule.quotedName, quoteName, Text.replace, IsLine, String.toList_ofList, Text.replaceChar,
    Make.mem_flatMap_iff_of_char]
  · exact h.fullName
  · intro c
    split_ifs with hslash
    · subst hslash
      decide
    · rw [List.mem_singleton, eq_comm]

theorem typeTarget (h : rule.OneLine) : IsLine (Make.typeTarget rule t) := by
  have htarget : IsLine ("." ++ t.target) := by
    cases t <;> decide
  rw [Make.typeTarget, String.append_assoc]
  exact isLine_append.2 ⟨h.quotedName, htarget⟩

/-- Whether no flag of a compiled rule has a line feed. -/
theorem ofCc (h : rule.OneLine) {a : CcAttributes} (ha : rule.cc? = some a) : a.OneLine := by
  have hshown := h.shown
  rw [Rule.cc?] at ha
  split at ha
  · next b hb =>
      obtain rfl := Option.some.inj ha
      rw [hb] at hshown
      simp only [Attributes.shown, List.forall_mem_append] at hshown
      obtain ⟨⟨⟨⟨⟨hinclude, hdefines⟩, hcflags⟩, hcxxflags⟩, hldflags⟩, hargs⟩ := hshown
      exact ⟨hinclude, hdefines, hcflags, hcxxflags, hldflags, hargs⟩
  · cases ha

theorem workingFolder (h : rule.OneLine) {root : Path} (hroot : IsLine root.text) :
    IsLine (rule.workingFolder root).text :=
  Path.isLine_join hroot h.quotedName

theorem packageDir (h : rule.OneLine) {s : Session} (hs : s.OneLine) :
    IsLine (s.layout.packageDir rule.package).text := by
  have hrest : IsLine (String.ofList (rule.package.toList.drop 2)) := by
    rw [IsLine, String.toList_ofList]
    exact fun hfeed => h.package (List.mem_of_mem_drop hfeed)
  rw [Layout.packageDir]
  split_ifs
  · cases hroot : s.layout.builtinRoot with
    | none => exact hrest
    | some root => exact Path.isLine_join (hs.builtinRoot root hroot) hrest
  · exact h.package

end Rule.OneLine

theorem isLine_name_buildType (t : BuildType) : IsLine t.name := by
  cases t <;> decide

theorem isLine_flags_buildType (t : BuildType) : ∀ flag ∈ t.flags, IsLine flag := by
  cases t <;> decide

/-! ## Emissions -/

/-- Whether nothing that a run writes into makefiles has a line feed. -/
structure Emission.OneLine (e : Emission) : Prop where
  session : e.session.OneLine
  rules : ∀ rule ∈ e.prepared.linked.set.rules, rule.OneLine
  files : ∀ file ∈ e.prepared.linked.set.files, IsLine (e.session.layout.relativize file).text
  known : ∀ id, (e.resolved id).OneLine

namespace Emission.OneLine

open Make

variable {e : Emission} {id : RuleId} {t : BuildType} {s : SourceFile} {path stamp : Path}
  {command : String} {products : List Path}

theorem rule (h : e.OneLine) (id : RuleId) : (e.rule id).OneLine := by
  rw [Emission.rule, Prepared.rule, List.getD_eq_getElem?_getD]
  cases hrule : e.prepared.linked.set.rules[id]? with
  | none => exact ⟨by decide, by decide, by decide, by decide⟩
  | some rule => exact h.rules rule (List.mem_of_getElem? hrule)

theorem folder (h : e.OneLine) (id : RuleId) :
    IsLine ((e.rule id).workingFolder e.buildRoot).text :=
  (h.rule id).workingFolder h.session.buildRoot

theorem dependencyArtifacts (h : e.OneLine) : ∀ path ∈ e.dependencyArtifacts id t,
    IsLine path.text := by
  intro path hpath
  obtain ⟨d, -, hmem⟩ := List.mem_flatMap.1 (Path.mem_of_mem_distinct hpath)
  exact (h.known d).artifacts t path hmem

theorem object (h : e.OneLine) (hs : s ∈ (e.resolved id).sources) :
    IsLine (e.compileCommand id s t).object.text := by
  have hending : IsLine ".o" := by decide
  exact Path.isLine_join (Path.isLine_join (h.folder id) (isLine_name_buildType t))
    (isLine_append.2 ⟨((h.known id).sources s hs).1, hending⟩)

theorem arguments (h : e.OneLine) (hs : s ∈ (e.resolved id).sources) :
    ∀ argument ∈ (e.compileCommand id s t).arguments, IsLine argument := by
  have hcompile : IsLine "-c" := by decide
  have houtput : IsLine "-o" := by decide
  have hsource := ((h.known id).sources s hs).2
  have hobject := h.object (t := t) hs
  -- the compiler and the flags of the rule for it
  have hall : ∀ compiler (own : List String), IsLine compiler → (∀ flag ∈ own, IsLine flag) →
      ∀ argument ∈ compiler :: t.flags ++ (e.resolved id).includes ++ (e.resolved id).defines ++
        own ++ ["-c", s.path.text, "-o", (e.compileCommand id s t).object.text],
        IsLine argument := by
    intro compiler own hcompiler hown
    simp only [List.cons_append, List.append_assoc, List.forall_mem_cons, List.forall_mem_append]
    exact ⟨hcompiler, isLine_flags_buildType t, (h.known id).includes, (h.known id).defines, hown,
      hcompile, hsource, houtput, hobject, List.forall_mem_nil _⟩
  cases hcc : (e.rule id).cc? with
  | none =>
      simp only [Emission.compileCommand, hcc] at hall ⊢
      exact hall _ [] h.session.cxx (List.forall_mem_nil _)
  | some a =>
      simp only [Emission.compileCommand, hcc] at hall ⊢
      split_ifs
      · exact hall _ _ h.session.cc ((h.rule id).ofCc hcc).cflags
      · exact hall _ _ h.session.cxx ((h.rule id).ofCc hcc).cxxflags

/-! ### Targets -/

theorem ruleTarget (h : e.OneLine) (id : RuleId) : (ruleTarget e (e.rule id)).OneLine where
  outputs := List.forall_mem_singleton.2 (h.rule id).quotedName
  prerequisites := List.forall_mem_map.2 fun _ _ => (h.rule id).typeTarget
  orderOnly := List.forall_mem_nil _
  recipe := List.forall_mem_nil _

theorem standTarget (h : e.OneLine) {texts : List String} (htexts : ∀ s ∈ texts, IsLine s) :
    (standTarget (e.rule id) t texts).OneLine where
  outputs := List.forall_mem_singleton.2 (h.rule id).typeTarget
  prerequisites := htexts
  orderOnly := List.forall_mem_nil _
  recipe := List.forall_mem_nil _

theorem objectTarget (h : e.OneLine) (hs : s ∈ (e.resolved id).sources) :
    (objectTarget e id t (e.dependencyArtifacts id t) s).OneLine where
  outputs := List.forall_mem_singleton.2 (h.object hs)
  prerequisites := List.forall_mem_cons.2
    ⟨((h.known id).sources s hs).2, isLine_texts (h.known id).headers⟩
  orderOnly := isLine_texts fun path hpath =>
    h.dependencyArtifacts path (List.mem_filter.1 hpath).1
  recipe := List.forall_mem_cons.2 ⟨isLine_makeDirectory (Path.isLine_directoryOf (h.object hs)),
    List.forall_mem_singleton.2 (isLine_line.2 (h.arguments hs))⟩

theorem linkRecipe (h : e.OneLine) {artifact : Path} (hartifact : IsLine artifact.text)
    {objects : List Path} (hobjects : ∀ path ∈ objects, IsLine path.text) :
    ∀ s ∈ linkRecipe e id t artifact objects, IsLine s := by
  have hcreate := isLine_makeDirectory (Path.isLine_directoryOf hartifact)
  have hremove : IsLine "@rm -f " := by decide
  have harchive : IsLine "rcs" := by decide
  have houtput : IsLine "-o" := by decide
  rw [Make.linkRecipe]
  split_ifs
  · simp only [List.forall_mem_cons, isLine_line, isLine_append, isLine_word, List.cons_append,
      List.nil_append]
    exact ⟨hcreate, ⟨hremove, hartifact⟩, ⟨h.session.ar, harchive, hartifact,
      isLine_texts hobjects⟩, List.forall_mem_nil _⟩
  · have hlibraries : ∀ s ∈ (texts ((((e.resolved id).order.reverse.flatMap fun d =>
        (e.resolved d).artifactsFor t)).filter isLibraryFile)).eraseDups, IsLine s := by
      intro s hs
      refine isLine_texts (fun path hpath => ?_) s (List.mem_eraseDups.1 hs)
      obtain ⟨d, -, hmem⟩ := List.mem_flatMap.1 (List.mem_filter.1 hpath).1
      exact (h.known d).artifacts t path hmem
    have hown : ∀ s ∈ ((e.rule id).cc?.map CcAttributes.ldflags).getD [], IsLine s := by
      cases hcc : (e.rule id).cc? with
      | none => exact List.forall_mem_nil _
      | some a => exact ((h.rule id).ofCc hcc).ldflags
    simp only [List.forall_mem_cons, isLine_line, List.cons_append, List.nil_append,
      List.forall_mem_append, List.append_assoc]
    exact ⟨hcreate, ⟨h.session.cxx, isLine_flags_buildType t, houtput, hartifact,
      isLine_texts hobjects, hlibraries, hown, (h.known id).inherited⟩,
      List.forall_mem_nil _⟩

theorem artifactTarget (h : e.OneLine) {artifact : Path} (hartifact : IsLine artifact.text) :
    (artifactTarget e id t artifact).OneLine := by
  have hobjects : ∀ path ∈ (e.resolved id).sources.map fun s => (e.compileCommand id s t).object,
      IsLine path.text :=
    List.forall_mem_map.2 fun s hs => h.object hs
  exact {
    outputs := List.forall_mem_singleton.2 hartifact
    prerequisites := isLine_texts (List.forall_mem_append.2 ⟨hobjects, h.dependencyArtifacts⟩)
    orderOnly := List.forall_mem_nil _
    recipe := h.linkRecipe hartifact hobjects }

theorem stampTarget (h : e.OneLine) (hstamp : IsLine stamp.text) (hcommand : IsLine command) :
    (stampTarget e id stamp command).OneLine where
  outputs := List.forall_mem_singleton.2 hstamp
  prerequisites := isLine_texts fun path hpath => by
    obtain ⟨t, -, hmem⟩ := List.mem_flatMap.1 (Path.mem_of_mem_distinct hpath)
    exact h.dependencyArtifacts path hmem
  orderOnly := List.forall_mem_nil _
  recipe := by
    have htouch : IsLine "@touch " := by decide
    show ∀ s ∈ [makeDirectory (directoryOf stamp), command, "@touch " ++ word stamp.text], IsLine s
    simp only [List.forall_mem_cons, isLine_append, isLine_word]
    exact ⟨isLine_makeDirectory (Path.isLine_directoryOf hstamp), hcommand, ⟨htouch, hstamp⟩,
      List.forall_mem_nil _⟩

/-! ### Fragments -/

/-- A fragment has no line feed if its targets have none. -/
theorem fragment (h : e.OneLine) {f : Fragment} {targets : List Target}
    (hf : f = Make.fragment e (e.rule id) targets) (htargets : ∀ t ∈ f.targets, t.OneLine) :
    f.OneLine := by
  have htype : IsLine (e.rule id).type.name := by
    cases (e.rule id).type <;> decide
  have hparentheses : IsLine " (" ∧ IsLine ")" := by decide
  subst hf
  refine ⟨?_, List.forall_mem_cons.2 ⟨(h.rule id).quotedName,
    List.forall_mem_map.2 fun _ _ => (h.rule id).typeTarget⟩, htargets⟩
  show IsLine ((e.rule id).fullName ++ " (" ++ (e.rule id).type.name ++ ")")
  simp only [isLine_append]
  exact ⟨⟨⟨(h.rule id).fullName, hparentheses.1⟩, htype⟩, hparentheses.2⟩

theorem ofCc (h : e.OneLine) (id : RuleId) : (ofCc e id).OneLine := by
  refine h.fragment rfl fun target htarget => ?_
  rcases mem_ofCc_iff.1 htarget with rfl | ⟨t, -, htarget⟩
  · exact h.ruleTarget id
  · rcases mem_ccTargets_iff.1 htarget with
      ⟨s, hs, rfl⟩ | ⟨artifact, hhead, rfl | rfl⟩ | ⟨-, rfl⟩
    · exact h.objectTarget hs
    · exact h.artifactTarget ((h.known id).artifacts t artifact (List.mem_of_mem_head? hhead))
    · exact h.standTarget (List.forall_mem_singleton.2
        ((h.known id).artifacts t artifact (List.mem_of_mem_head? hhead)))
    · exact h.standTarget (isLine_texts h.dependencyArtifacts)

theorem ofCommand (h : e.OneLine) (hstamp : IsLine stamp.text) (hcommand : IsLine command)
    (hproducts : ∀ path ∈ products, IsLine path.text) :
    (ofCommand e id stamp command products).OneLine := by
  refine h.fragment rfl fun target htarget => ?_
  rcases mem_ofCommand_iff.1 htarget with rfl | rfl | ⟨-, rfl⟩ | ⟨t, -, rfl⟩
  · exact h.ruleTarget id
  · exact h.stampTarget hstamp hcommand
  · exact ⟨isLine_texts hproducts, List.forall_mem_singleton.2 hstamp,
      List.forall_mem_nil _, List.forall_mem_nil _⟩
  · exact h.standTarget (isLine_texts (List.forall_mem_cons.2 ⟨hstamp, hproducts⟩))

theorem ofExternal (h : e.OneLine) {a : ExternalAttributes}
    (ha : (e.rule id).declaration.attributes = .external a) : (ofExternal e id a).OneLine := by
  have hcommand : IsLine "cd " ∧ IsLine " && " := by decide
  have hexports : ∀ file ∈ a.exports, IsLine file := by
    have hshown := (h.rule id).shown
    rwa [ha] at hshown
  refine h.ofCommand (Path.isLine_join (h.folder id) (by decide)) ?_
    (List.forall_mem_map.2 fun file hfile => Path.isLine_join (h.folder id) (hexports file hfile))
  simp only [isLine_append, isLine_word, isLine_script]
  exact ⟨⟨⟨hcommand.1, h.folder id⟩, hcommand.2⟩, trivial⟩

theorem ofScript (h : e.OneLine) {a : ScriptAttributes}
    (ha : (e.rule id).declaration.attributes = .script a) : (ofScript e id a).OneLine := by
  have hcommand : IsLine "cd " ∧ IsLine " && " := by decide
  have houtputs : ∀ file ∈ a.outputs, IsLine file := by
    have hshown := (h.rule id).shown
    rwa [ha] at hshown
  have hdir := (h.rule id).packageDir h.session
  refine h.ofCommand (Path.isLine_join (h.folder id) (by decide)) ?_
    (List.forall_mem_map.2 fun file hfile => Path.isLine_join hdir (houtputs file hfile))
  simp only [isLine_append, isLine_script]
  refine ⟨⟨⟨hcommand.1, ?_⟩, hcommand.2⟩, trivial⟩
  split_ifs
  · decide
  · exact isLine_word.2 hdir

/-- Every makefile that a compiler makes of a rule is a fragment without line feeds. -/
theorem compilerFile? (h : e.OneLine) {c : Compiler} (hc : c ≠ .database)
    {file : Path × String} (hfile : e.compilerFile? c id = some file) :
    ∃ f : Fragment, file.2 = f.text ∧ f.OneLine := by
  unfold Emission.compilerFile? at hfile
  dsimp only at hfile
  split at hfile
  · obtain rfl := Option.some.inj hfile
    exact ⟨_, rfl, h.ofCc id⟩
  · next a ha =>
      obtain rfl := Option.some.inj hfile
      exact ⟨_, rfl, h.ofExternal ha⟩
  · next a ha =>
      obtain rfl := Option.some.inj hfile
      exact ⟨_, rfl, h.ofScript ha⟩
  · exact absurd rfl hc
  · cases hfile

/-! ### The top makefile -/

theorem fragmentPath (h : e.OneLine) (id : RuleId) :
    IsLine (Make.fragmentPath e (e.rule id)).text := by
  have hending : IsLine ".mk" := by decide
  exact Path.isLine_join h.session.buildRoot (isLine_append.2 ⟨(h.rule id).quotedName, hending⟩)

theorem testTarget (h : e.OneLine) : (Root.testTarget e).OneLine := by
  have hprogram : ∀ test ∈ Root.tests e, IsLine test.2.text := by
    intro test htest
    obtain ⟨id, -, hmem⟩ := List.mem_filterMap.1 htest
    split_ifs at hmem
    obtain ⟨program, hhead, rfl⟩ := Option.map_eq_some_iff.1 hmem
    exact (h.known id).artifacts _ program (List.mem_of_mem_head? hhead)
  have harguments : ∀ id, ∀ s ∈ ((e.rule id).cc?.map CcAttributes.args).getD [], IsLine s := by
    intro id
    cases hcc : (e.rule id).cc? with
    | none => exact List.forall_mem_nil _
    | some a => exact ((h.rule id).ofCc hcc).args
  have htexts : IsLine "@$(JK) echo-color green " ∧ IsLine "Running " := by decide
  have htest : IsLine "test" := by decide
  refine ⟨List.forall_mem_singleton.2 htest, List.forall_mem_map.2 hprogram, List.forall_mem_nil _,
    List.forall_mem_flatMap.2 ?_⟩
  rintro ⟨id, program⟩ hmem
  simp only [Root.testRecipe, List.forall_mem_cons, isLine_append, isLine_word, isLine_line]
  exact ⟨⟨htexts.1, htexts.2, (h.rule id).fullName⟩, ⟨hprogram _ hmem, harguments id⟩,
    List.forall_mem_nil _⟩

theorem cleanTarget (h : e.OneLine) : (Root.cleanTarget e).OneLine := by
  have hdelete : IsLine "$(JK) delete-file " := by decide
  have hclean : IsLine "clean" := by decide
  refine ⟨List.forall_mem_singleton.2 hclean, List.forall_mem_nil _, List.forall_mem_nil _, ?_⟩
  rw [Root.cleanTarget]
  dsimp only
  split_ifs
  · exact List.forall_mem_nil _
  · refine List.forall_mem_singleton.2 (isLine_append.2 ⟨hdelete, isLine_line.2 ?_⟩)
    refine List.forall_mem_map.2 fun rule hrule => ?_
    exact (h.rules rule (List.mem_mergeSort.1 hrule)).workingFolder h.session.buildRoot

theorem regenerateTarget (h : e.OneLine) : (Root.regenerateTarget e).OneLine := by
  have hpath : IsLine (Root.path e).text := Path.isLine_join h.session.buildRoot (by decide)
  have htexts : IsLine "$(JK)" ∧ IsLine "gen" ∧ IsLine "--build-root" ∧ IsLine "--build-type" ∧
      IsLine "--format" := by decide
  have hfiles : ∀ file ∈ Root.rootFiles e, IsLine file.text := by
    refine List.forall_mem_map.2 fun package hpackage => h.files _ ?_
    exact List.mem_map_of_mem (List.mem_filter.1 hpackage).1
  refine ⟨List.forall_mem_singleton.2 hpath, ?_, List.forall_mem_nil _,
    List.forall_mem_singleton.2 ?_⟩
  · refine isLine_texts fun file hfile => ?_
    obtain ⟨source, hsource, rfl⟩ := List.mem_map.1 (List.mem_mergeSort.1 hfile)
    exact h.files source hsource
  · rw [Root.regenerateCommand, isLine_intercalate_iff (by decide)]
    simp only [List.forall_mem_append, List.forall_mem_cons, List.forall_mem_flatMap,
      List.forall_mem_map, isLine_word]
    exact ⟨⟨⟨⟨htexts.1, htexts.2.1, htexts.2.2.1, h.session.buildRoot,
        List.forall_mem_nil _⟩,
      fun t _ => ⟨htexts.2.2.2.1, isLine_name_buildType t, List.forall_mem_nil _⟩⟩,
      fun format hformat => ⟨htexts.2.2.2.2, h.session.formats format hformat,
        List.forall_mem_nil _⟩⟩, hfiles⟩

/-- No target of the top makefile has a line feed. -/
theorem root (h : e.OneLine) : ∀ target ∈ (Root.ofEmission e).all :: (Root.ofEmission e).targets,
    target.OneLine := by
  have htype : ∀ t : BuildType, IsLine t.target := by
    intro t
    cases t <;> decide
  have hall : IsLine "all" := by decide
  refine List.forall_mem_cons.2 ⟨⟨List.forall_mem_singleton.2 hall,
    List.forall_mem_map.2 fun t _ => htype t, List.forall_mem_nil _, List.forall_mem_nil _⟩, ?_⟩
  refine List.forall_mem_append.2 ⟨List.forall_mem_map.2 fun t _ => ?_, ?_⟩
  · refine ⟨List.forall_mem_singleton.2 (htype t), List.forall_mem_map.2 fun rule hrule => ?_,
      List.forall_mem_nil _, List.forall_mem_nil _⟩
    obtain ⟨id, -, rfl⟩ := List.mem_map.1 (List.mem_filter.1 hrule).1
    exact (h.rule id).typeTarget
  · simp only [List.forall_mem_cons]
    exact ⟨h.testTarget, h.cleanTarget, h.regenerateTarget, List.forall_mem_nil _⟩

end Emission.OneLine

/-! ## From declarations to prepared rules -/

namespace Flags

variable {set : RuleSet} {order : List RuleId} {a : CcAttributes}

/-- Whether no flag has a line feed. -/
structure OneLine (f : Flags) : Prop where
  includes : ∀ s ∈ f.includes, IsLine s
  defines : ∀ s ∈ f.defines, IsLine s
  linker : ∀ s ∈ f.linker, IsLine s

theorem oneLine_own (h : a.OneLine) : (own a).OneLine where
  includes := List.forall_mem_map.2 fun s hs => isLine_append.2 ⟨by decide, h.include_ s hs⟩
  defines := List.forall_mem_map.2 fun s hs => isLine_append.2 ⟨by decide, h.defines s hs⟩
  linker := h.ldflags

/-- The flags that are gathered are those of the rules. -/
theorem oneLine_ofRules (h : ∀ rule ∈ set.rules, rule.OneLine) : (ofRules set order).OneLine := by
  have hown : ∀ f ∈ (order.filterMap fun id => (set.rules[id]?).bind Rule.cc?).map own,
      f.OneLine := by
    intro f hf
    obtain ⟨a, ha, rfl⟩ := List.mem_map.1 hf
    obtain ⟨id, -, ha⟩ := List.mem_filterMap.1 ha
    obtain ⟨rule, hrule, ha⟩ := Option.bind_eq_some_iff.1 ha
    exact oneLine_own ((h rule (List.mem_of_getElem? hrule)).ofCc ha)
  constructor
  all_goals
    intro s hs
    obtain ⟨f, hf, hs⟩ := List.mem_flatMap.1 (List.mem_eraseDups.1 hs)
  · exact (hown f hf).includes s hs
  · exact (hown f hf).defines s hs
  · exact (hown f hf).linker s hs

end Flags

namespace Preparer

variable {P : Preparer} {l : Linked} {rule : Rule} {known : Resolved} {path dir : Path}

/-- The stem of a source has no line feed if its path has none. -/
theorem isLine_stem (h : IsLine path.text) : IsLine (stem path dir) := by
  have hnames : ∀ n ∈ namesOf path, IsLine n := by
    intro n hn hfeed
    obtain ⟨c, hc, hname⟩ := List.mem_filterMap.1 hn
    have hstep : n ∈ path.steps := by
      rw [Path.steps_eq_components]
      refine List.mem_filterMap.2 ⟨c, hc, ?_⟩
      cases c with
      | name m => exact hname
      | root | current | parent => cases hname
    exact h ((Path.mem_text_iff (by decide) (by decide)).2 ⟨n, hstep, hfeed⟩)
  rw [stem]
  cases hstrip : path.stripPrefix? dir with
  | none => exact (isLine_intercalate_iff (by decide)).2 hnames
  | some inside => exact Path.isLine_stripPrefix? h hstrip

/-- What a rule leaves has no line feed in its path. -/
theorem isLine_artifactsOf {s : Session} {expand : String → Path → Except ExpandFault (List String)}
    {sources : List SourceFile} {t : BuildType} (hs : s.OneLine) (h : rule.OneLine) :
    ∀ path ∈ (s.preparer expand).artifactsOf rule sources t, IsLine path.text := by
  have hfolder := h.workingFolder hs.buildRoot
  have hdir := Path.isLine_join hfolder (q := ⟨t.name⟩) (isLine_name_buildType t)
  have hlibrary : IsLine "lib" ∧ IsLine ".a" := by decide
  have hshown := h.shown
  rw [artifactsOf]
  cases hattributes : rule.declaration.attributes with
  | cc a =>
      dsimp only
      split_ifs
      · exact List.forall_mem_nil _
      · exact List.forall_mem_singleton.2 (Path.isLine_join hdir
          (isLine_append.2 ⟨isLine_append.2 ⟨hlibrary.1, h.name⟩, hlibrary.2⟩))
      · exact List.forall_mem_singleton.2 (Path.isLine_join hdir h.name)
  | external a =>
      rw [hattributes] at hshown
      exact List.forall_mem_cons.2 ⟨Path.isLine_join hfolder (by decide),
        List.forall_mem_map.2 fun file hfile => Path.isLine_join hfolder (hshown file hfile)⟩
  | script a =>
      rw [hattributes] at hshown
      dsimp only
      split_ifs
      · exact List.forall_mem_singleton.2 (Path.isLine_join hfolder (by decide))
      · exact List.forall_mem_map.2 fun file hfile =>
          Path.isLine_join (h.packageDir hs) (hshown file hfile)

/-- What is known of a prepared rule has no line feed, if nothing that is declared and no file
    that is found has one. -/
theorem Found.oneLine {s : Session} {expand : String → Path → Except ExpandFault (List String)}
    (hfound : (s.preparer expand).Found l rule known) (hs : s.OneLine)
    (hrules : ∀ rule ∈ l.set.rules, rule.OneLine) (h : rule.OneLine)
    (hsources : ∀ source ∈ known.sources, IsLine source.path.text)
    (hheaders : ∀ path ∈ known.headers, IsLine path.text) : known.OneLine := by
  have hflags : (∀ s ∈ known.includes, IsLine s) ∧ (∀ s ∈ known.defines, IsLine s) ∧
      ∀ s ∈ known.inherited, IsLine s := by
    cases hcc : rule.cc? with
    | none =>
        rw [hfound.other hcc]
        exact ⟨List.forall_mem_nil _, List.forall_mem_nil _, List.forall_mem_nil _⟩
    | some a =>
        obtain ⟨hincludes, hdefines, hinherited⟩ := hfound.flags a hcc
        have hothers : (Flags.ofRules l.set known.order).OneLine := Flags.oneLine_ofRules hrules
        have hown := Flags.oneLine_own (h.ofCc hcc)
        rw [hincludes, hdefines, hinherited]
        refine ⟨fun s hs => ?_, fun s hs => ?_, hothers.linker⟩
        · exact (List.mem_append.1 (List.mem_eraseDups.1 hs)).elim (hothers.includes s)
            (hown.includes s)
        · exact (List.mem_append.1 (List.mem_eraseDups.1 hs)).elim (hothers.defines s)
            (hown.defines s)
  refine ⟨hflags.1, hflags.2.1, hflags.2.2, fun source hsource => ?_, hheaders,
    fun t path hpath => ?_⟩
  · obtain ⟨-, -, hstem⟩ := hfound.source hsource
    rw [hstem]
    exact ⟨isLine_stem (hsources source hsource), hsources source hsource⟩
  · exact isLine_artifactsOf hs h path (hfound.mem_artifactsFor_iff.1 hpath).2

end Preparer

namespace Make

variable {s : Session} {l : Linked} {p : Prepared}
  {expand : String → Path → Except ExpandFault (List String)}

/-- Prepared rules are written without line feeds, if nothing that is declared and no file that is
    found has one. -/
theorem oneLine_emission (hp : Prepared.ofLinked (s.preparer expand) l = .ok p) (hs : s.OneLine)
    (hrules : ∀ rule ∈ l.set.rules, rule.OneLine)
    (hfiles : ∀ file ∈ l.set.files, IsLine (s.layout.relativize file).text)
    (hsources : ∀ id, ∀ source ∈ (p.at_ id).sources, IsLine source.path.text)
    (hheaders : ∀ id, ∀ path ∈ (p.at_ id).headers, IsLine path.text) :
    (s.emission p).OneLine := by
  obtain ⟨hlinked, -⟩ := Prepared.ofLinked_eq_ok hp
  refine ⟨hs, ?_, ?_, fun id => ?_⟩
  · show ∀ rule ∈ p.linked.set.rules, rule.OneLine
    rwa [hlinked]
  · show ∀ file ∈ p.linked.set.files, IsLine (s.layout.relativize file).text
    rwa [hlinked]
  · show (p.at_ id).OneLine
    cases hrule : l.set.rules[id]? with
    | none =>
        rw [Prepared.at_eq_default (hlinked ▸ List.getElem?_eq_none_iff.1 hrule)]
        exact ⟨List.forall_mem_nil _, List.forall_mem_nil _, List.forall_mem_nil _,
          List.forall_mem_nil _, List.forall_mem_nil _, fun _ => List.forall_mem_nil _⟩
    | some rule =>
        exact (Prepared.found hp hrule).oneLine hs hrules
          (hrules rule (List.mem_of_getElem? hrule)) (hsources id) (hheaders id)

/-- **Makefiles are read back by lines**, and only a line feed in a name, a flag or a path prevents
    it.  A target splits into its head, its commands behind tabs and an empty line if and only
    if nothing in it has a line feed; a fragment is read back under the same condition; and
    the targets of all compilers and of the top makefile meet it if no setting, no declared
    text but scripts, and no file that is found has a line feed. -/
theorem makefiles_read_back (t : Target) (f : Fragment) (s : Session) :
    (pieces t.text = t.head :: t.recipe.map ("\t" ++ ·) ++ ["", ""] ↔ t.OneLine) ∧
    (Fragment.read f.text = some f.reading ↔ f.OneLine) ∧
    ∀ expand l p, Prepared.ofLinked (s.preparer expand) l = .ok p → s.OneLine →
      (∀ rule ∈ l.set.rules, rule.OneLine) →
      (∀ file ∈ l.set.files, IsLine (s.layout.relativize file).text) →
      (∀ id, ∀ source ∈ (p.at_ id).sources, IsLine source.path.text) →
      (∀ id, ∀ path ∈ (p.at_ id).headers, IsLine path.text) →
      (∀ c id file, c ≠ .database → (s.emission p).compilerFile? c id = some file →
        ∃ f : Fragment, file.2 = f.text ∧ f.OneLine) ∧
      ∀ t ∈ (Root.ofEmission (s.emission p)).all :: (Root.ofEmission (s.emission p)).targets,
        t.OneLine := by
  refine ⟨t.text_splits_iff, f.read_text_iff, ?_⟩
  intro expand l p hp hs hrules hfiles hsources hheaders
  have h := oneLine_emission hp hs hrules hfiles hsources hheaders
  exact ⟨fun c id file hc hfile => h.compilerFile? hc hfile, h.root⟩

end Make

/-! ## A script of two lines -/

namespace ReadBack

/-- A rule whose script has two lines. -/
def rule : Rule where
  id := 0
  package := "pkg"
  declaration := {
    type := .shellScript
    name := "gen"
    version := "DEFAULT"
    deps := []
    attributes := .script { script := "touch a\ntouch b\n", outputs := ["a", "b"] } }

def linked : Linked where
  set := {
    rules := [rule]
    packages := [⟨"pkg", ⟨"/proj/pkg/BUILD"⟩, [("gen", 0)]⟩] }
  graph := ⟨[[]]⟩
  size_eq := by decide

/-- What is known of the rule: it has no files. -/
def known : Resolved where
  artifacts := [(.debug, [⟨"pkg/a"⟩, ⟨"pkg/b"⟩])]

theorem exists_prepared : ∃ p,
    Prepared.ofLinked (Locality.session.preparer fun _ _ => .ok []) linked = .ok p ∧
      ∀ id, (p.at_ id).sources = [] ∧ (p.at_ id).headers = [] := by
  have horder : linked.dependenciesInOrder 0 = .ok [] := by cbv
  have hrule : (Locality.session.preparer fun _ _ => .ok []).prepareRule linked rule =
      .ok known := by
    rw [Preparer.prepareRule, show rule.id = 0 from rfl, horder]
    rfl
  obtain ⟨p, hp, -, hresolved⟩ := Prepared.exists_ofLinked_single rfl hrule
  refine ⟨p, hp, fun id => ?_⟩
  rw [Prepared.at_, hresolved]
  cases id with
  | zero | succ id => exact ⟨rfl, rfl⟩

end ReadBack

namespace Make

open ReadBack in
/-- The script is written on one line, so the fragment of the rule is read back. -/
theorem script_read_back : ∃ p,
    Prepared.ofLinked (Locality.session.preparer fun _ _ => .ok []) linked = .ok p ∧
      ∃ f : Fragment, (Locality.session.emission p).compilerFile? .shell 0 =
          some (fragmentPath (Locality.session.emission p) rule, f.text) ∧
        Fragment.read f.text = some f.reading := by
  obtain ⟨p, hp, hfiles⟩ := exists_prepared
  obtain ⟨hlinked, -⟩ := Prepared.ofLinked_eq_ok hp
  have hrule : (Locality.session.emission p).rule 0 = rule := by
    show p.linked.set.rules.getD 0 default = rule
    rw [hlinked]
    rfl
  have hfile : (Locality.session.emission p).compilerFile? .shell 0 =
      some (fragmentPath (Locality.session.emission p) rule,
        (ofScript (Locality.session.emission p) 0
          { script := "touch a\ntouch b\n", outputs := ["a", "b"] }).text) := by
    unfold Emission.compilerFile?
    rw [hrule]
    rfl
  have hs : Locality.session.OneLine :=
    ⟨by decide, nofun, by decide, by decide, by decide, by decide⟩
  have hrules : ∀ rule ∈ linked.set.rules, rule.OneLine :=
    List.forall_mem_singleton.2 ⟨by decide, by decide, by decide, by decide⟩
  have hfile' : ∀ file ∈ linked.set.files, IsLine (Locality.session.layout.relativize file).text :=
    List.forall_mem_singleton.2 (by decide +kernel)
  obtain ⟨-, -, hall⟩ := makefiles_read_back default default Locality.session
  obtain ⟨hcompiled, -⟩ := hall _ linked p hp hs hrules hfile'
    (fun id => (hfiles id).1 ▸ List.forall_mem_nil _)
    (fun id => (hfiles id).2 ▸ List.forall_mem_nil _)
  obtain ⟨f, htext, hf⟩ := hcompiled .shell 0 _ nofun hfile
  obtain ⟨-, hread, -⟩ := makefiles_read_back default f Locality.session
  exact ⟨p, hp, f, hfile.trans (congrArg (fun text => some (_, text)) htext), hread.2 hf⟩

end Make

end Buildwright
