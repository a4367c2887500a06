import Buildwright.Proofs.Graph.Cycles

/-! # What preparing finds

    Preparing a rule looks at its dependencies and, if it is compiled, at the
    files that its patterns match.  Everything that is known of a prepared rule
    can be read off from what it has found.

    * `Preparer.Found`, `Preparer.found_of_prepareRule` — one rule;
    * `Preparer.exists_of_files`, `Preparer.source_of_files` — the sources of a compiled rule;
    * `Prepared.prepareRule_eq_ok`, `Prepared.found` — the rules of a project;
    * `Prepared.exists_ofLinked_eq`, `Prepared.exists_ofLinked_single` — when they can be
      prepared. -/

namespace Buildwright

namespace Preparer

variable {P : Preparer} {l : Linked} {rule : Rule} {known : Resolved} {a : CcAttributes}
  {sources : List SourceFile} {headers : List Path} {s : SourceFile} {path dir : Path}

/-- The directory that the files of a rule are found in, as its outputs see it. -/
def sourceDir (P : Preparer) (rule : Rule) : Path :=
  (P.layout.packageDir rule.package).normal

theorem lift_eq_ok_iff {α : Type} {x : Outcome α} {b : α} : lift x = .ok b ↔ x = .ok b := by
  cases x with
  | ok a => exact ⟨fun h => congrArg Except.ok (Except.ok.inj h),
      fun h => congrArg Except.ok (Except.ok.inj h)⟩
  | error fault => exact iff_of_false nofun nofun

/-- Only a rule of the builtin tree may have files outside the project. -/
theorem projectPath_eq_ok_iff {found : String} : projectPath rule dir found = .ok path ↔
    ((dir.join ⟨found⟩).climbs = true → Package.Key.isBuiltin rule.package = true) ∧
      path = (dir.join ⟨found⟩).normal := by
  rw [projectPath]
  cases (dir.join ⟨found⟩).climbs <;> cases Package.Key.isBuiltin rule.package
  all_goals simp [eq_comm]

/-- Sources and headers are what the patterns for them expand to, less what the excludes expand
    to, each at its path. -/
theorem exists_of_files (h : P.files rule a = .ok (sources, headers)) :
    ∃ excluded matched matched' paths,
      P.expandAll rule a.excludes (P.layout.packageDirOnDisk rule.package) = .ok excluded ∧
      P.expandAll rule a.srcs (P.layout.packageDirOnDisk rule.package) = .ok matched ∧
      P.expandAll rule a.headers (P.layout.packageDirOnDisk rule.package) = .ok matched' ∧
      (matched.filter (· ∉ excluded)).mapM (projectPath rule (P.sourceDir rule)) = .ok paths ∧
      (matched'.filter (· ∉ excluded)).mapM (projectPath rule (P.sourceDir rule)) = .ok headers ∧
      sources = paths.map fun path => ⟨stem path (P.sourceDir rule), path⟩ := by
  obtain ⟨excluded, hexcluded, h⟩ := exists_of_bind_eq_ok h
  obtain ⟨matched, hmatched, h⟩ := exists_of_bind_eq_ok h
  obtain ⟨matched', hmatched', h⟩ := exists_of_bind_eq_ok h
  obtain ⟨paths, hpaths, h⟩ := exists_of_bind_eq_ok h
  obtain ⟨paths', hpaths', h⟩ := exists_of_bind_eq_ok h
  rw [lift_eq_ok_iff] at hpaths hpaths'
  obtain ⟨rfl, rfl⟩ := Prod.mk.inj (Except.ok.inj h)
  exact ⟨excluded, matched, matched', paths, hexcluded, hmatched, hmatched', hpaths, hpaths', rfl⟩

/-- The sources and headers of a rule lie where its patterns have matched. -/
theorem source_of_files (h : P.files rule a = .ok (sources, headers)) :
    (∀ s ∈ sources, ∃ found, projectPath rule (P.sourceDir rule) found = .ok s.path ∧
      s.stem = stem s.path (P.sourceDir rule)) ∧
    ∀ path ∈ headers, ∃ found, projectPath rule (P.sourceDir rule) found = .ok path := by
  obtain ⟨_, _, _, paths, -, -, -, hpaths, hpaths', rfl⟩ := exists_of_files h
  constructor
  · intro s hs
    obtain ⟨path, hpath, rfl⟩ := List.mem_map.1 hs
    obtain ⟨found, -, hfound⟩ := exists_of_mem_mapM hpaths hpath
    dsimp only
    exact ⟨found, hfound, rfl⟩
  · intro path hpath
    obtain ⟨found, -, hfound⟩ := exists_of_mem_mapM hpaths' hpath
    exact ⟨found, hfound⟩

/-- What preparing a rule has found. -/
structure Found (P : Preparer) (l : Linked) (rule : Rule) (known : Resolved) : Prop where
  order : l.dependenciesInOrder rule.id = .ok known.order
  artifacts : known.artifacts = P.buildTypes.map fun t => (t, P.artifactsOf rule known.sources t)
  other : rule.cc? = none → known = { order := known.order, artifacts := known.artifacts }
  files : ∀ a, rule.cc? = some a → P.files rule a = .ok (known.sources, known.headers)
  flags : ∀ a, rule.cc? = some a →
    known.includes =
      ((Flags.ofRules l.set known.order).includes ++ (Flags.own a).includes).eraseDups ∧
    known.defines =
      ((Flags.ofRules l.set known.order).defines ++ (Flags.own a).defines).eraseDups ∧
    known.inherited = (Flags.ofRules l.set known.order).linker

theorem found_of_prepareRule (h : P.prepareRule l rule = .ok known) : P.Found l rule known := by
  obtain ⟨order, horder, h⟩ := exists_of_bind_eq_ok h
  rw [lift_eq_ok_iff] at horder
  cases hcc : rule.cc? with
  | none =>
      simp only [hcc] at h
      obtain rfl := Except.ok.inj h
      exact ⟨horder, rfl, fun _ => rfl, fun _ ha => (nomatch hcc.symm.trans ha),
        fun _ ha => (nomatch hcc.symm.trans ha)⟩
  | some a =>
      simp only [hcc] at h
      obtain ⟨⟨sources, headers⟩, hfiles, h⟩ := exists_of_bind_eq_ok h
      obtain rfl := Except.ok.inj h
      refine ⟨horder, rfl, fun hnone => (nomatch hcc.symm.trans hnone), ?_, ?_⟩
      · intro a' ha'
        obtain rfl := Option.some.inj (hcc.symm.trans ha')
        exact hfiles
      · intro a' ha'
        obtain rfl := Option.some.inj (hcc.symm.trans ha')
        exact ⟨rfl, rfl, rfl⟩

/-- The order that preparing has found. -/
theorem order_of_prepareRule (h : P.prepareRule l rule = .ok known) :
    l.dependenciesInOrder rule.id = .ok known.order :=
  (found_of_prepareRule h).order

/-- What a rule leaves is known for the build types of the run. -/
theorem Found.artifactsFor_eq (h : P.Found l rule known) (t : BuildType) :
    known.artifactsFor t =
      if t ∈ P.buildTypes then P.artifactsOf rule known.sources t else [] := by
  rw [Resolved.artifactsFor, h.artifacts]
  induction P.buildTypes with
  | nil => rfl
  | cons t' rest ih =>
      rw [List.map_cons, List.lookup_cons]
      by_cases ht : t = t'
      · subst ht
        simp
      · rw [beq_false_of_ne ht, ih]
        simp [ht]

/-- A rule has artifacts for the build types of the run. -/
theorem Found.mem_artifactsFor_iff (h : P.Found l rule known) {t : BuildType} :
    path ∈ known.artifactsFor t ↔
      t ∈ P.buildTypes ∧ path ∈ P.artifactsOf rule known.sources t := by
  rw [h.artifactsFor_eq t]
  by_cases ht : t ∈ P.buildTypes
  · rw [if_pos ht, and_iff_right ht]
  · rw [if_neg ht]
    exact iff_of_false List.not_mem_nil fun hand => ht hand.1

/-- A rule that is not compiled has no sources. -/
theorem Found.exists_cc (h : P.Found l rule known) (hs : s ∈ known.sources) :
    ∃ a, rule.cc? = some a := by
  cases hcc : rule.cc? with
  | some a => exact ⟨a, rfl⟩
  | none =>
      rw [h.other hcc] at hs
      exact absurd hs List.not_mem_nil

/-- Every source lies where a pattern has matched. -/
theorem Found.source (h : P.Found l rule known) (hs : s ∈ known.sources) :
    ∃ found, projectPath rule (P.sourceDir rule) found = .ok s.path ∧
      s.stem = stem s.path (P.sourceDir rule) := by
  obtain ⟨a, ha⟩ := h.exists_cc hs
  exact (source_of_files (h.files a ha)).1 s hs

end Preparer

namespace Prepared

variable {P : Preparer} {l : Linked} {q : Prepared} {v : RuleId} {rule : Rule}

/-- What is known of a prepared rule. -/
theorem prepareRule_eq_ok (h : ofLinked P l = .ok q) (hrule : l.set.rules[v]? = some rule) :
    P.prepareRule l rule = .ok (q.at_ v) := by
  obtain ⟨-, hall, hresolved⟩ := ofLinked_eq_ok h
  obtain ⟨resolved, hok⟩ := hall rule (List.mem_of_getElem? hrule)
  rw [Prepared.at_, hresolved, List.getD_eq_getElem?_getD, List.getElem?_map, hrule,
    Option.map_some, hok]
  rfl

/-- What preparing has found of a rule. -/
theorem found (h : ofLinked P l = .ok q) (hrule : l.set.rules[v]? = some rule) :
    P.Found l rule (q.at_ v) :=
  Preparer.found_of_prepareRule (prepareRule_eq_ok h hrule)

/-- Nothing is known of what is no rule. -/
theorem at_eq_default (h : q.linked.set.rules.length ≤ v) : q.at_ v = default := by
  rw [at_, List.getD_eq_getElem?_getD, List.getElem?_eq_none (q.length_eq ▸ h)]
  rfl

/-- Only rules have sources. -/
theorem exists_rule_of_source {s : SourceFile} (h : ofLinked P l = .ok q)
    (hs : s ∈ (q.at_ v).sources) : ∃ rule, l.set.rules[v]? = some rule ∧ q.rule v = rule := by
  obtain ⟨rfl, -⟩ := ofLinked_eq_ok h
  cases hrule : q.linked.set.rules[v]? with
  | some rule => exact ⟨rule, rfl, by rw [Prepared.rule, List.getD_eq_getElem?_getD, hrule]; rfl⟩
  | none =>
      rw [at_eq_default (List.getElem?_eq_none_iff.1 hrule)] at hs
      exact absurd hs List.not_mem_nil

/-- Only rules have artifacts. -/
theorem lt_of_mem_artifactsFor {t : BuildType} {path : Path} (h : path ∈ (q.at_ v).artifactsFor t) :
    v < q.linked.set.rules.length := by
  by_contra hv
  rw [at_eq_default (Nat.le_of_not_lt hv)] at h
  exact absurd h List.not_mem_nil

/-- Once each rule is prepared, only the check of their sources is left. -/
theorem exists_ofLinked_eq {known : List Resolved}
    (hrules : l.set.rules.mapM (P.prepareRule l) = .ok known) :
    ∃ q, ofLinked P l = (checkOwnership l.set known).map fun _ => q := by
  have hnone : ∀ rules : List Rule, (∀ rule ∈ rules, ∃ r, P.prepareRule l rule = .ok r) →
      firstPanic? (rules.map (P.prepareRule l)) = none ∧
        firstFault? (rules.map (P.prepareRule l)) = none := by
    intro rules hrules
    induction rules with
    | nil => exact ⟨rfl, rfl⟩
    | cons rule rest ih =>
        obtain ⟨r, hr⟩ := hrules rule (List.mem_cons_self ..)
        rw [List.map_cons, hr]
        exact ih fun rule' hrule' => hrules rule' (List.mem_cons_of_mem _ hrule')
  obtain ⟨hpanic, hfault⟩ := hnone l.set.byName fun rule hrule => by
    obtain ⟨r, -, hr⟩ := exists_mem_of_mapM hrules (l.set.byName_perm.mem_iff.1 hrule)
    exact ⟨r, hr⟩
  have hlength := length_of_mapM hrules
  obtain rfl := eq_map_of_mapM hrules default
  refine ⟨⟨l, _, hlength⟩, ?_⟩
  rw [ofLinked]
  simp only [hpanic, hfault]
  generalize checkOwnership l.set _ = owned
  cases owned <;> rfl

/-- What is known of all rules is what preparing each of them has given. -/
theorem resolved_of_mapM {known : List Resolved}
    (hrules : l.set.rules.mapM (P.prepareRule l) = .ok known) (h : ofLinked P l = .ok q) :
    q.resolved = known := by
  obtain ⟨-, -, hresolved⟩ := ofLinked_eq_ok h
  rw [hresolved]
  exact (eq_map_of_mapM hrules default).symm

/-- Rules are prepared if each of them is, and no two claim the same source. -/
theorem exists_ofLinked {known : List Resolved}
    (hrules : l.set.rules.mapM (P.prepareRule l) = .ok known)
    (howner : checkOwnership l.set known = .ok ()) : ∃ q, ofLinked P l = .ok q := by
  obtain ⟨q, hq⟩ := exists_ofLinked_eq hrules
  rw [howner] at hq
  exact ⟨q, hq⟩

/-- Claims of one rule do not conflict. -/
theorem conflict?_eq_none_of_forall {id : RuleId} {owners claimed : List (Path × RuleId)}
    (howners : ∀ c ∈ owners, c.2 = id) (hclaimed : ∀ c ∈ claimed, c.2 = id) :
    conflict? owners claimed = none := by
  induction claimed generalizing owners with
  | nil => rfl
  | cons c rest ih =>
      obtain ⟨rfl, hrest⟩ := List.forall_mem_cons.1 hclaimed
      rw [conflict?]
      cases hfirst : owners.lookup c.1 with
      | none => exact ih (List.forall_mem_cons.2 ⟨rfl, howners⟩) hrest
      | some first =>
          have heq : first = c.2 := howners _ (mem_of_lookup_eq_some hfirst)
          exact (if_neg (not_not_intro heq)).trans (ih howners hrest)

/-- A rule alone is prepared if what it refers to is found. -/
theorem exists_ofLinked_single {rule : Rule} {known : Resolved} (hset : l.set.rules = [rule])
    (hrule : P.prepareRule l rule = .ok known) :
    ∃ q, ofLinked P l = .ok q ∧ q.linked = l ∧ q.resolved = [known] := by
  have hrules : l.set.rules.mapM (P.prepareRule l) = .ok [known] := by
    rw [hset]
    exact mapM_cons_eq_ok_iff.2 ⟨_, _, hrule, rfl, rfl⟩
  have hnames : l.set.idsByName = [rule.id] := by
    rw [RuleSet.idsByName_of_pairwise (hset ▸ List.pairwise_singleton ..), hset]
    rfl
  have howner : checkOwnership l.set [known] = .ok () := by
    have hclaims : ∀ c ∈ claims l.set [known], c.2 = rule.id := by
      rw [claims, hnames, List.flatMap_singleton]
      exact List.forall_mem_map.2 fun _ _ => rfl
    rw [checkOwnership, conflict?_eq_none_of_forall (List.forall_mem_nil _) hclaims]
  obtain ⟨q, hq⟩ := exists_ofLinked hrules howner
  obtain ⟨hlinked, -⟩ := ofLinked_eq_ok hq
  exact ⟨q, hq, hlinked, resolved_of_mapM hrules hq⟩

end Prepared

end Buildwright
