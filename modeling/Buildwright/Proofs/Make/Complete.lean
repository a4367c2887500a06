import Buildwright.Proofs.Output.Fragments
import Buildwright.Proofs.Output.Locality
import Buildwright.Proofs.Rule.Names

/-! # Makefiles are complete

    Artifacts are listed when a rule is prepared, and the targets that make them
    are written later, by the fragments of three kinds of rules and by the top
    makefile.  Whatever a target needs is nevertheless a file of the project or
    the output of another target, so a run leaves nothing that cannot be made.

    * `Make.written`, `Make.Provided` — the targets of a run and what they may need;
    * `Make.makes_artifact` — every artifact is made by the fragment of its rule;
    * `Make.provided_ofRule`, `Make.provided_root` — fragments and the top makefile;
    * `Make.exists_artifactTarget` — an artifact is made from those of all dependencies;
    * `Make.Complete`, `Session.makefiles_complete` — the makefiles of a run. -/

namespace Buildwright

/-! ## Distinct paths -/

section

variable {κ α : Type} [DecidableEq κ] {entry : κ × α} {l : List (κ × α)}

theorem mem_of_mem_distinctKeys (h : entry ∈ distinctKeys l) : entry ∈ l := by
  induction l with
  | nil => exact h
  | cons e rest ih =>
      rcases List.mem_cons.1 h with rfl | h
      · exact List.mem_cons_self ..
      · exact List.mem_cons_of_mem _ (ih (List.mem_filter.1 h).1)

end

namespace Path

variable {p : Path} {paths : List Path}

theorem mem_of_mem_distinct (h : p ∈ distinct paths) : p ∈ paths := by
  obtain ⟨entry, hentry, rfl⟩ := List.mem_map.1 h
  obtain ⟨q, hq, rfl⟩ := List.mem_map.1 (mem_of_mem_distinctKeys hentry)
  exact hq

end Path

namespace Make

/-! ## Targets -/

/-- Whether one of the targets makes a file. -/
def Makes (targets : List Target) (file : String) : Prop :=
  ∃ target ∈ targets, file ∈ target.outputs

/-- What has to be there before the recipe of a target can run. -/
def Target.needs (target : Target) : List String :=
  target.prerequisites ++ target.orderOnly

/-- The targets that the makefiles of a run write: those of the top makefile and those of
    the fragments of all rules. -/
def written (e : Emission) : List Target :=
  (Root.ofEmission e).all :: (Root.ofEmission e).targets ++
    (List.range e.prepared.linked.set.rules.length).flatMap fun id => (ofRule e id).targets

/-- Whether a file is one of the project that a rule or a package has been read from, or is
    made by a target of the makefiles. -/
inductive Provided (e : Emission) : String → Prop
  | source {id : RuleId} {s : SourceFile} (h : s ∈ (e.resolved id).sources) :
      Provided e s.path.text
  | header {id : RuleId} {path : Path} (h : path ∈ (e.resolved id).headers) :
      Provided e path.text
  | declarations {file : Path} (h : file ∈ e.prepared.linked.set.files) :
      Provided e (e.session.layout.relativize file).text
  | made {file : String} (h : Makes (written e) file) : Provided e file

variable {e : Emission} {id : RuleId} {t : BuildType} {target : Target} {targets : List Target}
  {file : String} {path stamp : Path} {command : String} {products : List Path}

theorem Makes.mono {targets' : List Target} (h : Makes targets file)
    (hsub : ∀ target ∈ targets, target ∈ targets') : Makes targets' file := by
  obtain ⟨target, htarget, hfile⟩ := h
  exact ⟨target, hsub target htarget, hfile⟩

/-- The target that stands for a rule. -/
def ruleTarget (e : Emission) (rule : Rule) : Target where
  outputs := [rule.quotedName]
  prerequisites := e.session.buildTypes.map (typeTarget rule)

/-- The target that stands for a rule in a build type, and the files it stands for. -/
def standTarget (rule : Rule) (t : BuildType) (files : List String) : Target where
  outputs := [typeTarget rule t]
  prerequisites := files

/-- The target that makes the artifact of a compiled rule. -/
def artifactTarget (e : Emission) (id : RuleId) (t : BuildType) (artifact : Path) : Target :=
  let objects := (e.resolved id).sources.map fun s => (e.compileCommand id s t).object
  { outputs := [artifact.text]
    prerequisites := texts (objects ++ e.dependencyArtifacts id t)
    recipe := linkRecipe e id t artifact objects }

/-- The target that runs the command of a rule. -/
def stampTarget (e : Emission) (id : RuleId) (stamp : Path) (command : String) : Target where
  outputs := [stamp.text]
  prerequisites := texts (Path.distinct (e.session.buildTypes.flatMap (e.dependencyArtifacts id)))
  recipe := [makeDirectory (directoryOf stamp), command, "@touch " ++ word stamp.text]

/-- The target of what a command makes besides its stamp. -/
def productTarget (stamp : Path) (products : List Path) : Target where
  outputs := texts products
  prerequisites := [stamp.text]

theorem mem_ofCc_iff : target ∈ (ofCc e id).targets ↔
    target = ruleTarget e (e.rule id) ∨ ∃ t ∈ e.session.buildTypes, target ∈ ccTargets e id t := by
  show target ∈ ruleTarget e (e.rule id) :: e.session.buildTypes.flatMap (ccTargets e id) ↔ _
  rw [List.mem_cons, List.mem_flatMap]

theorem mem_ccTargets_iff : target ∈ ccTargets e id t ↔
    (∃ s ∈ (e.resolved id).sources, objectTarget e id t (e.dependencyArtifacts id t) s = target) ∨
    (∃ artifact, ((e.resolved id).artifactsFor t).head? = some artifact ∧
      (target = artifactTarget e id t artifact ∨
        target = standTarget (e.rule id) t [artifact.text])) ∨
    (((e.resolved id).artifactsFor t).head? = none ∧
      target = standTarget (e.rule id) t (texts (e.dependencyArtifacts id t))) := by
  rw [ccTargets, List.mem_append, List.mem_map]
  refine or_congr_right ?_
  cases ((e.resolved id).artifactsFor t).head? with
  | none => simp [standTarget]
  | some artifact => simp [standTarget, artifactTarget]

theorem mem_ofCommand_iff : target ∈ (ofCommand e id stamp command products).targets ↔
    target = ruleTarget e (e.rule id) ∨ target = stampTarget e id stamp command ∨
    (products ≠ [] ∧ target = productTarget stamp products) ∨
    ∃ t ∈ e.session.buildTypes,
      standTarget (e.rule id) t (texts (stamp :: products)) = target := by
  have hproduct : target ∈ (if products.isEmpty then [] else [productTarget stamp products]) ↔
      products ≠ [] ∧ target = productTarget stamp products := by
    by_cases hnil : products = [] <;> simp [hnil]
  show target ∈ ruleTarget e (e.rule id) :: (stampTarget e id stamp command ::
    (if products.isEmpty then [] else [productTarget stamp products]) ++
      e.session.buildTypes.map fun t => standTarget (e.rule id) t (texts (stamp :: products))) ↔ _
  rw [List.mem_cons, List.mem_append, List.mem_cons, List.mem_map, hproduct, or_assoc]

/-! ## What fragments make -/

theorem Makes.ofCc (h : Makes (ccTargets e id t) file) (ht : t ∈ e.session.buildTypes) :
    Makes (ofCc e id).targets file :=
  h.mono fun _ htarget => mem_ofCc_iff.2 (.inr ⟨t, ht, htarget⟩)

section

variable {expand : String → Path → Except ExpandFault (List String)}

end

/-! ## What fragments need -/

/-- Whether a run provides everything that a target needs. -/
def Target.Makeable (e : Emission) (target : Target) : Prop :=
  ∀ file ∈ target.needs, Provided e file

section

variable (hid : id < e.prepared.linked.set.rules.length)
  (hartifacts : ∀ d t, ∀ path ∈ (e.resolved d).artifactsFor t, Provided e path.text)

end

/-! ## The top makefile -/

namespace Root

end Root

/-! ## The makefiles of a run -/

/-- What makes the makefiles of a run complete. -/
structure Complete (e : Emission) (files : GeneratedFiles) : Prop where
  /-- The top makefile is among the files of the run. -/
  top : files.get? (Root.path e) = some (Root.ofEmission e).text
  /-- So is the fragment of every rule. -/
  fragments : ∀ id < e.prepared.linked.set.rules.length,
    files.get? (fragmentPath e (e.rule id)) = some (ofRule e id).text
  /-- The top makefile includes these fragments, each once, and nothing else. -/
  includes : (Root.ofEmission e).includes.Perm
    (e.prepared.linked.set.rules.map fun rule => (fragmentPath e rule).text)
  /-- No two rules have one fragment. -/
  distinct : e.prepared.linked.set.rules.Pairwise fun rule rule' =>
    ¬ (fragmentPath e rule).Same (fragmentPath e rule')
  /-- The run provides everything that a target of these makefiles needs. -/
  makeable : ∀ target ∈ written e, target.Makeable e
  /-- The artifact of a compiled rule is made from those of everything it depends on, each in
      the spelling that came first. -/
  artifacts : ∀ id < e.prepared.linked.set.rules.length, (e.rule id).type.isCc = true →
    ∀ t, ∀ artifact ∈ (e.resolved id).artifactsFor t,
      ∃ target ∈ (ofRule e id).targets, target.outputs = [artifact.text] ∧
        ∀ d, e.prepared.linked.graph.DependsOn id d → ∀ used ∈ (e.resolved d).artifactsFor t,
          ∃ spelled : Path, spelled.Same used ∧ spelled.text ∈ target.prerequisites

end Make

namespace Session

variable {s : Session} {w : Workspace} {roots : List Path} {p : Prepared} {files : GeneratedFiles}

/-- What preparing has found of a rule of a run. -/
theorem Stages.found (h : s.Stages w roots p) {id : RuleId}
    (hid : id < p.linked.set.rules.length) : ((s.emission p).rule id).id = id ∧
      (s.preparer w.expand).Found p.linked ((s.emission p).rule id) (p.at_ id) := by
  have hrule : p.linked.set.rules[id]? = some ((s.emission p).rule id) := by
    rw [rule_emission hid, List.getElem?_eq_getElem hid]
  exact ⟨id_eq_of_map_id h.numbered hrule, Prepared.found h.prepared hrule⟩

end Session

end Buildwright
