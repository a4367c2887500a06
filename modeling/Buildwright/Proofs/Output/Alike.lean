import Buildwright.Output.Generate
import Buildwright.Proofs.Package.Renumbering
import Mathlib.Data.List.Forall2

/-! # What the file of a rule is made from

    The file of a rule is made from its declaration and from what preparing has
    found: flags, files and artifacts of the rule itself, and the artifacts of
    what it depends on, in order.  Rules of two runs that are alike in this have
    the same files, whatever else the runs have and however they number their
    rules.

    * `Emission.Alike` — rules of two runs of one session that are alike;
    * `Emission.Alike.dependencyArtifacts`, `Emission.Alike.compileCommand` — what
      the generators use of a rule;
    * `Emission.Alike.ruleFile?` — the files. -/

namespace Buildwright

namespace Emission

/-- Whether the rule `id` of a run and the rule `id'` of another run of the same session are
    made alike: the same declaration in the same package, the same results, and the same
    artifacts of what they depend on, in order. -/
structure Alike (e e' : Emission) (id id' : RuleId) : Prop where
  session : e'.session = e.session
  rule : ∃ ρ, e'.rule id' = (e.rule id).renumber ρ
  resolved : ∃ order, e'.resolved id' = { e.resolved id with order }
  artifacts : List.Forall₂ (fun d d' => (e'.resolved d').artifacts = (e.resolved d).artifacts)
    (e.resolved id).order (e'.resolved id').order

namespace Alike

variable {e e' : Emission} {id id' : RuleId}

/-! ## Artifacts and commands -/

theorem buildRoot (h : e.Alike e' id id') : e'.buildRoot = e.buildRoot := by
  rw [Emission.buildRoot, h.session]
  rfl

/-- Artifacts are gathered alike along lists of rules that have the same artifacts. -/
theorem flatMap_artifacts {ids ids' : List RuleId} (t : BuildType)
    (h : List.Forall₂ (fun d d' => (e'.resolved d').artifacts = (e.resolved d).artifacts)
      ids ids') :
    (ids'.flatMap fun d => (e'.resolved d).artifactsFor t) =
      ids.flatMap fun d => (e.resolved d).artifactsFor t := by
  induction h with
  | nil => rfl
  | cons hd _ ih =>
      rw [List.flatMap_cons, List.flatMap_cons, ih, Resolved.artifactsFor, hd]
      rfl

theorem dependencyArtifacts (h : e.Alike e' id id') (t : BuildType) :
    e'.dependencyArtifacts id' t = e.dependencyArtifacts id t :=
  congrArg Path.distinct (flatMap_artifacts t h.artifacts)

theorem compileCommand (h : e.Alike e' id id') (s : SourceFile) (t : BuildType) :
    e'.compileCommand id' s t = e.compileCommand id s t := by
  obtain ⟨ρ, hrule⟩ := h.rule
  obtain ⟨order, hresolved⟩ := h.resolved
  rw [Emission.compileCommand, hrule, hresolved, h.session, h.buildRoot]
  rfl

/-! ## Makefile fragments -/

theorem fragmentPath (h : e.Alike e' id id') (rule : Rule) :
    Make.fragmentPath e' rule = Make.fragmentPath e rule := by
  rw [Make.fragmentPath, h.buildRoot]
  rfl

theorem fragment (h : e.Alike e' id id') (rule : Rule) (targets : List Make.Target) :
    Make.fragment e' rule targets = Make.fragment e rule targets := by
  rw [Make.fragment, Make.standFor, h.session]
  rfl

theorem linkRecipe (h : e.Alike e' id id') (t : BuildType) (artifact : Path)
    (objects : List Path) :
    Make.linkRecipe e' id' t artifact objects = Make.linkRecipe e id t artifact objects := by
  obtain ⟨ρ, hrule⟩ := h.rule
  have hlibraries := flatMap_artifacts t (List.rel_reverse h.artifacts)
  obtain ⟨order, hresolved⟩ := h.resolved
  rw [Make.linkRecipe, hrule, h.session, hlibraries, hresolved]
  rfl

theorem objectTarget (h : e.Alike e' id id') (t : BuildType) (deps : List Path) :
    Make.objectTarget e' id' t deps = Make.objectTarget e id t deps := by
  obtain ⟨order, hresolved⟩ := h.resolved
  funext s
  rw [Make.objectTarget, h.compileCommand, hresolved]
  rfl

theorem ccTargets (h : e.Alike e' id id') : Make.ccTargets e' id' = Make.ccTargets e id := by
  obtain ⟨ρ, hrule⟩ := h.rule
  obtain ⟨order, hresolved⟩ := h.resolved
  funext t
  rw [Make.ccTargets, Make.ccTargets, hrule, hresolved]
  simp only [h.dependencyArtifacts, h.compileCommand, h.objectTarget, h.linkRecipe]
  rfl

theorem ofCc (h : e.Alike e' id id') : Make.ofCc e' id' = Make.ofCc e id := by
  obtain ⟨ρ, hrule⟩ := h.rule
  rw [Make.ofCc, h.fragment, h.session, h.ccTargets, hrule]
  rfl

theorem ofCommand (h : e.Alike e' id id') (stamp : Path) (command : String)
    (products : List Path) :
    Make.ofCommand e' id' stamp command products = Make.ofCommand e id stamp command products := by
  obtain ⟨ρ, hrule⟩ := h.rule
  have hdeps : e'.dependencyArtifacts id' = e.dependencyArtifacts id :=
    funext h.dependencyArtifacts
  rw [Make.ofCommand, h.fragment, h.session, hdeps, hrule]
  rfl

theorem ofExternal (h : e.Alike e' id id') (a : ExternalAttributes) :
    Make.ofExternal e' id' a = Make.ofExternal e id a := by
  obtain ⟨ρ, hrule⟩ := h.rule
  rw [Make.ofExternal, h.ofCommand, h.buildRoot, hrule]
  rfl

theorem ofScript (h : e.Alike e' id id') (a : ScriptAttributes) :
    Make.ofScript e' id' a = Make.ofScript e id a := by
  obtain ⟨ρ, hrule⟩ := h.rule
  rw [Make.ofScript, h.ofCommand, h.buildRoot, h.session, hrule]
  rfl

/-! ## Compilation databases -/

theorem entries (h : e.Alike e' id id') :
    CompilationDatabase.entries e' id' = CompilationDatabase.entries e id := by
  obtain ⟨order, hresolved⟩ := h.resolved
  rw [CompilationDatabase.entries, CompilationDatabase.entries, h.session, hresolved]
  simp only [h.compileCommand]

theorem databaseOfRule (h : e.Alike e' id id') :
    CompilationDatabase.ofRule e' id' = CompilationDatabase.ofRule e id := by
  obtain ⟨ρ, hrule⟩ := h.rule
  rw [CompilationDatabase.ofRule, h.entries, h.buildRoot, hrule]
  rfl

/-! ## Files -/

theorem compilerFile? (h : e.Alike e' id id') (c : Compiler) :
    e'.compilerFile? c id' = e.compilerFile? c id := by
  obtain ⟨ρ, hrule⟩ := h.rule
  unfold Emission.compilerFile?
  simp only [hrule, h.fragmentPath, h.ofCc, h.ofExternal, h.ofScript, h.databaseOfRule]
  rfl

/-- Rules that are alike have the same file in every format, or none can have one. -/
theorem ruleFile? (h : e.Alike e' id id') (format : String) :
    e'.ruleFile? format id' = e.ruleFile? format id := by
  obtain ⟨ρ, hrule⟩ := h.rule
  rw [Emission.ruleFile?, Emission.ruleFile?, hrule, h.session]
  simp only [h.compilerFile?]
  rfl

end Alike

end Emission

end Buildwright
