import Buildwright.Proofs.Output.Alike
import Buildwright.Proofs.Renumbering.Components
import Buildwright.Proofs.Renumbering.Prepared
import Mathlib

/-! # Outputs of renumbered rules

    Generated texts name rules by their full names and files by their paths.
    Wherever a generator goes through rules it follows the order of emission,
    the order of dependencies or the order of names, and all three are
    renumbered with the rules.  So nothing of a number is left in the output.

    * `Emission.Renumbers` — the relation for what outputs are made from;
    * `Emission.Renumbers.alike`, `Emission.Renumbers.rootFile` — files of rules and top files;
    * `Emission.Renumbers.compile` — the collected files;
    * `Session.generateRules_renumbers` — from loaded rules to generated files. -/

namespace Buildwright

variable {σ : Equiv.Perm RuleId}

/-- Whether outputs are made from rules that differ only by the permutation of the
    numbers. -/
structure Emission.Renumbers (σ : Equiv.Perm RuleId) (e e' : Emission) : Prop where
  session : e'.session = e.session
  prepared : e.prepared.Renumbers σ e'.prepared
  order : e'.order = e.order.map σ

namespace Emission.Renumbers

variable {e e' : Emission}

/-! ## Rules, artifacts and commands -/

theorem buildRoot (h : e.Renumbers σ e') : e'.buildRoot = e.buildRoot := by
  rw [Emission.buildRoot, h.session]
  rfl

/-- The renumbered rule, or the same default if there is none. -/
theorem rule (h : e.Renumbers σ e') (id : RuleId) :
    ∃ ρ, e'.rule (σ id) = (e.rule id).renumber ρ := by
  have hid := h.prepared.linked.set.rules id
  show ∃ ρ, e'.prepared.linked.set.rules.getD (σ id) default =
    (e.prepared.linked.set.rules.getD id default).renumber ρ
  rw [List.getD_eq_getElem?_getD, List.getD_eq_getElem?_getD, hid]
  cases e.prepared.linked.set.rules[id]? with
  | none => exact ⟨fun i => i, rfl⟩
  | some rule => exact ⟨σ, rfl⟩

theorem resolved (h : e.Renumbers σ e') (id : RuleId) :
    e'.resolved (σ id) = (e.resolved id).renumber σ :=
  h.prepared.resolved.getD id (a := default) (b := default) rfl

/-- A renumbered rule is made like the rule. -/
theorem alike (h : e.Renumbers σ e') (id : RuleId) : e.Alike e' id (σ id) where
  session := h.session
  rule := h.rule id
  resolved := ⟨_, h.resolved id⟩
  artifacts := by
    rw [h.resolved]
    refine List.forall₂_map_right_iff.2 (List.forall₂_same.2 fun d _ => ?_)
    rw [h.resolved]
    rfl

/-! ## The top makefile -/

/-- The rules that have a fragment give the same texts. -/
theorem map_compiled (h : e.Renumbers σ e') {α : Type} {f : Rule → α}
    (hf : ∀ (ρ : RuleId → RuleId) (rule : Rule), f (rule.renumber ρ) = f rule) :
    (Make.Root.compiled e').map f = (Make.Root.compiled e).map f := by
  rw [Make.Root.compiled, Make.Root.compiled, h.order, List.map_map, List.filter_map,
    List.filter_map, List.map_map, List.map_map]
  have hkept : ∀ id ∈ e.order, (Make.Root.hasFragment e'.session.registry ∘ e'.rule ∘ σ) id =
      (Make.Root.hasFragment e.session.registry ∘ e.rule) id := by
    intro id _
    obtain ⟨ρ, hrule⟩ := h.rule id
    show Make.Root.hasFragment e'.session.registry (e'.rule (σ id)) = _
    rw [hrule, h.session]
    rfl
  rw [List.filter_congr hkept]
  refine List.map_congr_left fun id _ => ?_
  obtain ⟨ρ, hrule⟩ := h.rule id
  show f (e'.rule (σ id)) = f (e.rule id)
  rw [hrule, hf]

theorem testType (h : e.Renumbers σ e') : Make.Root.testType e' = Make.Root.testType e := by
  rw [Make.Root.testType, h.session]
  rfl

theorem tests (h : e.Renumbers σ e') :
    Make.Root.tests e' = (Make.Root.tests e).map fun t => (σ t.1, t.2) := by
  rw [Make.Root.tests, Make.Root.tests, h.order, List.filterMap_map, List.map_filterMap]
  refine List.filterMap_congr fun id _ => ?_
  obtain ⟨ρ, hrule⟩ := h.rule id
  have htype : (e'.rule (σ id)).type = (e.rule id).type := by
    rw [hrule]
    rfl
  simp only [Function.comp_apply, htype, h.resolved, h.testType]
  cases (e.rule id).type.isTest with
  | false => rfl
  | true =>
      show (((e.resolved id).artifactsFor (Make.Root.testType e)).head?).map _ =
        ((((e.resolved id).artifactsFor (Make.Root.testType e)).head?).map _).map _
      rw [Option.map_map]
      rfl

theorem testRecipe (h : e.Renumbers σ e') (id : RuleId) (program : Path) :
    Make.Root.testRecipe e' (σ id) program = Make.Root.testRecipe e id program := by
  obtain ⟨ρ, hrule⟩ := h.rule id
  rw [Make.Root.testRecipe, hrule]
  rfl

theorem testTarget (h : e.Renumbers σ e') :
    Make.Root.testTarget e' = Make.Root.testTarget e := by
  rw [Make.Root.testTarget, Make.Root.testTarget, h.tests, List.map_map, List.flatMap_map]
  simp only [h.testRecipe]
  rfl

theorem cleanTarget (h : e.Renumbers σ e')
    (hnames : (e.prepared.linked.set.rules.map Rule.fullName).Nodup) :
    Make.Root.cleanTarget e' = Make.Root.cleanTarget e := by
  rw [Make.Root.cleanTarget, Make.Root.cleanTarget, h.prepared.linked.set.byName hnames,
    List.map_map, h.buildRoot]
  rfl

theorem rootFiles (h : e.Renumbers σ e') :
    Make.Root.rootFiles e' = Make.Root.rootFiles e := by
  rw [Make.Root.rootFiles, Make.Root.rootFiles, h.prepared.linked.set.packages,
    List.filter_map, List.map_map, h.session]
  rfl

theorem regenerateTarget (h : e.Renumbers σ e') :
    Make.Root.regenerateTarget e' = Make.Root.regenerateTarget e := by
  have hcommand : Make.Root.regenerateCommand e' = Make.Root.regenerateCommand e := by
    rw [Make.Root.regenerateCommand, h.rootFiles, h.session, h.buildRoot]
    rfl
  rw [Make.Root.regenerateTarget, Make.Root.path, h.prepared.linked.set.files, h.session,
    h.buildRoot, hcommand]
  rfl

/-- The top makefile is the same. -/
theorem ofEmission (h : e.Renumbers σ e')
    (hnames : (e.prepared.linked.set.rules.map Rule.fullName).Nodup) :
    Make.Root.ofEmission e' = Make.Root.ofEmission e := by
  have hincludes : ((Make.Root.compiled e').map fun rule => (Make.fragmentPath e' rule).text) =
      (Make.Root.compiled e).map fun rule => (Make.fragmentPath e rule).text := by
    simp only [Make.fragmentPath, h.buildRoot]
    exact h.map_compiled fun _ _ => rfl
  have htypes : ∀ t : BuildType, ((Make.Root.compiled e').map fun r => Make.typeTarget r t) =
      (Make.Root.compiled e).map fun r => Make.typeTarget r t :=
    fun _ => h.map_compiled fun _ _ => rfl
  rw [Make.Root.ofEmission, Make.Root.ofEmission, h.session, hincludes, h.testTarget,
    h.cleanTarget hnames, h.regenerateTarget]
  simp only [htypes]

/-! ## Compilation databases -/

theorem databaseOfAll (h : e.Renumbers σ e') :
    CompilationDatabase.ofAll e' = CompilationDatabase.ofAll e := by
  have hcc : ∀ id ∈ e.order, ((fun id => (e'.rule id).cc?.isSome) ∘ σ) id =
      (e.rule id).cc?.isSome := by
    intro id _
    obtain ⟨ρ, hrule⟩ := h.rule id
    show (e'.rule (σ id)).cc?.isSome = (e.rule id).cc?.isSome
    rw [hrule]
    rfl
  rw [CompilationDatabase.ofAll, CompilationDatabase.ofAll, h.order, h.buildRoot,
    List.filter_map, List.filter_congr hcc, List.flatMap_map]
  simp only [(h.alike _).entries]

/-! ## Files -/

theorem rootFile (h : e.Renumbers σ e')
    (hnames : (e.prepared.linked.set.rules.map Rule.fullName).Nodup) (format : String) :
    e'.rootFile format = e.rootFile format := by
  rw [Emission.rootFile, Emission.rootFile, h.session, h.ofEmission hnames, h.databaseOfAll,
    Make.Root.path, h.buildRoot]
  rfl

/-- The files, and the faults among them, come in the same order. -/
theorem items (h : e.Renumbers σ e')
    (hnames : (e.prepared.linked.set.rules.map Rule.fullName).Nodup) : e'.items = e.items := by
  have hformat : e'.formatItems = e.formatItems := by
    funext format
    rw [Emission.formatItems, Emission.formatItems, h.order, List.filterMap_map,
      h.rootFile hnames]
    refine congrArg (· ++ _) (List.filterMap_congr fun id _ => ?_)
    simp only [Function.comp_apply, (h.alike _).ruleFile?]
  rw [Emission.items, Emission.items, h.session, hformat]

/-- Every file is collected, and every fault met, alike. -/
theorem compile (h : e.Renumbers σ e')
    (hnames : (e.prepared.linked.set.rules.map Rule.fullName).Nodup) (c : Condensation) :
    e'.compile (c.renumber σ) = e.compile c := by
  rw [Emission.compile, Emission.compile, h.prepared.linked.set.checkAcyclic, h.items hnames]

end Emission.Renumbers

/-! ## From loaded rules to files -/

variable {s t : RuleSet}

namespace Prepared.Renumbers

variable {p q : Prepared}

/-- The rules are emitted in the renumbered order. -/
theorem emission (h : p.Renumbers σ q)
    (hnames : (p.linked.set.rules.map Rule.fullName).Nodup) (session : Session) :
    (session.emission p).Renumbers σ (session.emission q) := by
  refine ⟨rfl, h, ?_⟩
  show q.linked.condense.vertices q.linked.condense.emission =
    (p.linked.condense.vertices p.linked.condense.emission).map σ
  rw [h.linked.condense hnames, Condensation.emission_renumber, Condensation.vertices_renumber]

theorem compilePrepared (h : p.Renumbers σ q)
    (hnames : (p.linked.set.rules.map Rule.fullName).Nodup) (session : Session) :
    session.compilePrepared q = session.compilePrepared p := by
  rw [Session.compilePrepared, Session.compilePrepared, h.linked.condense hnames,
    (h.emission hnames session).compile hnames]

end Prepared.Renumbers

namespace Session

/-- Loaded rules are prepared alike, linking included. -/
theorem prepareRules_renumbers (h : s.Renumbers σ t) (hnames : (s.rules.map Rule.fullName).Nodup)
    (session : Session) (expand : String → Path → Except ExpandFault (List String)) :
    Agrees Fault.Alike (fun p q => p.linked.set = s ∧ p.Renumbers σ q)
      (session.prepareRules expand s) (session.prepareRules expand t) := by
  have hlink : Agrees Fault.Alike (fun l m => l.set = s ∧ l.Renumbers σ m) s.link t.link :=
    (h.link hnames).mono (fun fault _ hfault => hfault ▸ .same fault) fun _ _ hl => hl
  refine hlink.bind ?_
  rintro l m ⟨rfl, hlm⟩
  refine (hlm.ofLinked hnames _).mono (fun _ _ hfault => hfault) ?_
  rintro p q ⟨rfl, hpq⟩
  exact ⟨rfl, hpq⟩

/-- Generated output does not depend on numbers: rules that differ only by a
    permutation of the numbers give the same files, or the same fault. -/
theorem generateRules_renumbers (h : s.Renumbers σ t) (hnames : (s.rules.map Rule.fullName).Nodup)
    (session : Session) (expand : String → Path → Except ExpandFault (List String)) :
    Agrees Fault.Alike Eq (session.generateRules expand s) (session.generateRules expand t) := by
  refine (prepareRules_renumbers h hnames session expand).bind ?_
  rintro p q ⟨rfl, hpq⟩
  rw [hpq.compilePrepared hnames session]
  cases session.compilePrepared p with
  | error fault => exact .error (.same fault)
  | ok files => exact .ok rfl

/-- A rule of the top package with one dependency. -/
def ringRule (id : RuleId) (name dep : String) : Rule where
  id := id
  package := ""
  declaration := {
    type := .ccLibrary
    name := name
    version := "DEFAULT"
    deps := [":" ++ dep]
    attributes := .cc {} }

/-- Rules `x` and `y` that depend on each other. -/
def ring : RuleSet where
  rules := [ringRule 0 "x" "y", ringRule 1 "y" "x"]
  packages := [{ key := "", file := ⟨"/proj/BUILD"⟩, rules := [("x", 0), ("y", 1)] }]

/-- The same rules with the numbers exchanged. -/
def exchangedRing : RuleSet where
  rules := [ringRule 0 "y" "x", ringRule 1 "x" "y"]
  packages := [{ key := "", file := ⟨"/proj/BUILD"⟩, rules := [("x", 1), ("y", 0)] }]

/-- A session that makes compilation databases. -/
def databaseSession : Session where
  layout := {
    projectRoot := ⟨"/proj"⟩
    buildRoot := ⟨"build"⟩
    buildFile := "BUILD"
    builtinRoot := none }
  buildTypes := [.debug]
  formats := ["compile_commands"]
  toolchain := {}
  workers := 1
  registry := Registry.standard

/-- The ring is reported under both numberings, begun anywhere. -/
theorem ring_reported :
    ring.Renumbers (Equiv.swap 0 1) exchangedRing
      ∧ (ring.rules.map Rule.fullName).Nodup
      ∧ ∃ fault, databaseSession.generateRules (fun _ _ => .ok []) exchangedRing = .error fault
        ∧ (Fault.cycle ["x@DEFAULT", "y@DEFAULT", "x@DEFAULT"]).Alike fault := by
  have hrules : ring.Renumbers (Equiv.swap 0 1) exchangedRing := by
    refine ⟨rfl, fun i => ?_⟩
    match i with
    | 0 => rfl
    | 1 => rfl
    | i + 2 =>
        rw [Equiv.swap_apply_of_ne_of_ne (by omega) (by omega)]
        rfl
  have hnames : (ring.rules.map Rule.fullName).Nodup := by decide
  have hring : databaseSession.generateRules (fun _ _ => .ok []) ring =
      .error (.cycle ["x@DEFAULT", "y@DEFAULT", "x@DEFAULT"]) := by cbv
  have hagrees := generateRules_renumbers hrules hnames databaseSession fun _ _ => .ok []
  rw [hring] at hagrees
  generalize databaseSession.generateRules (fun _ _ => .ok []) exchangedRing = outcome at hagrees ⊢
  cases hagrees with
  | error hfault => exact ⟨hrules, hnames, _, rfl, hfault⟩

end Session

end Buildwright
