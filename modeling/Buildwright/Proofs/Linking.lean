import Buildwright.Proofs.Package.Operations
import Buildwright.Proofs.Pool.Protocol
import Buildwright.Proofs.Renumbering.Rules
import Buildwright.Proofs.Rule.Flags

/-! # What linking does

    Rules are linked by one task each, in the order of their names, on a pool that
    finishes the tasks in any order.  The results come back in the order in which the
    tasks were pushed; each list of dependencies is put at the place of its rule, and of
    several faults the first one is kept.

    * `RuleSet.Sealed` — the rules and packages that can be linked;
    * `RuleSet.Names`, `RuleSet.Unnamed` — the rule that a text names, and what is wrong
      if there is none;
    * `RuleSet.Collected`, `RuleSet.collect` — the results of the tasks;
    * `RuleSet.links_exactly` — when linking succeeds, what it gives, and which fault. -/

namespace Buildwright

namespace RuleSet

variable {s : RuleSet} {rule : Rule} {raw key name : String} {id : RuleId} {fault : Fault}
  {reference : Reference} {ids targets : List RuleId}

/-! ## Rules and packages -/

/-- Whether a set of rules is a catalog that is frozen after any operations on a new one. -/
def Sealed (s : RuleSet) : Prop :=
  ∃ ops, (Catalog.performAll {} ops).2.freeze = .ok s

theorem Sealed.exists_coherent (h : s.Sealed) : ∃ c : Catalog, c.Coherent ∧ s = c.frozen := by
  obtain ⟨ops, hfreeze⟩ := h
  exact ⟨_, Catalog.coherent_empty.performAll ops, (Catalog.freeze_eq_ok_iff.1 hfreeze).2⟩

theorem Sealed.numbered (h : s.Sealed) : s.Numbered := by
  obtain ⟨c, hc, rfl⟩ := h.exists_coherent
  exact hc.ids

/-- A name is found if and only if there is a rule of this name in the package. -/
theorem Sealed.lookup?_eq_some_iff (h : s.Sealed) : s.lookup? key name = some id ↔
    ∃ target, s.rules[id]? = some target ∧ target.package = key ∧ target.name = name := by
  obtain ⟨c, hc, rfl⟩ := h.exists_coherent
  rw [Catalog.lookup?_frozen]
  exact hc.lookup?_iff_rule

theorem package?_eq_none_iff :
    s.package? key = none ↔ ∀ package ∈ s.packages, package.key ≠ key := by
  rw [package?, List.find?_eq_none]
  simp

/-! ## The rule that a text names -/

/-- Whether a dependency text of a rule names the rule of a number: the one of its name in the
    package that it leads to, and of the version that it asks for, if it does. -/
def Names (s : RuleSet) (rule : Rule) (raw : String) (id : RuleId) : Prop :=
  ∃ reference target, Reference.parse raw = .ok reference ∧ s.rules[id]? = some target ∧
    target.package = reference.resolve rule.package ∧ target.name = reference.rule ∧
    ∀ required, reference.version = some required → target.version = required

/-- Whether a dependency text of a rule names no rule, and the fault that says why. -/
inductive Unnamed (s : RuleSet) (rule : Rule) (raw : String) : Fault → Prop
  | unread {fault : Fault} (hparse : Reference.parse raw = .error fault) : Unnamed s rule raw fault
  | notLoaded {reference : Reference} (hparse : Reference.parse raw = .ok reference)
      (hnone : ∀ package ∈ s.packages, package.key ≠ reference.resolve rule.package) :
      Unnamed s rule raw (.packageNotLoaded rule.fullName (reference.resolve rule.package))
  | notFound {reference : Reference} {package : LoadedPackage}
      (hparse : Reference.parse raw = .ok reference) (hloaded : package ∈ s.packages)
      (hkey : package.key = reference.resolve rule.package)
      (hnone : ∀ target ∈ s.rules, target.package = reference.resolve rule.package →
        target.name = reference.rule → ∃ required, reference.version = some required ∧
          target.version ≠ required) :
      Unnamed s rule raw (.dependencyNotFound rule.fullName raw)

/-- Whether a version is the one that a reference asks for, if it does. -/
def Admits (reference : Reference) (version : Option String) : Prop :=
  ∀ required, reference.version = some required → version = some required

/-- What a reference gives: no package, a rule that it admits, or no such rule. -/
theorem named_cases (s : RuleSet) (rule : Rule) (raw : String) (reference : Reference) :
    (s.package? (reference.resolve rule.package) = none ∧ s.named rule raw reference =
      .error (.packageNotLoaded rule.fullName (reference.resolve rule.package))) ∨
    ∃ package, s.package? (reference.resolve rule.package) = some package ∧
      ((∃ id, package.rules.lookup reference.rule = some id ∧
          Admits reference (s.rules[id]?.map Rule.version) ∧
          s.named rule raw reference = .ok id) ∨
        ((∀ id, package.rules.lookup reference.rule = some id →
            ¬ Admits reference (s.rules[id]?.map Rule.version)) ∧
          s.named rule raw reference = .error (.dependencyNotFound rule.fullName raw))) := by
  rw [named]
  cases hpackage : s.package? (reference.resolve rule.package) with
  | none => exact .inl ⟨rfl, by simp only⟩
  | some package =>
      refine .inr ⟨package, rfl, ?_⟩
      simp only
      cases hlookup : package.rules.lookup reference.rule with
      | none =>
          refine .inr ⟨?_, rfl⟩
          intro id hid
          cases hid
      | some id =>
          simp only [Option.some.injEq, exists_eq_left', forall_eq']
          cases hversion : reference.version with
          | none =>
              refine .inl ⟨?_, rfl⟩
              intro required h
              cases hversion.symm.trans h
          | some required =>
              have hadmits : Admits reference (s.rules[id]?.map Rule.version) ↔
                  s.rules[id]?.map Rule.version = some required := by
                simp only [Admits, hversion, Option.some.injEq, forall_eq']
              rw [hadmits]
              by_cases hv : s.rules[id]?.map Rule.version = some required
              · exact .inl ⟨hv, if_pos hv⟩
              · exact .inr ⟨hv, if_neg hv⟩

theorem target_of_parse (hparse : Reference.parse raw = .ok reference) :
    s.target rule raw = s.named rule raw reference := by
  rw [target, hparse]
  rfl

/-- A text gives the rule that it names, or the fault that says why it names none. -/
theorem Sealed.target_cases (h : s.Sealed) (rule : Rule) (raw : String) :
    (∃ id, s.target rule raw = .ok id ∧ s.Names rule raw id) ∨
      ∃ fault, s.target rule raw = .error fault ∧ s.Unnamed rule raw fault ∧
        ∀ id, ¬ s.Names rule raw id := by
  cases hparse : Reference.parse raw with
  | error fault =>
      refine .inr ⟨fault, by rw [target, hparse]; rfl, .unread hparse, ?_⟩
      rintro id ⟨reference, target, hok, -⟩
      cases hparse.symm.trans hok
  | ok reference =>
      have hnames : ∀ id, s.Names rule raw id →
          s.lookup? (reference.resolve rule.package) reference.rule = some id ∧
            Admits reference (s.rules[id]?.map Rule.version) := by
        rintro id ⟨reference', target, hok, htarget, hpackage, hname, hversion⟩
        obtain rfl := Except.ok.inj (hparse.symm.trans hok)
        refine ⟨h.lookup?_eq_some_iff.2 ⟨target, htarget, hpackage, hname⟩, fun required hr => ?_⟩
        rw [htarget, Option.map_some, hversion required hr]
      rw [target_of_parse hparse]
      rcases named_cases s rule raw reference with
        ⟨hnone, hfault⟩ | ⟨package, hpackage, ⟨id, hlookup, hadmits, hok⟩ | ⟨hno, hfault⟩⟩
      · refine .inr ⟨_, hfault, .notLoaded hparse (package?_eq_none_iff.1 hnone), fun id hid => ?_⟩
        have hlookup := (hnames id hid).1
        rw [lookup?, hnone] at hlookup
        cases hlookup
      · have hfound : s.lookup? (reference.resolve rule.package) reference.rule = some id := by
          rw [lookup?, hpackage]
          exact hlookup
        obtain ⟨target, htarget, hkey, hname⟩ := h.lookup?_eq_some_iff.1 hfound
        refine .inl
          ⟨id, hok, reference, target, hparse, htarget, hkey, hname, fun required hr => ?_⟩
        have hversion := hadmits required hr
        rw [htarget, Option.map_some] at hversion
        exact Option.some.inj hversion
      · have hnone : ∀ id, ¬ (s.lookup? (reference.resolve rule.package) reference.rule = some id ∧
            Admits reference (s.rules[id]?.map Rule.version)) := by
          rintro id ⟨hlookup, hadmits⟩
          rw [lookup?, hpackage] at hlookup
          exact hno id hlookup hadmits
        have hmem := List.mem_of_find?_eq_some hpackage
        have hkey : package.key = reference.resolve rule.package := by
          simpa using List.find?_some hpackage
        refine .inr
          ⟨_, hfault, .notFound hparse hmem hkey ?_, fun id hid => hnone id (hnames id hid)⟩
        intro target htarget htpackage htname
        obtain ⟨id, hid⟩ := List.mem_iff_getElem?.1 htarget
        by_contra hall
        push Not at hall
        refine hnone id ⟨h.lookup?_eq_some_iff.2 ⟨target, hid, htpackage, htname⟩, ?_⟩
        intro required hr
        rw [hid, Option.map_some, hall required hr]

theorem Sealed.target_eq_ok (h : s.Sealed) (ht : s.target rule raw = .ok id) :
    s.Names rule raw id := by
  rcases h.target_cases rule raw with ⟨id', hok, hnames⟩ | ⟨fault, herror, -⟩
  · obtain rfl := Except.ok.inj (ht.symm.trans hok)
    exact hnames
  · exact absurd (ht.symm.trans herror) nofun

theorem Sealed.target_eq_error (h : s.Sealed) (ht : s.target rule raw = .error fault) :
    s.Unnamed rule raw fault := by
  rcases h.target_cases rule raw with ⟨id, hok, -⟩ | ⟨fault', herror, hunnamed, -⟩
  · exact absurd (ht.symm.trans hok) nofun
  · obtain rfl := Except.error.inj (ht.symm.trans herror)
    exact hunnamed

theorem Sealed.exists_target_iff (h : s.Sealed) :
    (∃ id, s.target rule raw = .ok id) ↔ ∃ id, s.Names rule raw id := by
  constructor
  · rintro ⟨id, hid⟩
    exact ⟨id, h.target_eq_ok hid⟩
  · rintro ⟨id, hnames⟩
    rcases h.target_cases rule raw with ⟨id', hok, -⟩ | ⟨fault, -, -, hno⟩
    · exact ⟨id', hok⟩
    · exact absurd hnames (hno id)

/-! ## The dependencies of a rule -/

/-- Whether a list has what another one mentions, each once, in the order of first mention. -/
structure Lists (mentioned listed : List RuleId) : Prop where
  nodup : listed.Nodup
  mem_iff : ∀ id, id ∈ listed ↔ id ∈ mentioned
  before : ∀ front id back, mentioned = front ++ id :: back →
    ∀ id' ∈ back, id' ∉ front ++ [id] → [id, id'].Sublist listed

theorem lists_eraseDups (targets : List RuleId) : Lists targets targets.eraseDups where
  nodup := nodup_eraseDups _
  mem_iff _ := List.mem_eraseDups
  before front id back hsplit id' hback hnew := by
    rw [hsplit, List.append_cons]
    exact sublist_eraseDups (List.mem_append_right _ (List.mem_singleton_self id)) hnew hback

/-- Whether a fault is that of the first dependency text of a rule that names no rule. -/
def FirstUnnamed (s : RuleSet) (rule : Rule) (fault : Fault) : Prop :=
  ∃ front raw back, rule.deps = front ++ raw :: back ∧
    (∀ earlier ∈ front, ∃ id, s.Names rule earlier id) ∧ s.Unnamed rule raw fault

theorem dependencies_eq_ok_iff : s.dependencies rule = .ok ids ↔
    ∃ targets, rule.deps.mapM (s.target rule) = .ok targets ∧ targets.eraseDups = ids := by
  rw [dependencies]
  cases rule.deps.mapM (s.target rule) with
  | error fault =>
      constructor
      · intro h
        cases h
      · rintro ⟨targets, h, -⟩
        cases h
  | ok targets =>
      constructor
      · exact fun h => ⟨targets, rfl, Except.ok.inj h⟩
      · rintro ⟨targets', hok, rfl⟩
        obtain rfl := Except.ok.inj hok
        rfl

theorem dependencies_eq_error_iff : s.dependencies rule = .error fault ↔
    rule.deps.mapM (s.target rule) = .error fault := by
  rw [dependencies]
  cases rule.deps.mapM (s.target rule) with
  | error fault' => exact Iff.rfl
  | ok targets =>
      constructor
      · intro h
        cases h
      · intro h
        cases h

theorem Sealed.lists_dependencies (h : s.Sealed) (hok : s.dependencies rule = .ok ids) :
    ∃ targets, List.Forall₂ (s.Names rule) rule.deps targets ∧ Lists targets ids := by
  obtain ⟨targets, htargets, rfl⟩ := dependencies_eq_ok_iff.1 hok
  exact ⟨targets, (mapM_eq_ok_iff_forall₂.1 htargets).imp fun _ _ => h.target_eq_ok,
    lists_eraseDups targets⟩

theorem Sealed.firstUnnamed (h : s.Sealed) (herror : s.dependencies rule = .error fault) :
    s.FirstUnnamed rule fault := by
  obtain ⟨front, raw, back, hsplit, hfront, hraw⟩ :=
    mapM_eq_error_iff.1 (dependencies_eq_error_iff.1 herror)
  exact ⟨front, raw, back, hsplit, fun earlier hmem => h.exists_target_iff.1 (hfront earlier hmem),
    h.target_eq_error hraw⟩

/-- The dependencies of a rule can be listed if and only if each text names a rule. -/
theorem Sealed.exists_dependencies_iff (h : s.Sealed) : (∃ ids, s.dependencies rule = .ok ids) ↔
    ∀ raw ∈ rule.deps, ∃ id, s.Names rule raw id := by
  simp only [← h.exists_target_iff]
  constructor
  · rintro ⟨ids, hids⟩ raw hraw
    obtain ⟨targets, htargets, -⟩ := dependencies_eq_ok_iff.1 hids
    obtain ⟨id, -, hid⟩ := exists_mem_of_mapM htargets hraw
    exact ⟨id, hid⟩
  · intro hall
    obtain ⟨targets, htargets⟩ := exists_mapM_eq_ok hall
    exact ⟨_, dependencies_eq_ok_iff.2 ⟨targets, htargets, rfl⟩⟩

/-! ## All rules -/

/-- Linking fails as the first rule in the order of names does whose dependencies fail. -/
theorem link_eq_error_iff :
    s.link = .error fault ↔ s.byName.mapM s.dependencies = .error fault := by
  refine ⟨fun h => ?_, link_eq_error⟩
  cases hnames : s.byName.mapM s.dependencies with
  | error fault' =>
      exact congrArg Except.error (Except.error.inj ((link_eq_error hnames).symm.trans h))
  | ok lists =>
      have hall := exists_dependencies_of_byName hnames
      obtain ⟨lists', hrules⟩ := exists_mapM_eq_ok hall
      obtain ⟨l, hl⟩ := link_of_mapM hrules
      exact absurd (hl.symm.trans h) nofun

theorem exists_link_iff :
    (∃ l, s.link = .ok l) ↔ ∀ rule ∈ s.rules, ∃ ids, s.dependencies rule = .ok ids := by
  constructor
  · rintro ⟨l, hl⟩ rule hrule
    obtain ⟨ids, -, hids⟩ := exists_mem_of_mapM (link_eq_ok hl).2 hrule
    exact ⟨ids, hids⟩
  · intro hall
    obtain ⟨lists, hlists⟩ := exists_mapM_eq_ok hall
    exact link_of_mapM hlists

/-- Each rule of a linked set leads to its dependencies. -/
theorem dependencies_of_link {l : Linked} (hn : s.Numbered) (hl : s.link = .ok l)
    (hrule : rule ∈ s.rules) : s.dependencies rule = .ok (l.graph.next rule.id) := by
  obtain ⟨i, hi⟩ := List.mem_iff_getElem?.1 hrule
  obtain rfl := id_eq_of_map_id hn hi
  obtain ⟨-, hlists⟩ := link_eq_ok hl
  obtain ⟨ids, -, hids⟩ := exists_mem_of_mapM hlists hrule
  rw [Digraph.next, eq_map_of_mapM hlists [], List.getD_eq_getElem?_getD, List.getElem?_map, hi,
    Option.map_some, hids]
  rfl

/-- The fault of linking is that of the rule with the least name among those that fail. -/
theorem exists_least_of_link_eq_error (hnames : (s.rules.map Rule.fullName).Nodup)
    (herror : s.link = .error fault) : ∃ rule ∈ s.rules, s.dependencies rule = .error fault ∧
      ∀ other ∈ s.rules, other ≠ rule → (∀ ids, s.dependencies other ≠ .ok ids) →
        rule.fullName < other.fullName := by
  obtain ⟨front, rule, back, hsplit, hfront, hrule⟩ :=
    mapM_eq_error_iff.1 (link_eq_error_iff.1 herror)
  have hmem : rule ∈ s.rules :=
    s.byName_perm.mem_iff.1 (hsplit ▸ List.mem_append_right _ (List.mem_cons_self ..))
  refine ⟨rule, hmem, hrule, fun other hother hne hfails => ?_⟩
  have hback : other ∈ back := by
    have hin := s.byName_perm.mem_iff.2 hother
    rw [hsplit] at hin
    rcases List.mem_append.1 hin with hin | hin
    · obtain ⟨ids, hids⟩ := hfront other hin
      exact absurd hids (hfails ids)
    · exact (List.mem_cons.1 hin).resolve_left hne
  have hsorted := s.pairwise_byName
  rw [hsplit] at hsorted
  have hle := (List.pairwise_cons.1 (List.pairwise_append.1 hsorted).2.1).1 other hback
  exact lt_of_le_of_ne hle fun heq => hne (List.inj_on_of_nodup_map hnames hother hmem heq.symm)

/-! ## The results of the tasks -/

/-- What has been collected of the results: a list for each rule, and the first fault. -/
structure Collected where
  lists : List (List RuleId)
  fault : Option Fault

/-- Collect one more result, of the rule of a number. -/
def Collected.add (c : Collected) (result : RuleId × Outcome (List RuleId)) : Collected :=
  match result.2 with
  | .ok ids => { c with lists := c.lists.set result.1 ids }
  | .error fault => { c with fault := c.fault.or (some fault) }

/-- What linking makes of the results of its tasks, in the order in which they come back. -/
def collect (s : RuleSet) (results : List (RuleId × Outcome (List RuleId))) : Outcome Linked :=
  let c := results.foldl Collected.add ⟨List.replicate s.rules.length [], none⟩
  match c.fault with
  | some fault => .error fault
  | none => Linked.ofLists s c.lists

/-- The task that links a rule. -/
def linkTask (s : RuleSet) (rule : Rule) : Work (RuleId × Outcome (List RuleId)) :=
  .returns (rule.id, s.dependencies rule) []

section

variable {results : List (RuleId × Outcome (List RuleId))} {c : Collected} {i : RuleId}

theorem Collected.length_add (c : Collected) (result : RuleId × Outcome (List RuleId)) :
    (c.add result).lists.length = c.lists.length := by
  obtain ⟨i, ids | fault⟩ := result
  · rfl
  · exact List.length_set

theorem length_foldl_add (results : List (RuleId × Outcome (List RuleId))) (c : Collected) :
    (results.foldl .add c).lists.length = c.lists.length := by
  induction results generalizing c with
  | nil => rfl
  | cons result results ih => rw [List.foldl_cons, ih, c.length_add]

/-- A result changes the list at its own place only. -/
theorem getElem?_foldl_add_of_notMem (hi : i ∉ results.map Prod.fst) :
    (results.foldl .add c).lists[i]? = c.lists[i]? := by
  induction results generalizing c with
  | nil => rfl
  | cons result results ih =>
      rw [List.map_cons, List.mem_cons, not_or] at hi
      obtain ⟨hne, hi⟩ := hi
      rw [List.foldl_cons, ih hi]
      obtain ⟨j, fault | ids⟩ := result
      · rfl
      · exact List.getElem?_set_ne fun heq => hne heq.symm

/-- A list that comes back once stands at its place. -/
theorem getElem?_foldl_add (hnodup : (results.map Prod.fst).Nodup) (hmem : (i, .ok ids) ∈ results)
    (hlt : i < c.lists.length) : (results.foldl .add c).lists[i]? = some ids := by
  induction results generalizing c with
  | nil => exact absurd hmem List.not_mem_nil
  | cons result results ih =>
      obtain ⟨hnew, hnodup⟩ := List.nodup_cons.1 hnodup
      rw [List.foldl_cons]
      rcases List.mem_cons.1 hmem with rfl | hmem
      · rw [getElem?_foldl_add_of_notMem hnew]
        exact List.getElem?_set_self hlt
      · exact ih hnodup hmem (by rwa [c.length_add])

theorem fault_foldl_add_of_some (hfault : c.fault = some fault) :
    (results.foldl .add c).fault = some fault := by
  induction results generalizing c with
  | nil => exact hfault
  | cons result results ih =>
      refine ih ?_
      obtain ⟨j, fault' | ids⟩ := result
      · show c.fault.or (some fault') = some fault
        rw [hfault]
        rfl
      · exact hfault

theorem fault_foldl_add_of_ok (hok : ∀ r ∈ results, ∃ ids, r.2 = .ok ids) :
    (results.foldl .add c).fault = c.fault := by
  induction results generalizing c with
  | nil => rfl
  | cons result results ih =>
      obtain ⟨⟨ids, hids⟩, hok⟩ := List.forall_mem_cons.1 hok
      rw [List.foldl_cons, ih hok, Collected.add, hids]

end

/-- What the tasks of all rules give. -/
def results (s : RuleSet) : List (RuleId × Outcome (List RuleId)) :=
  s.byName.map fun rule => (rule.id, s.dependencies rule)

theorem exists_mem_results_iff (h : ∀ rule ∈ s.rules, ∃ ids, s.dependencies rule = .ok ids) :
    ∀ r ∈ s.results, ∃ ids, r.2 = .ok ids := by
  intro r hr
  obtain ⟨rule, hrule, rfl⟩ := List.mem_map.1 hr
  exact h rule (s.byName_perm.mem_iff.1 hrule)

/-- The first fault among the results is that of linking. -/
theorem collect_of_error (herror : s.byName.mapM s.dependencies = .error fault) :
    s.collect s.results = .error fault := by
  obtain ⟨front, rule, back, hsplit, hfront, hrule⟩ := mapM_eq_error_iff.1 herror
  have hfault : (s.results.foldl Collected.add
      ⟨List.replicate s.rules.length [], none⟩).fault = some fault := by
    rw [results, hsplit, List.map_append, List.map_cons, List.foldl_append, List.foldl_cons]
    refine fault_foldl_add_of_some ?_
    have hok : ∀ r ∈ front.map fun rule => (rule.id, s.dependencies rule),
        ∃ ids, r.2 = .ok ids := by
      intro r hr
      obtain ⟨other, hother, rfl⟩ := List.mem_map.1 hr
      exact hfront other hother
    simp only [Collected.add, hrule, fault_foldl_add_of_ok hok, Option.none_or]
  rw [collect]
  simp only [hfault]

/-- The lists among the results are put where their rules stand. -/
theorem collect_of_ok (hn : s.Numbered) {lists : List (List RuleId)}
    (hlists : s.rules.mapM s.dependencies = .ok lists) :
    s.collect s.results = Linked.ofLists s lists := by
  have hall : ∀ rule ∈ s.rules, ∃ ids, s.dependencies rule = .ok ids := fun rule hrule => by
    obtain ⟨ids, -, hids⟩ := exists_mem_of_mapM hlists hrule
    exact ⟨ids, hids⟩
  have hnodup : (s.results.map Prod.fst).Nodup := by
    have hids : s.results.map Prod.fst = s.idsByName := List.map_map
    rw [hids, hn.idsByName_perm.nodup_iff]
    exact List.nodup_range
  have hplaced : (s.results.foldl Collected.add
      ⟨List.replicate s.rules.length [], none⟩).lists = lists := by
    refine List.ext_getElem? fun i => ?_
    cases hrule : s.rules[i]? with
    | none =>
        have hlength := List.getElem?_eq_none_iff.1 hrule
        rw [List.getElem?_eq_none, List.getElem?_eq_none]
        · rwa [length_of_mapM hlists]
        · rwa [length_foldl_add, List.length_replicate]
    | some rule =>
        have hmem := List.mem_of_getElem? hrule
        obtain ⟨ids, hids⟩ := hall rule hmem
        have hresult : (i, .ok ids) ∈ s.results := by
          refine List.mem_map.2 ⟨rule, s.byName_perm.mem_iff.2 hmem, ?_⟩
          rw [id_eq_of_map_id hn hrule, hids]
        rw [getElem?_foldl_add hnodup hresult, eq_map_of_mapM hlists [], List.getElem?_map, hrule,
          Option.map_some, hids]
        · rfl
        · rw [List.length_replicate]
          exact (List.getElem?_eq_some_iff.1 hrule).1
  rw [collect, hplaced, fault_foldl_add_of_ok (exists_mem_results_iff hall)]

/-- Collecting the results of all tasks is linking. -/
theorem collect_results (hn : s.Numbered) : s.collect s.results = s.link := by
  cases hnames : s.byName.mapM s.dependencies with
  | error fault => rw [collect_of_error hnames, link_eq_error hnames]
  | ok lists =>
      have hall := exists_dependencies_of_byName hnames
      obtain ⟨lists', hlists⟩ := exists_mapM_eq_ok hall
      rw [collect_of_ok hn hlists, link, hnames, hlists]
      rfl

end RuleSet

/-! ## Any order of the tasks -/

/-- Handles that show values give them in the order of the handles. -/
theorem Pool.joinAll_eq_ok {α : Type} {p : Pool α} {handles : List Nat} {values : List α}
    (h : List.Forall₂ (fun i v => p.result? i = some (.ok v)) handles values) :
    p.joinAll handles = .ok values := by
  rw [joinAll]
  induction h with
  | nil => rfl
  | cons hi _ ih =>
      rw [List.filterMap_cons_some hi]
      exact mapM_cons_eq_ok_iff.2 ⟨_, _, rfl, ih, rfl⟩

namespace RuleSet

variable {s : RuleSet} {threads : Nat} {history : List Crew.Event}
  {crew : Crew (RuleId × Outcome (List RuleId))} {handles : List Nat}

/-- Whether handles are those of the tasks that link the rules, pushed in the order of names
    among other tasks, and all of them have finished. -/
def Dispatched (s : RuleSet) (history : List Crew.Event)
    (crew : Crew (RuleId × Outcome (List RuleId))) (handles : List Nat) : Prop :=
  List.Forall₂ (fun handle rule => .finished handle ∈ history ∧
    ∃ a, crew.tasks[handle]? = some a ∧ a.work = s.linkTask rule) handles s.byName

theorem Dispatched.joinAll (h : s.Dispatched history crew handles)
    (hrun : Crew.Run threads history crew) : crew.pool.joinAll handles = .ok s.results := by
  refine Pool.joinAll_eq_ok (List.forall₂_map_right_iff.2 (h.imp fun handle rule => ?_))
  rintro ⟨hfinished, a, ha, hwork⟩
  rw [(Crew.reply_of_run hrun ha).1 hfinished, hwork]
  rfl

/-- Handles that show the results of the tasks are those of tasks that have finished. -/
theorem dispatched_of_jobs (hrun : Crew.Run threads history crew)
    (h : List.Forall₂ (fun handle rule => crew.pool.jobs[handle]? =
      some ⟨s.linkTask rule, .ended (.ok (rule.id, s.dependencies rule))⟩) handles s.byName) :
    s.Dispatched history crew handles := by
  refine h.imp fun handle rule hjob => ?_
  have hresult : crew.pool.result? handle = some (.ok (rule.id, s.dependencies rule)) := by
    rw [Pool.result?, hjob]
  obtain ⟨a, ha, heq⟩ := Option.map_eq_some_iff.1 (List.getElem?_map.symm.trans hjob)
  refine ⟨?_, a, ha, congrArg Job.work heq⟩
  rcases (Crew.reply_of_run hrun ha).2 _ hresult with ⟨hfinished, -⟩ | ⟨-, hcancelled⟩
  · exact hfinished
  · cases hcancelled

/-- **Linking is exact.** Rules are linked if and only if each of their dependency texts names a
    rule; then each rule leads to the rules that its texts name, each once and in the order of
    first mention.  Otherwise, if no two rules have the same name, the fault is that of the rule
    with the least name among those with a text that names none, and of its first such text.
    The tasks of all rules give that, in whatever order the pool finishes them. -/
theorem links_exactly (h : s.Sealed) :
    ((∃ l, s.link = .ok l) ↔ ∀ rule ∈ s.rules, ∀ raw ∈ rule.deps, ∃ id, s.Names rule raw id) ∧
    (∀ l, s.link = .ok l → l.set = s ∧ ∀ rule ∈ s.rules, ∃ targets,
      List.Forall₂ (s.Names rule) rule.deps targets ∧ Lists targets (l.graph.next rule.id)) ∧
    (∀ fault, s.link = .error fault → (s.rules.map Rule.fullName).Nodup →
      ∃ rule ∈ s.rules, s.FirstUnnamed rule fault ∧ ∀ other ∈ s.rules, other ≠ rule →
        (∃ raw ∈ other.deps, ∀ id, ¬ s.Names other raw id) → rule.fullName < other.fullName) ∧
    ∀ threads history crew handles, Crew.Run threads history crew →
      s.Dispatched history crew handles →
      ∃ results, crew.pool.joinAll handles = .ok results ∧ s.collect results = s.link := by
  refine ⟨?_, fun l hl => ⟨(link_eq_ok hl).1, fun rule hrule => ?_⟩, fun fault herror hnames => ?_,
    fun threads history crew handles hrun hdispatched => ?_⟩
  · rw [exists_link_iff]
    exact forall₂_congr fun rule _ => h.exists_dependencies_iff
  · exact h.lists_dependencies (dependencies_of_link h.numbered hl hrule)
  · obtain ⟨rule, hrule, hfault, hleast⟩ := exists_least_of_link_eq_error hnames herror
    refine ⟨rule, hrule, h.firstUnnamed hfault, fun other hother hne ⟨raw, hraw, hno⟩ => ?_⟩
    refine hleast other hother hne fun ids hids => ?_
    obtain ⟨id, hid⟩ := h.exists_dependencies_iff.1 ⟨ids, hids⟩ raw hraw
    exact hno id hid
  · exact ⟨_, hdispatched.joinAll hrun, collect_results h.numbered⟩

end RuleSet

/-! ## Two packages -/

namespace Linking

/-- A library of a package, with dependencies. -/
def declaration (name : String) (deps : List String) : Declaration where
  type := .ccLibrary
  name := name
  version := "DEFAULT"
  deps := deps
  attributes := .cc {}

/-- What loading does for a package with two rules. -/
def operations (first second : Declaration) : List Catalog.Operation :=
  [.begin "pkg" ⟨"/proj/pkg/BUILD"⟩, .addRule "pkg" first, .addRule "pkg" second, .finish "pkg"]

def twoRules (first second : Declaration) : RuleSet where
  rules := [⟨0, "pkg", first⟩, ⟨1, "pkg", second⟩]
  packages := [⟨"pkg", ⟨"/proj/pkg/BUILD"⟩, [(first.name, 0), (second.name, 1)]⟩]

def base : Declaration := declaration "base" []

/-- A rule that mentions another one in three spellings. -/
def spelled : Declaration :=
  declaration "app" [":base", "//pkg:base@DEFAULT", "../pkg/.:base"]

def absent : Declaration := declaration "zip" [":none"]

/-- A rule with two texts that name no rule, behind one that does. -/
def stray : Declaration := declaration "app" [":zip", "//lib:base", ":none"]

/-- A pool of two workers that finishes the second one of two tasks first. -/
def reversed {α : Type} (first second : Work α) : Pool α :=
  (((((Pool.ofThreads 2).push first).push second).start.take.take).finish 1).finish 0

theorem used_reversed {α : Type} (first second : Work α) :
    Pool.Used 2 (reversed first second) :=
  .finish (.finish (.take (.take (.start (.push (.push .made _) _)))) 1) 0

theorem byName_stray : (twoRules absent stray).byName =
    [⟨1, "pkg", stray⟩, ⟨0, "pkg", absent⟩] := by
  have hperm : (twoRules absent stray).byName.Perm [⟨1, "pkg", stray⟩, ⟨0, "pkg", absent⟩] :=
    (twoRules absent stray).byName_perm.trans (.swap _ _ [])
  refine eq_of_perm_of_pairwise_key hperm (twoRules absent stray).pairwise_byName ?_ ?_
  · decide +kernel
  · exact (hperm.map Rule.fullName).nodup_iff.2 (by decide +kernel)

end Linking

namespace RuleSet

open Linking

/-- A rule that is mentioned three times is a dependency once.  Of two rules that cannot be
    linked, the one with the least name is reported, though it was declared and finished last,
    for the first of its texts that name no rule. -/
theorem twoRules_links :
    (twoRules spelled base).Sealed ∧
    (∃ l, (twoRules spelled base).link = .ok l ∧ l.graph.next 0 = [1]) ∧
    (twoRules absent stray).Sealed ∧ ((twoRules absent stray).rules.map Rule.fullName).Nodup ∧
    (∃ rule ∈ (twoRules absent stray).rules, rule.name = "app" ∧
      (twoRules absent stray).FirstUnnamed rule (.packageNotLoaded "pkg/app@DEFAULT" "lib")) ∧
    ∃ history crew results, Crew.Run 2 history crew ∧
      (twoRules absent stray).Dispatched history crew [0, 1] ∧
      crew.pool.joinAll [0, 1] = .ok results ∧ (twoRules absent stray).collect results =
        .error (.packageNotLoaded "pkg/app@DEFAULT" "lib") := by
  have hspelled : (twoRules spelled base).Sealed := ⟨operations spelled base, rfl⟩
  have hstray : (twoRules absent stray).Sealed := ⟨operations absent stray, rfl⟩
  have hnames : ((twoRules absent stray).rules.map Rule.fullName).Nodup := by decide +kernel
  have hlink : (twoRules absent stray).link =
      .error (.packageNotLoaded "pkg/app@DEFAULT" "lib") := by
    refine link_eq_error ?_
    rw [byName_stray]
    rfl
  obtain ⟨hiff, hlinked, -, -⟩ := links_exactly hspelled
  obtain ⟨-, -, hfault, hpool⟩ := links_exactly hstray
  obtain ⟨history, crew, hrun, hrests⟩ := Crew.exists_run (used_reversed
    ((twoRules absent stray).linkTask ⟨1, "pkg", stray⟩)
    ((twoRules absent stray).linkTask ⟨0, "pkg", absent⟩))
  have hdispatched : (twoRules absent stray).Dispatched history crew [0, 1] := by
    refine dispatched_of_jobs hrun ?_
    rw [byName_stray, hrests.pool]
    exact .cons rfl (.cons rfl .nil)
  obtain ⟨results, hresults, hcollect⟩ := hpool 2 history crew [0, 1] hrun hdispatched
  refine ⟨hspelled, ?_, hstray, hnames, ?_, history, crew, results, hrun, hdispatched, hresults,
    hcollect.trans hlink⟩
  · have hall : ∀ rule ∈ (twoRules spelled base).rules, ∀ raw ∈ rule.deps,
        ∃ id, (twoRules spelled base).Names rule raw id := by
      refine List.forall_mem_cons.2 ⟨?_, List.forall_mem_singleton.2 (List.forall_mem_nil _)⟩
      exact List.forall_mem_cons.2 ⟨hspelled.exists_target_iff.1 ⟨1, rfl⟩,
        List.forall_mem_cons.2 ⟨hspelled.exists_target_iff.1 ⟨1, rfl⟩,
          List.forall_mem_singleton.2 (hspelled.exists_target_iff.1 ⟨1, rfl⟩)⟩⟩
    obtain ⟨l, hl⟩ := hiff.2 hall
    have hnext := dependencies_of_link hspelled.numbered hl (List.mem_cons_self ..)
    exact ⟨l, hl, (Except.ok.inj (hnext.symm.trans rfl))⟩
  · obtain ⟨rule, hrule, hfirst, hleast⟩ := hfault _ hlink hnames
    refine ⟨rule, hrule, ?_, hfirst⟩
    rcases List.mem_cons.1 hrule with rfl | hrule
    · -- the other rule has a text that names no rule as well, and its name is less
      have hno : ∀ id, ¬ (twoRules absent stray).Names ⟨1, "pkg", stray⟩ "//lib:base" id := by
        intro id hid
        obtain ⟨id', hid'⟩ := hstray.exists_target_iff.2 ⟨id, hid⟩
        exact absurd hid' nofun
      have hless := hleast ⟨1, "pkg", stray⟩ (by decide) (by decide) ⟨_, by decide, hno⟩
      exact absurd hless (by decide +kernel)
    · rw [List.mem_singleton.1 hrule]
      rfl

end RuleSet

end Buildwright
