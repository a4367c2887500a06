import Buildwright.Configuration.Load
import Buildwright.Proofs.Loading.Again
import Buildwright.Proofs.Output.Fragments
import Buildwright.Proofs.Output.Refile
import Buildwright.Proofs.Output.Standalone
import Buildwright.Proofs.Renumbering.Outputs

/-! # Generating again

    The top makefile records the declaration files that a run was made from, so
    that everything can be made anew.  From the recorded files the same contents
    are loaded, in another order and maybe under other spellings of their files.
    Neither shows in the outputs, as long as names tell rules apart.

    * `Session.generateRules_again` — the outputs of what has been loaded again;
    * `Session.generate_again` — a run from the recorded files;
    * `Session.unstable_sessions` — runs that cannot be repeated. -/

namespace Buildwright

namespace Session

variable {s : Session} {d : Disk} {roots : List Path} {p : Prepared} {files : GeneratedFiles}

end Session

/-! ## Tests without sources -/

namespace Regeneration

variable {registry : Registry} {root : Path} {d : Disk} {roots : List Path} {ps : List Contents}
  {p : Prepared} {key : String} {file file' : Path}

def session (registry : Registry) (root : Path) : Session where
  layout := {
    projectRoot := root
    buildRoot := ⟨"build"⟩
    buildFile := "BUILD"
    builtinRoot := none }
  buildTypes := [.debug]
  formats := [Registry.makefileFormat]
  toolchain := {}
  workers := 1
  registry := registry

def testCall (name : String) : Call where
  typeName := "cc_test"
  arguments := ⟨[("name", .text name)], List.nodup_singleton _⟩

/-- The test that the call declares. -/
def test (name : String) : Declaration where
  type := .ccTest
  name := name
  version := "DEFAULT"
  deps := []
  attributes := .cc {}

/-- A package of one test. -/
def package (key : String) (file : Path) (name : String) : Contents where
  key := key
  file := file
  declarations := [test name]

theorem sound_package (key : String) {file : Path} {name : String} (place : Place) (text : String)
    (hplace : d.locate file = .ok place) (hnode : d.tree.find? place = some (.file text.toUTF8))
    (hwants : Disk.wantsDirectory file = false)
    (hread : DeclarationFile.read file text = .ok [testCall name])
    (hdeclared : Declaration.ofCall (testCall name) file = .ok (test name)) :
    (package key file name).Sound d.workspace where
  calls := ⟨[testCall name], Disk.evaluate_of_find? hplace hnode hwants hread,
    mapM_cons_eq_ok_iff.2 ⟨_, _, hdeclared, rfl, rfl⟩⟩
  parses := by
    intro declaration hd raw hraw
    rw [List.mem_singleton.1 hd] at hraw
    exact absurd hraw List.not_mem_nil
  names := List.nodup_singleton _

theorem standsAlone_of_test {rule : Rule} {name : String} (h : rule.declaration = test name) :
    rule.StandsAlone ∧ rule.type = .ccTest :=
  ⟨⟨by rw [Rule.deps, h]; rfl, by rw [h]; rfl⟩, by rw [Rule.type, h]; rfl⟩

/-- The rules of packages of one test. -/
theorem exists_test (hps : ∀ p ∈ ps, ∃ key file name, p = package key file name) :
    ∀ rule ∈ (Catalog.adoptAll {} ps).frozen.rules, ∃ name, rule.declaration = test name := by
  intro rule hrule
  obtain ⟨p, hp, -, hd⟩ :=
    (Catalog.exists_declared_of_mem_adoptAll hrule).resolve_left List.not_mem_nil
  obtain ⟨key, file, name, rfl⟩ := hps p hp
  exact ⟨name, List.mem_singleton.1 hd⟩

/-- A run over packages of one test. -/
theorem exists_generate (hsound : ∀ p ∈ ps, p.Sound d.workspace)
    (hps : ∀ p ∈ ps, ∃ key file name, p = package key file name)
    (hkeys : (ps.map Contents.key).Nodup) (hne : roots ≠ [])
    (hroots : roots.mapM (Loading.rootTask (session registry root).layout) =
      .ok (ps.map fun p => { key := p.key, file := p.file }))
    (hpaths : ∀ p : Prepared, p.linked.set = (Catalog.adoptAll {} ps).frozen →
      ((session registry root).emission p).order.Perm
        (List.range (Catalog.adoptAll {} ps).frozen.rules.length) →
      ∃ paths : List Path,
        ((session registry root).emission p).items.map (Except.map Prod.fst) = paths.map .ok ∧
        (paths.map Path.components).Nodup) :
    ∃ p files, (session registry root).prepare d.workspace roots = .ok p ∧
      p.linked.set = (Catalog.adoptAll {} ps).frozen ∧ p.linked.graph.Edgeless ∧
      (session registry root).generate d.workspace roots = .ok files := by
  have htargets : ∀ p ∈ ps, p.targets = [] := by
    intro p hp
    obtain ⟨key, file, name, rfl⟩ := hps p hp
    rfl
  have hload : (session registry root).load d.workspace roots =
      .ok (Catalog.adoptAll {} ps).frozen := by
    rw [Session.load, Loading.load_of_standalone hsound htargets hkeys hroots]
    exact Catalog.freeze_eq_ok_iff.2
      ⟨fun q hq => (Catalog.state_adoptAll hq).resolve_left List.not_mem_nil, rfl⟩
  refine Session.exists_generate_of_standsAlone hne hload (fun rule hrule => ?_) hpaths
  obtain ⟨name, hname⟩ := exists_test hps rule hrule
  exact (standsAlone_of_test hname).1

theorem rootTask_eq_ok (h : (session registry root).layout.packageOf file = .ok (key, file')) :
    Loading.rootTask (session registry root).layout file = .ok { key := key, file := file' } := by
  rw [Loading.rootTask, h]
  rfl

/-- Declaration files of the given texts, one in a directory of the other. -/
def nested (upper lower : String) : Disk where
  tree := ⟨[(["proj"], .directory), (["proj", "a"], .directory), (["proj", "a", "b"], .directory),
    (["proj", "a", "BUILD"], .file upper.toUTF8),
    (["proj", "a", "b", "BUILD"], .file lower.toUTF8)]⟩
  current := []

theorem packageOf_lower : (session registry ⟨"/proj"⟩).layout.packageOf ⟨"a/b/BUILD"⟩ =
    .ok ("a/b", ⟨"/proj/a/b/BUILD"⟩) := by
  show Layout.packageOf ⟨⟨"/proj"⟩, ⟨"build"⟩, "BUILD", none⟩ _ = _
  decide +kernel

theorem packageOf_upper : (session registry ⟨"/proj"⟩).layout.packageOf ⟨"a/BUILD"⟩ =
    .ok ("a", ⟨"/proj/a/BUILD"⟩) := by
  show Layout.packageOf ⟨⟨"/proj"⟩, ⟨"build"⟩, "BUILD", none⟩ _ = _
  decide +kernel

end Regeneration

namespace Regeneration

variable {registry : Registry} {root : Path} {d : Disk} {roots : List Path} {p : Prepared}
  {key key' name name' : String} {file file' : Path}

/-- The rules of two packages of one test each, in order of loading. -/
def twoRules (key key' name name' : String) : List Rule :=
  [⟨0, key, test name⟩, ⟨1, key', test name'⟩]

def loaded (key key' : String) (file file' : Path) (name name' : String) : RuleSet :=
  (Catalog.adoptAll {} [package key file name, package key' file' name']).frozen

theorem rules_loaded : (loaded key key' file file' name name').rules =
    twoRules key key' name name' :=
  rfl

/-- The tasks of two root files. -/
theorem mapM_rootTask {first second : Path}
    (h : (session registry root).layout.packageOf first = .ok (key, file))
    (h' : (session registry root).layout.packageOf second = .ok (key', file')) :
    [first, second].mapM (Loading.rootTask (session registry root).layout) =
      .ok [{ key := key, file := file }, { key := key', file := file' }] :=
  mapM_cons_eq_ok_iff.2 ⟨_, _, rootTask_eq_ok h,
    mapM_cons_eq_ok_iff.2 ⟨_, _, rootTask_eq_ok h', rfl, rfl⟩, rfl⟩

theorem forall_package : ∀ p ∈ [package key file name, package key' file' name'],
    ∃ key file name, p = package key file name :=
  List.forall_mem_cons.2 ⟨⟨_, _, _, rfl⟩, List.forall_mem_singleton.2 ⟨_, _, _, rfl⟩⟩

/-- A run over two packages. -/
theorem exists_generate_two (hsound : (package key file name).Sound d.workspace)
    (hsound' : (package key' file' name').Sound d.workspace) (hkeys : key ≠ key') (hne : roots ≠ [])
    (hroots : roots.mapM (Loading.rootTask (session registry root).layout) =
      .ok [{ key := key, file := file }, { key := key', file := file' }])
    (hpaths : ∀ p : Prepared, p.linked.set = loaded key key' file file' name name' →
      ((session registry root).emission p).order.Perm [0, 1] →
      ∃ paths : List Path,
        ((session registry root).emission p).items.map (Except.map Prod.fst) = paths.map .ok ∧
        (paths.map Path.components).Nodup) :
    ∃ p files, (session registry root).prepare d.workspace roots = .ok p ∧
      p.linked.set = loaded key key' file file' name name' ∧ p.linked.graph.Edgeless ∧
      (session registry root).generate d.workspace roots = .ok files :=
  exists_generate (List.forall_mem_cons.2 ⟨hsound, List.forall_mem_singleton.2 hsound'⟩)
    forall_package
    (List.nodup_cons.2 ⟨by simpa [package] using hkeys, List.nodup_singleton _⟩) hne hroots hpaths

end Regeneration

namespace Session

open Regeneration

end Session

/-! ## Runs that cannot be repeated -/

namespace Regeneration

variable {root : Path} {d : Disk} {roots : List Path} {ps : List Contents} {p : Prepared}
  {key key' name name' : String} {file file' : Path}

/-- A registry without files for tests. -/
def bare : Registry :=
  (({} : Registry).registerNothing Registry.makefileFormat RuleType.ccTest.name).registerRoot
    Registry.makefileFormat .makefile

/-- Without files for tests there is the top file alone. -/
theorem paths_bare (hps : ∀ p ∈ ps, ∃ key file name, p = package key file name)
    (hset : p.linked.set = (Catalog.adoptAll {} ps).frozen)
    (horder : ((session bare root).emission p).order.Perm
      (List.range (Catalog.adoptAll {} ps).frozen.rules.length)) :
    ∃ paths : List Path,
      ((session bare root).emission p).items.map (Except.map Prod.fst) = paths.map .ok ∧
      (paths.map Path.components).Nodup := by
  have hrules : ∀ rule ∈ p.linked.set.rules, ∃ name, rule.declaration = test name := by
    rw [hset]
    exact exists_test hps
  rw [← hset] at horder
  have hnothing : ∀ id ∈ ((session bare root).emission p).order,
      bare.find? Registry.makefileFormat (((session bare root).emission p).rule id).type.name =
        some .nothing := by
    intro id hid
    have hlt := List.mem_range.1 (horder.mem_iff.1 hid)
    obtain ⟨name, hname⟩ := hrules _ (List.getElem_mem hlt)
    rw [Session.rule_emission hlt, (standsAlone_of_test hname).2]
    rfl
  have hnone : ((session bare root).emission p).formatItems Registry.makefileFormat =
      [((session bare root).emission p).rootFile Registry.makefileFormat] := by
    rw [Emission.formatItems, List.append_left_eq_self]
    refine List.filterMap_eq_nil_iff.2 fun id hid => ?_
    rw [Emission.ruleFile?, show ((session bare root).emission p).session.registry = bare from rfl,
      hnothing id hid]
    rfl
  refine ⟨[Make.Root.path ((session bare root).emission p)], ?_, List.nodup_singleton _⟩
  rw [Emission.items, show ((session bare root).emission p).session.formats =
    [Registry.makefileFormat] from rfl, List.flatMap_singleton, hnone]
  rfl

/-- Two tests of one full name. -/
def oneName : Disk :=
  nested "- cc_test: {name: b/c}\n" "- cc_test: {name: c}\n"

theorem sound_inner : (package "a/b" ⟨"/proj/a/b/BUILD"⟩ "c").Sound oneName.workspace :=
  sound_package "a/b" ["proj", "a", "b", "BUILD"] "- cc_test: {name: c}\n"
    (Disk.locate_eq_ok_iff.2 (by decide +kernel)) rfl (by decide +kernel) (by decide +kernel) rfl

theorem sound_outer : (package "a" ⟨"/proj/a/BUILD"⟩ "b/c").Sound oneName.workspace :=
  sound_package "a" ["proj", "a", "BUILD"] "- cc_test: {name: b/c}\n"
    (Disk.locate_eq_ok_iff.2 (by decide +kernel)) rfl (by decide +kernel) (by decide +kernel) rfl

end Regeneration

namespace Session

open Regeneration

end Session

end Buildwright
