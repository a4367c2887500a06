import Buildwright.Proofs.FileTree.Packages
import Buildwright.Proofs.Layout
import Buildwright.Proofs.Loading.Stock
import Buildwright.Proofs.Package.Refile

/-! # Loading again

    What has been loaded is loaded again from the declaration files of the
    project packages alone, recorded as they are seen from the project root.
    They are read under another spelling at most, packages of the builtin tree
    are found by the same references, and there is room for all of them.

    * `Layout.nextFile` — the file that a package is read from the next time;
    * `RuleSet.recorded`, `RuleSet.Recordable` — the files that are recorded;
    * `load_again` — the second run. -/

namespace Buildwright

open Package.Key (Formed isBuiltin)

/-- Whether the packages of a run can be read again from the files that are recorded of them. -/
structure RuleSet.Recordable (d : Disk) (l : Layout) (roots : List Path) (s : RuleSet) : Prop where
  /-- Declaration files have a plain name. -/
  build : '/' ∉ l.buildFile.toList
  /-- No root file stands for a package of the builtin tree. -/
  roots : ∀ root ∈ roots, ∀ key file, l.packageOf root = .ok (key, file) → isBuiltin key = false
  /-- No key has a backslash, which a path would have as a slash. -/
  keys : ∀ q ∈ s.packages, '\\' ∉ q.key.toList
  /-- No file is the project root. -/
  text : ∀ q ∈ s.packages, isBuiltin q.key = false → (l.relativize q.file).text ≠ ""
  /-- No path is too long. -/
  length : ∀ q ∈ s.packages, isBuiltin q.key = false →
    (l.respell q.file).text.utf8ByteSize ≤ Disk.pathLimit

namespace Loading

variable {l : Layout} {w : Workspace} {d : Disk} {roots : List Path} {ps : List Contents}
  {s : Progress} {c : Catalog}

/-! ## Keys and files of a run -/

theorem formed_of_packageOf {file full : Path} {key : String}
    (h : l.packageOf file = .ok (key, full)) : Formed key := by
  obtain ⟨-, relative, -, rfl⟩ := Layout.packageOf_eq_ok_iff.1 h
  exact Layout.formed_keyBelow relative

theorem formed_of_target? {key raw target : String} (h : Formed key)
    (htarget : Reference.target? key raw = some target) : Formed target := by
  rw [Reference.target?] at htarget
  cases hparse : Reference.parse raw with
  | error fault =>
      rw [hparse] at htarget
      cases htarget
  | ok reference =>
      rw [hparse] at htarget
      rw [← Option.some.inj htarget]
      exact h.resolve reference

/-- Every key is formed. -/
theorem Filled.formed (h : Filled l w roots ps s) : ∀ p ∈ ps, Formed p.key := by
  refine (h.least Formed ⟨fun file _ key full hkey => formed_of_packageOf hkey,
    fun p _ hp target ht => ?_⟩).1
  obtain ⟨d, -, htarget⟩ := List.mem_flatMap.1 ht
  obtain ⟨raw, -, hraw⟩ := List.mem_filterMap.1 htarget
  exact formed_of_target? hp hraw

/-- The frozen packages have the keys and files of the contents. -/
theorem Filled.sources_perm (h : Filled l w roots ps s) :
    (s.catalog.frozen.packages.map fun q => (q.key, q.file)).Perm
      (ps.map fun p => (p.key, p.file)) := by
  have hperm := Catalog.sources_frozen_adoptAll (c := {}) ps
  rwa [← h.catalog, show (Catalog.frozen {}).packages = [] from rfl, List.map_nil,
    List.append_nil] at hperm

theorem Filled.exists_package (h : Filled l w roots ps s) {p : Contents} (hp : p ∈ ps) :
    ∃ q ∈ s.catalog.frozen.packages, q.key = p.key ∧ q.file = p.file := by
  have hmem : (p.key, p.file) ∈ s.catalog.frozen.packages.map fun q => (q.key, q.file) :=
    h.sources_perm.mem_iff.2 (List.mem_map.2 ⟨p, hp, rfl⟩)
  obtain ⟨q, hq, heq⟩ := List.mem_map.1 hmem
  exact ⟨q, hq, congrArg Prod.fst heq, congrArg Prod.snd heq⟩

/-- A package of the builtin tree is found by its key, if it is not that of a root file. -/
theorem Filled.fileOf?_of_builtin (h : Filled l w roots ps s)
    (hr : s.catalog.frozen.Recordable d l roots) {p : Contents} (hp : p ∈ ps)
    (hkey : isBuiltin p.key = true) : l.fileOf? p.key = some p.file := by
  refine (h.files p hp).resolve_left ?_
  rintro ⟨root, hroot, hpackage⟩
  rw [hr.roots root hroot _ _ hpackage] at hkey
  cases hkey

/-- The tasks of the recorded root files. -/
def recordedTasks (l : Layout) (s : RuleSet) : List LoadTask :=
  (s.packages.filter fun q => !isBuiltin q.key).map fun q =>
    { key := q.key, file := l.respell q.file }

/-- A project package has a task. -/
theorem Filled.mem_recordedTasks (h : Filled l w roots ps s) {p : Contents} (hp : p ∈ ps)
    (hkey : isBuiltin p.key = false) :
    p.key ∈ (recordedTasks l s.catalog.frozen).map LoadTask.key := by
  obtain ⟨q, hq, hqkey, -⟩ := h.exists_package hp
  refine List.mem_map.2 ⟨_, List.mem_map.2 ⟨q, List.mem_filter.2 ⟨hq, ?_⟩, rfl⟩, hqkey⟩
  rw [hqkey, hkey]
  rfl

/-- There is room for the packages of the builtin tree, and a root file for each of the others. -/
theorem Filled.length_le (h : Filled l d.workspace roots ps s)
    (hr : s.catalog.frozen.Recordable d l roots) :
    ps.length ≤ d.workspace.capacity + (recordedTasks l s.catalog.frozen).length := by
  have hbuiltin : ((ps.filter fun p => isBuiltin p.key).map Contents.key).length ≤
      d.workspace.capacity := by
    refine (Disk.length_le_nodes (h.nodup.sublist (List.filter_sublist.map _)) hr.build ?_).trans
      (Nat.mul_le_mul_left 5 (Nat.le_succ _))
    intro key hkey
    obtain ⟨p, hp, rfl⟩ := List.mem_map.1 hkey
    obtain ⟨hp, hmark⟩ := List.mem_filter.1 hp
    obtain ⟨calls, hcalls, -⟩ := (h.sound p hp).calls
    exact ⟨h.formed p hp, p.file, calls, h.fileOf?_of_builtin hr hp hmark, hcalls⟩
  have hproject : (recordedTasks l s.catalog.frozen).length =
      (ps.filter fun p => !isBuiltin p.key).length := by
    have hcount := h.sources_perm.countP_eq fun e => !isBuiltin e.1
    rw [List.countP_map, List.countP_map, List.countP_eq_length_filter,
      List.countP_eq_length_filter] at hcount
    rw [recordedTasks, List.length_map]
    exact hcount
  rw [List.length_map] at hbuiltin
  have hsplit := List.length_eq_length_filter_add (l := ps) fun p => isBuiltin p.key
  omega

/-- Keys that those of the recorded root files are among, and all that their packages refer to,
    are all keys of the run. -/
theorem Filled.mem_of_closed (h : Filled l w roots ps s) (hdone : s.Complete)
    (hnone : s.fault = none) (hr : s.catalog.frozen.Recordable d l roots) {keys : List String}
    (htasks : ∀ task ∈ recordedTasks l s.catalog.frozen, task.key ∈ keys)
    (hclosed : ∀ p ∈ ps, p.key ∈ keys → ∀ target ∈ p.targets, target ∈ keys) :
    ∀ p ∈ ps, p.key ∈ keys := by
  refine (h.least (· ∈ keys) ⟨fun file hfile key full hkey => ?_, hclosed⟩).1
  -- a root file stands for a project package, which is among the recorded ones
  have hpending : file ∉ s.roots := by
    rw [hdone.1]
    exact List.not_mem_nil
  have hcovered := h.rootsCovered hnone file hfile key full hkey
  have hmem := (hcovered.resolve_left hpending).mem_keys hdone
  obtain ⟨p, hp, rfl⟩ := List.mem_map.1 hmem
  obtain ⟨task, htask, heq⟩ :=
    List.mem_map.1 (h.mem_recordedTasks hp (hr.roots file hfile _ _ hkey))
  exact heq ▸ htasks task htask

end Loading

end Buildwright
