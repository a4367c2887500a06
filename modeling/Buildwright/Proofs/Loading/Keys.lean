import Buildwright.Proofs.Loading.Builtin
import Buildwright.Proofs.Loading.Tally
import Buildwright.Proofs.Package.RootFiles

/-! # Canonical keys

    A directory has one canonical key: names with one slash between two of them, or nothing
    at all.  Normalizing leads to it, in one go or first for a directory and then for a path
    behind its key.  So however references go on from each other, loading never knows one
    directory under two spellings of a key.

    * `Key.Canonical`, `Key.normalize_eq_self_iff` — canonical keys;
    * `Key.normalize_append_slash` — paths behind a key;
    * `Catalog.AllKeys`, `Pooled.formed_reachable` — the keys that a catalog has;
    * `keys_canonical` — normalizing, and the keys of every run. -/

namespace Buildwright

namespace Package.Key

variable {key : String}

/-! ## Canonical keys -/

/-- Whether a key has no segment that is empty or a step.  The key of the top package is empty
    and has no segments. -/
def Canonical (key : String) : Prop :=
  key = "" ∨ ∀ segment ∈ key.toList.splitOn '/',
    segment ≠ [] ∧ segment ≠ ['.'] ∧ segment ≠ ['.', '.']

theorem canonical_normalize (path : String) : Canonical (normalize path) := by
  by_cases hnil : segments path.toList = []
  · refine .inl ?_
    rw [normalize, hnil]
    rfl
  · have hnames : ∀ w ∈ segments path.toList, IsName w := isName_of_mem_segments
    refine .inr fun segment hsegment => ?_
    rw [toList_normalize, List.splitOn_intercalate _ (fun w hw => (hnames w hw).2.2) hnil]
      at hsegment
    obtain ⟨⟨hne, hdot⟩, hparent, -⟩ := hnames segment hsegment
    exact ⟨hne, hdot, hparent⟩

/-- The canonical keys are those that normalizing leaves as they are. -/
theorem normalize_eq_self_iff : normalize key = key ↔ Canonical key := by
  refine ⟨fun h => h ▸ canonical_normalize key, ?_⟩
  rintro (rfl | hsegments)
  · rfl
  · have hnames : ∀ w ∈ key.toList.splitOn '/', IsName w := fun w hw =>
      ⟨⟨(hsegments w hw).1, (hsegments w hw).2.1⟩, (hsegments w hw).2.2,
        Path.notMem_splitOn '/' _ w hw⟩
    have hsplit : ['/'].intercalate (key.toList.splitOn '/') = key.toList :=
      List.intercalate_splitOn '/'
    refine String.toList_inj.1 ?_
    rw [toList_normalize, ← hsplit, segments_intercalate hnames]

/-- A path behind a directory can be taken behind the key of the directory. -/
theorem normalize_append_slash (directory path : String) :
    normalize (normalize directory ++ "/" ++ path) = normalize (directory ++ "/" ++ path) := by
  have htext : ∀ before : String,
      (before ++ "/" ++ path).toList = before.toList ++ '/' :: path.toList := fun before => by
    rw [String.toList_append, String.toList_append, List.append_assoc]
    rfl
  refine String.toList_inj.1 ?_
  rw [toList_normalize, toList_normalize, htext, htext, segments_append_slash,
    segments_append_slash, segments_normalize]

end Package.Key

open Package.Key (Canonical Formed normalize)

/-! ## The keys of a catalog -/

namespace Catalog

variable {P : String → Prop} {c c' : Catalog} {key : String}

/-- Whether all keys of a catalog are of a kind. -/
def AllKeys (P : String → Prop) (c : Catalog) : Prop :=
  ∀ p ∈ c.packages, P p.key

theorem AllKeys.visit (h : c.AllKeys P) (hkey : P key) : (c.visit key).AllKeys P := by
  by_cases hc : c.contains key = true
  · rwa [visit_of_contains hc]
  · intro p hp
    rw [Catalog.visit, if_neg hc] at hp
    rcases mem_insertPackage.1 hp with rfl | hp
    · exact hkey
    · exact h p hp

theorem AllKeys.modify (h : c.AllKeys P) {f : Package → Package} (hf : ∀ p, (f p).key = p.key) :
    (c.modify key f).AllKeys P := by
  intro p hp
  obtain ⟨q, hq, rfl⟩ := List.mem_map.1 hp
  split
  · rw [hf]
    exact h q hq
  · exact h q hq

theorem AllKeys.begin (h : c.AllKeys P) (hkey : P key) (file : Path) :
    (c.begin key file).AllKeys P :=
  (h.visit hkey).modify fun p => by split <;> rfl

theorem AllKeys.finish (h : c.AllKeys P) (hkey : P key) : (c.finish key).AllKeys P :=
  (h.visit hkey).modify fun _ => rfl

theorem AllKeys.addRule {d : Declaration} {id : RuleId} (h : c.AllKeys P) (hkey : P key)
    (hadd : c.addRule key d = .ok (id, c')) : c'.AllKeys P := by
  rw [Catalog.addRule] at hadd
  split at hadd
  · cases hadd
  · obtain ⟨-, rfl⟩ := Prod.mk.inj (Except.ok.inj hadd)
    exact (h.visit hkey).modify fun _ => rfl

end Catalog

namespace Loading

variable {layout : Layout} {w : Workspace} {roots : List Path} {P : String → Prop}

/-- A task brings no key but its own into the catalog. -/
theorem Errand.allKeys_next {c : Shared} {task : LoadTask} (h : c.catalog.AllKeys P)
    (htask : P task.key) (errand : Errand) :
    (errand.next layout w task c).1.catalog.AllKeys P := by
  cases errand with
  | start | cancel _ | record _ => exact h
  | evaluate =>
      rw [next]
      split <;> exact h
  | visit =>
      rw [next]
      split
      · exact h
      · exact h.visit htask
  | begin =>
      rw [next]
      split
      · exact h.begin htask task.file
      · exact h
  | declare calls seen =>
      cases calls with
      | nil => exact h.finish htask
      | cons call calls =>
          rw [next]
          split
          · exact h
          · split
            · exact h
            · rename_i hadd
              exact h.addRule htask hadd
  | follow rule deps calls seen =>
      cases deps with
      | nil => exact h
      | cons raw deps =>
          rw [next]
          split <;> exact h

namespace Pooled

variable {s t : Pooled}

theorem toShared_scheduleAll (admitted : Bool) (tasks : List LoadTask) (s : Pooled) :
    (s.scheduleAll admitted tasks).toShared = s.toShared := by
  induction tasks generalizing s with
  | nil => rfl
  | cons task rest ih => exact ih (s.schedule admitted task)

/-- Every step leaves the keys of the catalog formed, if those of the tasks are. -/
theorem formed_step (htickets : ∀ ticket ∈ s.tickets, Formed ticket.task.key)
    (h : s.catalog.AllKeys Formed) (hstep : Step layout w s t) : t.catalog.AllKeys Formed := by
  cases hstep with
  | root _ _ _ | refuse _ _ | take _ _ | panic _ | stop | discard _ _ | finish _ _ _ => exact h
  | @advance front back task errand admitted hsplit =>
      have htask : Formed task.key :=
        htickets _ (hsplit ▸ List.mem_append_right _ (List.mem_cons_self ..))
      rw [toShared_scheduleAll]
      exact errand.allKeys_next h htask
  | drop hdrop =>
      cases hdrop with
      | mark _ | record _ | release _ => exact h

/-- In every run the keys of the catalog are formed. -/
theorem formed_reachable (h : Reachable layout w roots s) : s.catalog.AllKeys Formed := by
  induction h with
  | refl => exact fun p hp => absurd hp List.not_mem_nil
  | tail hrun hstep ih =>
      obtain ⟨log, hlog⟩ := exists_logged hrun
      exact formed_step (fun ticket hmem => ((tallied_logged hlog).scheduled ticket hmem).1) ih
        hstep

end Pooled

/-- **Canonical keys.** What normalizing gives has no empty segment and no step, and normalizing
    leaves exactly such keys as they are; a path behind a directory can as well be taken behind
    the key of the directory.  In every state of every run of loading, with any references from
    any root files on, all keys of the catalog are left as they are. -/
theorem keys_canonical (layout : Layout) (w : Workspace) (roots : List Path) :
    (∀ p, Canonical (normalize p)) ∧
    (∀ p, normalize (normalize p) = normalize p) ∧
    (∀ p, normalize p = p ↔ Canonical p) ∧
    (∀ p q, normalize (normalize p ++ "/" ++ q) = normalize (p ++ "/" ++ q)) ∧
    ∀ s, Pooled.Reachable layout w roots s →
      ∀ package ∈ s.catalog.packages, normalize package.key = package.key :=
  ⟨Package.Key.canonical_normalize, Package.Key.normalize_normalize,
    fun _ => Package.Key.normalize_eq_self_iff, Package.Key.normalize_append_slash,
    fun _ hs package hpackage => (Pooled.formed_reachable hs package hpackage).normalize_eq⟩

/-- What loading gives is the catalog of a run on a pool. -/
theorem exists_pooled_catalog {c : Catalog} (h : load layout w roots = .ok c) :
    ∃ s, Pooled.Reachable layout w roots s ∧ s.catalog = c := by
  obtain ⟨p, hp, -, hout⟩ := exists_run_of_load h
  obtain ⟨hnone, rfl⟩ := Progress.outcome_eq_ok_iff.1 hout
  obtain ⟨s, hs, hmatches⟩ := matches_reachable hp
  cases hmatches with
  | going _ _ hunder => exact ⟨s, hs, congrArg Shared.catalog hunder.shared⟩
  | failing hfault _ _ | refused hfault _ _ =>
      rw [hnone] at hfault
      cases hfault

/-- References that go up and down, out of the builtin tree too. -/
def winding : Workspace where
  evaluate file :=
    if file = ⟨"/proj/app/../app/BUILD"⟩ then
      .ok [libraryCall "app" ["##io//./file:file", "../lib/.:base", ":app"]]
    else if file = ⟨"/std/io/file/BUILD"⟩ then .ok [libraryCall "file" ["../../../lib:base"]]
    else if file = ⟨"/proj/lib/BUILD"⟩ then .ok [libraryCall "base" ["//x/../app/:app"]]
    else .error (.fault (.io file.text .notFound))
  expand _ _ := .ok []
  capacity := 3

/-- The packages in the order of loading. -/
def windingContents : List Contents :=
  [⟨"app", ⟨"/proj/app/../app/BUILD"⟩,
      [library "app" ["##io//./file:file", "../lib/.:base", ":app"]]⟩,
    ⟨"##io/file", ⟨"/std/io/file/BUILD"⟩, [library "file" ["../../../lib:base"]]⟩,
    ⟨"lib", ⟨"/proj/lib/BUILD"⟩, [library "base" ["//x/../app/:app"]]⟩]

theorem load_winding : load markedLayout winding [⟨"app/../app/BUILD"⟩] =
    .ok (Catalog.adoptAll {} windingContents) := by
  have happ : loadPackage markedLayout winding {} ⟨"app", ⟨"/proj/app/../app/BUILD"⟩, none⟩ =
      .ok (Catalog.adoptAll {} (windingContents.take 1),
        [⟨"##io/file", ⟨"/std/io/file/BUILD"⟩, some ⟨"app/app@DEFAULT", "##io//./file:file"⟩⟩,
          ⟨"lib", ⟨"/proj/lib/BUILD"⟩, some ⟨"app/app@DEFAULT", "../lib/.:base"⟩⟩]) := rfl
  have hfile : loadPackage markedLayout winding (Catalog.adoptAll {} (windingContents.take 1))
      ⟨"##io/file", ⟨"/std/io/file/BUILD"⟩, some ⟨"app/app@DEFAULT", "##io//./file:file"⟩⟩ =
      .ok (Catalog.adoptAll {} (windingContents.take 2),
        [⟨"lib", ⟨"/proj/lib/BUILD"⟩, some ⟨"##io/file/file@DEFAULT", "../../../lib:base"⟩⟩]) := rfl
  have hlib : loadPackage markedLayout winding (Catalog.adoptAll {} (windingContents.take 2))
      ⟨"lib", ⟨"/proj/lib/BUILD"⟩, some ⟨"app/app@DEFAULT", "../lib/.:base"⟩⟩ =
      .ok (Catalog.adoptAll {} windingContents, []) := rfl
  show run markedLayout winding 4 {} [⟨"app", ⟨"/proj/app/../app/BUILD"⟩, none⟩] = _
  rw [run_succ (by decide), happ]
  show run markedLayout winding 3 _ [_, _] = _
  rw [run_succ (by decide), hfile]
  show run markedLayout winding 2 _ [_, _] = _
  rw [run_succ (by decide), hlib]
  show run markedLayout winding 1 _ [_] = _
  rw [run_of_contains (by decide), run]

/-- Three directories that are reached along detours have one key each. -/
theorem keys_canonical_winding :
    ∃ s, Pooled.Reachable markedLayout winding [⟨"app/../app/BUILD"⟩] s ∧
      s.catalog.packages.map Package.key = ["##io/file", "app", "lib"] ∧
      ∀ package ∈ s.catalog.packages, normalize package.key = package.key := by
  obtain ⟨s, hs, hcatalog⟩ := exists_pooled_catalog load_winding
  obtain ⟨-, -, -, -, hkeys⟩ :=
    keys_canonical markedLayout winding [⟨"app/../app/BUILD"⟩]
  refine ⟨s, hs, ?_, hkeys s hs⟩
  rw [hcatalog]
  decide +kernel

end Loading

end Buildwright
