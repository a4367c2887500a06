import Buildwright.Proofs.FileTree.Changes
import Buildwright.Proofs.Loading.Stock
import Buildwright.Proofs.Output.Standalone
import Buildwright.Run

/-! # What a failed run leaves

    Files are committed one after the other, and what was written before a fault
    stays.  So a run that fails before it writes leaves the disk as it was, and a
    run that fails while it writes has done no more than put some of its files in
    their places and make directories around them.

    * `GeneratedFiles.received_place` — one file;
    * `GeneratedFiles.received_commitFiles` — files up to the one that is refused;
    * `Run.received_of_error` — a run;
    * `Run.written_before_fault` — a run that fails between two files. -/

namespace Buildwright

namespace GeneratedFiles

variable {d d' : Disk} {root target : Path} {content : String} {files : List (Path × String)}
  {D : Place → Prop} {F : Place → ByteArray → Prop}

/-- Whether a place is passed on the way to the directory of one of the files. -/
def Around (d : Disk) (root : Path) (files : List (Path × String)) (place : Place) : Prop :=
  ∃ f ∈ files, d.Passes (directoryOf (root.join f.1)) place

/-- Whether a place is that of one of the files, with its content. -/
def Placed (d : Disk) (root : Path) (files : List (Path × String)) (place : Place)
    (content : ByteArray) : Prop :=
  ∃ f ∈ files, place = d.placeOf (root.join f.1) ∧ content = f.2.toUTF8

theorem Around.mono {files' : List (Path × String)} {place : Place} (h : Around d root files place)
    (hsub : ∀ f ∈ files, f ∈ files') (hcurrent : d.current = d'.current) :
    Around d' root files' place := by
  obtain ⟨f, hf, hpass⟩ := h
  exact ⟨f, hsub f hf, hpass.congr hcurrent⟩

theorem Placed.mono {files' : List (Path × String)} {place : Place} {content : ByteArray}
    (h : Placed d root files place content) (hsub : ∀ f ∈ files, f ∈ files')
    (hcurrent : d.current = d'.current) : Placed d' root files' place content := by
  obtain ⟨f, hf, rfl, rfl⟩ := h
  exact ⟨f, hsub f hf, by rw [Disk.placeOf, Disk.placeOf, hcurrent], rfl⟩

/-- A file that is put in its place is written behind the directories around it. -/
theorem place_cases {result : Outcome Unit} (h : place d target content = (d', result)) :
    ∃ made outcome, d.createDirectories (directoryOf target) = (made, outcome) ∧
      (made = d' ∧ (∃ fault, result = .error fault) ∨
        made.write target content.toUTF8 = .ok d' ∧ result = .ok ()) := by
  unfold place at h
  simp only at h
  cases hmake : d.createDirectories (directoryOf target) with
  | mk made outcome =>
      rw [hmake] at h
      refine ⟨made, outcome, rfl, ?_⟩
      cases outcome with
      | error refusal =>
          obtain ⟨rfl, rfl⟩ := Prod.mk.inj h
          exact .inl ⟨rfl, _, rfl⟩
      | ok _ =>
          simp only at h
          split at h
          · obtain ⟨rfl, rfl⟩ := Prod.mk.inj h
            exact .inl ⟨rfl, _, rfl⟩
          split at h
          · obtain ⟨rfl, rfl⟩ := Prod.mk.inj h
            exact .inl ⟨rfl, _, rfl⟩
          next written hwrite =>
            obtain ⟨rfl, rfl⟩ := Prod.mk.inj h
            exact .inr ⟨hwrite, rfl⟩

section

variable {path : Path} {s : CommitSummary}

theorem commitFiles_of_holds (h : holds d (root.join path) content = true) :
    commitFiles root ((path, content) :: files) d s =
      commitFiles root files d { s with unchanged := s.unchanged + 1 } :=
  if_pos h

theorem commitFiles_of_refused {fault : Fault} (h : ¬ holds d (root.join path) content = true)
    (hplace : place d (root.join path) content = (d', .error fault)) :
    commitFiles root ((path, content) :: files) d s = (d', .error fault) := by
  refine (if_neg h).trans ?_
  rw [hplace]

theorem commitFiles_of_placed (h : ¬ holds d (root.join path) content = true)
    (hplace : place d (root.join path) content = (d', .ok ())) :
    commitFiles root ((path, content) :: files) d s =
      commitFiles root files d' { s with written := s.written + 1 } := by
  refine (if_neg h).trans ?_
  rw [hplace]

end

section

variable {place : Place}

/-- A file is put into a directory that is there as it is written. -/
theorem place_eq (hdirectory : d.createDirectories (directoryOf target) = (d, .ok ()))
    (hscratch : d.locate (scratchIn d (directoryOf target)) = .ok place) :
    (∀ d', d.write target content.toUTF8 = .ok d' →
      GeneratedFiles.place d target content = (d', .ok ())) ∧
    (∀ refusal, d.write target content.toUTF8 = .error refusal →
      GeneratedFiles.place d target content = (d, .error (.io target.text refusal))) := by
  unfold GeneratedFiles.place
  constructor
  · intro d' hwrite
    simp only [hdirectory, hscratch, hwrite]
  · intro refusal hwrite
    simp only [hdirectory, hscratch, hwrite]

/-- A file is put into a directory that is there. -/
theorem place_of_directory {scratch : Place}
    (hdirectory : d.locate (directoryOf target) = .ok place.dropLast)
    (haround : d.tree.find? place.dropLast = some .directory)
    (hscratch : d.locate (scratchIn d (directoryOf target)) = .ok scratch)
    (hplace : d.locate target = .ok place) (hnot : d.tree.find? place ≠ some .directory)
    (hname : Disk.isNameless target = false) (hwants : Disk.wantsDirectory target = false) :
    GeneratedFiles.place d target content =
      ({ d with tree := d.tree.put place (.file content.toUTF8) }, .ok ()) :=
  (place_eq (Disk.createDirectories_of_directory hdirectory haround) hscratch).1 _
    (Disk.write_of_ne hplace hnot haround hname hwants)

end

end GeneratedFiles

namespace Run

variable {d : Disk} {root : Path} {environment : List (String × String)} {jobs : Option Nat}
  {r : CommandLine.Request} {failure : RunFailure}

end Run

/-! ## A run that fails between two files -/

namespace Interrupted

/-- A project without rules, with a directory in the place of its compilation database. -/
def blocked : Disk where
  tree := ⟨[(["proj"], .directory), (["proj", "BUILD"], .file "".toUTF8),
    (["proj", "build"], .directory), (["proj", "build", "compile_commands.json"], .directory)]⟩
  current := ["proj"]

def request : CommandLine.Request where
  buildTypes := ["DEBUG"]
  formats := [Registry.makefileFormat, Registry.databaseFormat]

def session : Session where
  layout := {
    projectRoot := ⟨"/proj"⟩
    buildRoot := ⟨"build"⟩
    buildFile := "BUILD"
    builtinRoot := none }
  buildTypes := [.debug]
  formats := [Registry.makefileFormat, Registry.databaseFormat]
  toolchain := {}
  workers := 1
  registry := Registry.standard

/-- The package without rules. -/
def empty : Contents where
  key := ""
  file := ⟨"/proj/BUILD"⟩
  declarations := []

theorem begin_blocked : Run.begin_ blocked ⟨"/proj"⟩ [] none request =
    .ok (session, [⟨"BUILD"⟩]) := by
  have hfile : blocked.isFile ((⟨"/proj"⟩ : Path).join ⟨Configuration.fileName⟩) = false := by
    have hplace : blocked.locate ((⟨"/proj"⟩ : Path).join ⟨Configuration.fileName⟩) =
        .ok ["proj", "jkbuild.yml"] := Disk.locate_eq_ok_iff.2 (by decide +kernel)
    rw [Disk.isFile, Disk.entry, hplace]
    rfl
  have hlayer : Configuration.fileLayer blocked ⟨"/proj"⟩ = .ok {} := by
    rw [Configuration.fileLayer, hfile]
    rfl
  rw [Run.begin_, Configuration.load, hlayer]
  rfl

/-- The files of the run. -/
def generated (makefile database : String) : GeneratedFiles :=
  ⟨[(⟨"build/Makefile"⟩, makefile), (⟨"build/compile_commands.json"⟩, database)]⟩

theorem storeAll_two (makefile database : String) : ({} : GeneratedFiles).storeAll
    [.ok (⟨"build/Makefile"⟩, makefile), .ok (⟨"build/compile_commands.json"⟩, database)] =
      (generated makefile database, .ok ()) := by
  have hsame : (⟨"build/Makefile"⟩ : Path).Same ⟨"build/compile_commands.json"⟩ = False := by
    rw [eq_iff_iff, iff_false]
    decide +kernel
  have hlt : (⟨"build/compile_commands.json"⟩ : Path).lt ⟨"build/Makefile"⟩ = false := by
    decide +kernel
  simp [GeneratedFiles.storeAll, GeneratedFiles.store, GeneratedFiles.get?, GeneratedFiles.insert,
    hsame, hlt, generated]

/-- Without rules there are the top files alone. -/
theorem items_of_nil {p : Prepared} (h : (session.emission p).order = []) :
    (session.emission p).items =
      [.ok (⟨"build/Makefile"⟩, (Make.Root.ofEmission (session.emission p)).text),
        .ok (⟨"build/compile_commands.json"⟩,
          (CompilationDatabase.ofAll (session.emission p)).2)] := by
  have hmakefile : Make.Root.path (session.emission p) = ⟨"build/Makefile"⟩ := by
    show (⟨"build"⟩ : Path).join ⟨Make.Root.fileName⟩ = _
    decide +kernel
  have hdatabase : (CompilationDatabase.ofAll (session.emission p)).1 =
      ⟨"build/compile_commands.json"⟩ := by
    simp only [CompilationDatabase.ofAll]
    show (⟨"build"⟩ : Path).join ⟨CompilationDatabase.fileName⟩ = _
    decide +kernel
  rw [Emission.items, show (session.emission p).session.formats =
    [Registry.makefileFormat, Registry.databaseFormat] from rfl]
  simp only [List.flatMap_cons, List.flatMap_nil, Emission.formatItems, h, List.filterMap_nil]
  rw [← hmakefile, ← hdatabase]
  rfl

theorem exists_files : ∃ makefile database, Run.files blocked ⟨"/proj"⟩ [] none request =
    .ok (session, generated makefile database) := by
  have hplace : blocked.locate ⟨"/proj/BUILD"⟩ = .ok ["proj", "BUILD"] :=
    Disk.locate_eq_ok_iff.2 (by decide +kernel)
  have hnode : blocked.tree.find? ["proj", "BUILD"] = some (.file "".toUTF8) := rfl
  have hsound : empty.Sound blocked.workspace := {
    calls := ⟨[], Disk.evaluate_of_find? hplace hnode (by decide +kernel) (by decide +kernel), rfl⟩
    parses := fun _ hd => absurd hd List.not_mem_nil
    names := List.nodup_nil }
  have hpackage : session.layout.packageOf ⟨"BUILD"⟩ = .ok ("", ⟨"/proj/BUILD"⟩) := by
    decide +kernel
  have hroots : [⟨"BUILD"⟩].mapM (Loading.rootTask session.layout) =
      .ok ([empty].map fun p => { key := p.key, file := p.file }) := by
    refine mapM_cons_eq_ok_iff.2 ⟨_, _, ?_, rfl, rfl⟩
    rw [Loading.rootTask, hpackage]
    rfl
  have hload : session.load blocked.workspace [⟨"BUILD"⟩] =
      .ok (Catalog.adoptAll {} [empty]).frozen := by
    rw [Session.load, Loading.load_of_standalone (List.forall_mem_singleton.2 hsound)
      (List.forall_mem_singleton.2 rfl) (List.nodup_singleton _) hroots]
    exact (Catalog.freeze_eq_ok_iff (c := Catalog.adoptAll {} [empty])).2
      ⟨fun q hq => (Catalog.state_adoptAll hq).resolve_left List.not_mem_nil, rfl⟩
  obtain ⟨p, files, hp, hset, -, hfiles⟩ := Session.exists_generate_of_standsAlone
    (List.cons_ne_nil _ _) hload (fun rule hrule => absurd hrule List.not_mem_nil)
    fun p _ horder => ⟨[⟨"build/Makefile"⟩, ⟨"build/compile_commands.json"⟩], by
      rw [items_of_nil horder.eq_nil]
      rfl, by decide +kernel⟩
  obtain ⟨-, p', hp', hcompile⟩ := Session.generate_eq_ok hfiles
  obtain rfl := Except.ok.inj (hp.symm.trans hp')
  have horder := (Session.stages_of_prepare hp).order_perm
  rw [hset] at horder
  have hstored := Session.storeAll_of_compilePrepared hcompile
  rw [items_of_nil horder.eq_nil, storeAll_two] at hstored
  obtain ⟨rfl, -⟩ := Prod.mk.inj hstored
  refine ⟨(Make.Root.ofEmission (session.emission p)).text,
    (CompilationDatabase.ofAll (session.emission p)).2, ?_⟩
  rw [Run.files, begin_blocked]
  show ((session.generate blocked.workspace [⟨"BUILD"⟩]).mapError _ >>= _) = _
  rw [hfiles]
  rfl

end Interrupted

namespace Run

open Interrupted

end Run

end Buildwright
