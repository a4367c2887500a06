import Buildwright.Proofs.FileTree.Kept
import Buildwright.Proofs.Output.Commit

/-! # What a commit leaves

    A commit passes over the files that are as they should be and puts the other
    ones in their places.  Where the files have places of their own, putting one
    file in its place does not disturb what can be read of another: so in the end
    all files hold their contents, and there is nothing left to do.

    * `GeneratedFiles.Commits` — the course of a commit that succeeds;
    * `GeneratedFiles.Delivered` — what one file leaves;
    * `GeneratedFiles.Separate` — files with places of their own;
    * `GeneratedFiles.commit_faithful` — what a commit leaves;
    * `GeneratedFiles.commit_not_faithful` — files that share a place, and a root
      whose `..` leaves a directory that is not there. -/

namespace Buildwright

namespace GeneratedFiles

variable {d d' d₁ : Disk} {root target : Path} {content : String} {files : List (Path × String)}
  {s s' : CommitSummary} {written unchanged : Nat}

/-! ## The course of a commit -/

theorem holds_iff : holds d target content = true ↔ d.read target = .ok content.toUTF8 := by
  rw [holds]
  cases d.read target with
  | error refusal => simp
  | ok bytes =>
      obtain ⟨data⟩ := bytes
      simp only [decide_eq_true_eq, Except.ok.injEq, ByteArray.ext_iff]

/-- Whether a file is as it should be. -/
def isHeld (d : Disk) (root : Path) (f : Path × String) : Bool :=
  holds d (root.join f.1) f.2

theorem isHeld_iff {f : Path × String} :
    isHeld d root f = true ↔ d.read (root.join f.1) = .ok f.2.toUTF8 :=
  holds_iff

/-- A commit that succeeds, with the number of files that it writes and of those that it passes
    over. -/
inductive Commits (root : Path) : List (Path × String) → Disk → Disk → Nat → Nat → Prop
  | nil {d : Disk} : Commits root [] d d 0 0
  | held {f : Path × String} {files : List (Path × String)} {d d' : Disk} {written unchanged : Nat}
      (hheld : isHeld d root f = true)
      (hrest : Commits root files d d' written unchanged) :
      Commits root (f :: files) d d' written (unchanged + 1)
  | placed {f : Path × String} {files : List (Path × String)} {d d₁ d' : Disk}
      {written unchanged : Nat} (hheld : ¬ isHeld d root f = true)
      (hplace : place d (root.join f.1) f.2 = (d₁, .ok ()))
      (hrest : Commits root files d₁ d' written unchanged) :
      Commits root (f :: files) d d' (written + 1) unchanged

theorem Commits.commitFiles_eq (h : Commits root files d d' written unchanged)
    (s : CommitSummary) : commitFiles root files d s =
      (d', .ok ⟨s.written + written, s.unchanged + unchanged⟩) := by
  induction h generalizing s with
  | nil => rfl
  | held hheld _ ih =>
      rw [commitFiles_of_holds hheld, ih, Nat.add_assoc, Nat.add_comm 1]
  | placed hheld hplace _ ih =>
      rw [commitFiles_of_placed hheld hplace, ih, Nat.add_assoc, Nat.add_comm 1]

theorem exists_commits (h : commitFiles root files d s = (d', .ok s')) :
    ∃ written unchanged, Commits root files d d' written unchanged ∧
      s' = ⟨s.written + written, s.unchanged + unchanged⟩ := by
  induction files generalizing d s with
  | nil =>
      obtain ⟨rfl, hs⟩ := Prod.mk.inj h
      exact ⟨0, 0, .nil, (Except.ok.inj hs).symm⟩
  | cons f files ih =>
      by_cases hheld : isHeld d root f = true
      · rw [commitFiles_of_holds hheld] at h
        obtain ⟨written, unchanged, hrest, rfl⟩ := ih h
        exact ⟨written, unchanged + 1, .held hheld hrest, by rw [Nat.add_assoc, Nat.add_comm 1]⟩
      · cases hplace : place d (root.join f.1) f.2 with
        | mk d₁ outcome =>
            cases outcome with
            | error fault =>
                rw [commitFiles_of_refused hheld hplace] at h
                cases (Prod.mk.inj h).2
            | ok _ =>
                rw [commitFiles_of_placed hheld hplace] at h
                obtain ⟨written, unchanged, hrest, rfl⟩ := ih h
                exact ⟨written + 1, unchanged, .placed hheld hplace hrest,
                  by rw [Nat.add_assoc, Nat.add_comm 1]⟩

theorem commit_eq_ok_iff {g : GeneratedFiles} : g.commit root d = (d', .ok s) ↔
    Commits root g.files d d' s.written s.unchanged := by
  constructor
  · intro h
    obtain ⟨written, unchanged, hcommits, rfl⟩ := exists_commits h
    simpa using hcommits
  · intro h
    rw [commit, h.commitFiles_eq]
    simp

/-- Every file is written or passed over. -/
theorem Commits.length (h : Commits root files d d' written unchanged) :
    written + unchanged = files.length := by
  induction h with
  | nil => rfl
  | held _ _ ih => rw [List.length_cons, ← ih, Nat.add_assoc]
  | placed _ _ _ ih => rw [List.length_cons, ← ih, Nat.add_right_comm]

/-- Files that are as they should be are passed over. -/
theorem commits_of_holds (h : ∀ f ∈ files, isHeld d root f = true) :
    Commits root files d d 0 files.length := by
  induction files with
  | nil => exact .nil
  | cons f files ih =>
      obtain ⟨hf, hfiles⟩ := List.forall_mem_cons.1 h
      exact .held hf (ih hfiles)

/-! ## One file -/

/-- What is true of a disk `d'` that a file has been put in its place on. -/
structure Delivered (d : Disk) (target : Path) (content : String) (d' : Disk) : Prop where
  current : d'.current = d.current
  /-- The file can be read. -/
  read : d'.read target = .ok content.toUTF8
  /-- Directories stay. -/
  grows : d.tree.Grows d'.tree
  /-- Other files stay, and there is no new one. -/
  others : ∀ q, q ≠ d.placeOf target → ∀ bytes,
    d'.tree.find? q = some (.file bytes) ↔ d.tree.find? q = some (.file bytes)
  /-- The tree stays one. -/
  rooted : d.tree.Rooted → d'.tree.Rooted

theorem delivered_of_write (h : d.write target content.toUTF8 = .ok d') :
    Delivered d target content d' := by
  obtain ⟨hplace, hwants, hnot, haround, rfl⟩ := Disk.write_eq_ok h
  have hne : d.placeOf target ≠ [] := fun heq => hnot (by rw [heq]; rfl)
  have hgrows : d.tree.Grows (d.tree.put (d.placeOf target) (.file content.toUTF8)) :=
    .put _ hnot
  exact {
    current := rfl
    read := Disk.read_eq_ok_iff.2
      ⟨Disk.locate_of_grows hgrows rfl hplace, FileTree.find?_put_self _ _ hne, hwants⟩
    grows := hgrows
    others := fun q hq bytes => by rw [FileTree.find?_put_of_ne _ _ hq]
    rooted := fun hrooted => hrooted.put _ haround hnot }

/-- Directories that are created before do not count. -/
theorem Delivered.of_made {D : Place → Prop} (h : Delivered d₁ target content d')
    (hmade : Disk.Made D d d₁) : Delivered d target content d' where
  current := h.current.trans hmade.current
  read := h.read
  grows := hmade.grows.trans h.grows
  others := fun q hq bytes =>
    (h.others q (by rwa [Disk.placeOf_congr hmade.current]) bytes).trans hmade.find?_file_iff
  rooted := fun hrooted => h.rooted (hmade.rooted hrooted)

theorem delivered_of_place (h : place d target content = (d', .ok ())) :
    Delivered d target content d' := by
  obtain ⟨made, outcome, hmake, ⟨-, fault, herr⟩ | ⟨hwrite, -⟩⟩ := place_cases h
  · cases herr
  · exact (delivered_of_write hwrite).of_made (Disk.made_createDirectories hmake)

variable {f f' : Path × String}

/-- What can be read of another file can still be read. -/
theorem Delivered.read_of_ne {q : Path} {bytes : ByteArray} (h : Delivered d target content d')
    (hne : d.placeOf q ≠ d.placeOf target) (hread : d.read q = .ok bytes) :
    d'.read q = .ok bytes :=
  Disk.read_of_grows h.grows h.current (h.others _ hne bytes).2 hread

/-! ## Files with places of their own -/

/-- Files whose paths are relative and do not step up, and no two of which lead along the same
    names. -/
structure Separate (files : List (Path × String)) : Prop where
  relative : ∀ f ∈ files, f.1.isAbsolute = false
  descends : ∀ f ∈ files, Component.parent ∉ f.1.components
  names : (files.map fun f => f.1.steps).Nodup

instance (files : List (Path × String)) : Decidable (Separate files) :=
  decidable_of_iff ((∀ f ∈ files, f.1.isAbsolute = false) ∧
      (∀ f ∈ files, Component.parent ∉ f.1.components) ∧ (files.map fun f => f.1.steps).Nodup)
    ⟨fun h => ⟨h.1, h.2.1, h.2.2⟩, fun h => ⟨h.relative, h.descends, h.names⟩⟩

namespace Separate

theorem tail (h : Separate (f :: files)) : Separate files where
  relative := (List.forall_mem_cons.1 h.relative).2
  descends := (List.forall_mem_cons.1 h.descends).2
  names := (List.nodup_cons.1 h.names).2

/-- A file lies behind the root, along the names of its path. -/
theorem placeOf_join (h : Separate files) (hf : f ∈ files) (d : Disk) (root : Path) :
    d.placeOf (root.join f.1) = d.placeOf root ++ f.1.steps := by
  have hsteps := Path.steps_join root (h.relative f hf)
  have habsolute : (root.join f.1).isAbsolute = root.isAbsolute := by
    rw [Path.isAbsolute_join, h.relative f hf, Bool.false_or]
  have hup : ∀ name ∈ f.1.steps, name ≠ ".." := fun name hname heq =>
    Path.dots_notMem_steps (h.descends f hf) (heq ▸ hname)
  rw [Disk.placeOf_of_append hsteps habsolute, Disk.follow_of_ne hup]

/-- The first file lies elsewhere than the other ones. -/
theorem placeOf_ne (h : Separate (f :: files)) (hf : f' ∈ files) (d : Disk) (root : Path) :
    d.placeOf (root.join f'.1) ≠ d.placeOf (root.join f.1) := by
  rw [h.tail.placeOf_join hf, h.placeOf_join (List.mem_cons_self ..), Ne,
    List.append_right_inj]
  intro heq
  exact (List.nodup_cons.1 h.names).1 (List.mem_map.2 ⟨f', hf, heq⟩)

theorem grounded (h : Separate files) (hroot : d.Grounded root) (hf : f ∈ files) :
    d.Grounded (root.join f.1) :=
  hroot.join (h.relative f hf) (Path.dots_notMem_steps (h.descends f hf))

end Separate

/-! ## All files -/

namespace Commits

theorem current (h : Commits root files d d' written unchanged) : d'.current = d.current := by
  induction h with
  | nil => rfl
  | held _ _ ih => exact ih
  | placed _ hplace _ ih => exact ih.trans (delivered_of_place hplace).current

theorem grows (h : Commits root files d d' written unchanged) : d.tree.Grows d'.tree := by
  induction h with
  | nil => exact .refl _
  | held _ _ ih => exact ih
  | placed _ hplace _ ih => exact (delivered_of_place hplace).grows.trans ih

/-- A commit leaves a tree. -/
theorem rooted (h : Commits root files d d' written unchanged) (hrooted : d.tree.Rooted) :
    d'.tree.Rooted := by
  induction h with
  | nil => exact hrooted
  | held _ _ ih => exact ih hrooted
  | placed _ hplace _ ih => exact ih ((delivered_of_place hplace).rooted hrooted)

/-- Files at other places are as before. -/
theorem others (h : Commits root files d d' written unchanged) {q : Place} {bytes : ByteArray}
    (hq : ∀ f ∈ files, q ≠ d.placeOf (root.join f.1)) :
    d'.tree.find? q = some (.file bytes) ↔ d.tree.find? q = some (.file bytes) := by
  induction h with
  | nil => exact Iff.rfl
  | held _ _ ih => exact ih (List.forall_mem_cons.1 hq).2
  | placed _ hplace _ ih =>
      have hfirst := delivered_of_place hplace
      obtain ⟨hne, hrest⟩ := List.forall_mem_cons.1 hq
      exact (ih fun f hf => by rw [Disk.placeOf_congr hfirst.current]; exact hrest f hf).trans
        (hfirst.others q hne bytes)

/-- What can be read of the first file is left as it is by the other ones. -/
theorem kept (h : Commits root files d d' written unchanged) (hfiles : Separate (f :: files))
    (hread : d.read (root.join f.1) = .ok f.2.toUTF8) :
    d'.read (root.join f.1) = .ok f.2.toUTF8 := by
  refine Disk.read_of_grows h.grows h.current (h.others fun f' hf' => ?_).2 hread
  exact (hfiles.placeOf_ne hf' d root).symm

/-- Every file can be read. -/
theorem read (h : Commits root files d d' written unchanged) (hfiles : Separate files) :
    ∀ f ∈ files, d'.read (root.join f.1) = .ok f.2.toUTF8 := by
  induction h with
  | nil => exact List.forall_mem_nil _
  | held hheld hrest ih =>
      exact List.forall_mem_cons.2 ⟨hrest.kept hfiles (isHeld_iff.1 hheld), ih hfiles.tail⟩
  | placed _ hplace hrest ih =>
      exact List.forall_mem_cons.2
        ⟨hrest.kept hfiles (delivered_of_place hplace).read, ih hfiles.tail⟩

/-- Files that are as they should be can be left out. -/
theorem skip (h : Commits root files d d' written unchanged) (hfiles : Separate files)
    {P : Path × String → Bool} (hP : ∀ f ∈ files, P f = true → isHeld d root f = true) :
    ∃ late, Commits root (files.filter fun f => !P f) d d' written late ∧
      unchanged = files.countP P + late := by
  induction h with
  | nil => exact ⟨0, .nil, rfl⟩
  | @held f files d d' written unchanged hheld hrest ih =>
      obtain ⟨-, hrestP⟩ := List.forall_mem_cons.1 hP
      obtain ⟨late, hcommits, rfl⟩ := ih hfiles.tail hrestP
      by_cases hf : P f = true
      · rw [List.filter_cons_of_neg (by simp [hf]), List.countP_cons_of_pos hf]
        exact ⟨late, hcommits, by rw [Nat.add_right_comm]⟩
      · rw [List.filter_cons_of_pos (by simp [hf]), List.countP_cons_of_neg hf]
        exact ⟨late + 1, .held hheld hcommits, by rw [Nat.add_assoc]⟩
  | @placed f files d d₁ d' written unchanged hheld hplace hrest ih =>
      obtain ⟨hfirstP, hrestP⟩ := List.forall_mem_cons.1 hP
      have hfirst := delivered_of_place hplace
      obtain ⟨late, hcommits, rfl⟩ := ih hfiles.tail fun f' hf' hP' => isHeld_iff.2
        (hfirst.read_of_ne (hfiles.placeOf_ne hf' d root) (isHeld_iff.1 (hrestP f' hf' hP')))
      have hf : ¬ P f = true := fun hf => hheld (hfirstP hf)
      rw [List.filter_cons_of_pos (by simp [hf]), List.countP_cons_of_neg hf]
      exact ⟨late, .placed hheld hplace hcommits, rfl⟩

/-- Nothing but the files that are as they should be is passed over. -/
theorem unchanged_eq (h : Commits root files d d' written unchanged) (hfiles : Separate files)
    (hrooted : d.tree.Rooted) (hroot : d.Grounded root) :
    unchanged = files.countP (isHeld d root) := by
  induction h with
  | nil => rfl
  | held hheld _ ih =>
      rw [List.countP_cons_of_pos hheld, ih hfiles.tail hrooted hroot]
  | @placed f files d d₁ d' written unchanged hheld hplace hrest ih =>
      have hfirst := delivered_of_place hplace
      rw [List.countP_cons_of_neg hheld, ih hfiles.tail (hfirst.rooted hrooted)
        (hroot.grows hfirst.grows hfirst.current)]
      -- the other files are as they should be before as well as after
      refine List.countP_congr fun f' hf' => ?_
      have hne := hfiles.placeOf_ne hf' d root
      rw [isHeld_iff, isHeld_iff]
      exact ⟨Disk.read_of_rooted hrooted (hfiles.tail.grounded hroot hf') hfirst.current
        (hfirst.others _ hne _).1, hfirst.read_of_ne hne⟩

end Commits

/-- What a commit leaves that succeeds. -/
structure Faithful (g : GeneratedFiles) (root : Path) (d d' : Disk) (s : CommitSummary) : Prop where
  /-- Every file holds its content. -/
  contents : ∀ f ∈ g.files, d'.read (root.join f.1) = .ok f.2.toUTF8
  /-- Every other file is as before. -/
  others : ∀ q, (∀ f ∈ g.files, q ≠ d.placeOf (root.join f.1)) → ∀ bytes,
    d'.tree.find? q = some (.file bytes) ↔ d.tree.find? q = some (.file bytes)
  /-- Every file is counted. -/
  total : s.written + s.unchanged = g.files.length
  /-- The files that were as they should be are not written: without them the same is written,
      and as much. -/
  skipped : ∃ late,
    (⟨g.files.filter fun f => !isHeld d root f⟩ : GeneratedFiles).commit root d =
      (d', .ok ⟨s.written, late⟩) ∧
    s.unchanged = g.files.countP (isHeld d root) + late
  /-- Those that were as they should be are counted, unless a `..` of the root was in the way. -/
  unchanged : d.Grounded root →
    s.unchanged = g.files.countP (isHeld d root)
  /-- Committed again, nothing is written and nothing changes. -/
  again : g.commit root d' = (d', .ok { written := 0, unchanged := g.files.length })

/-- **A commit that succeeds.** Files with places of their own hold their contents, and nothing
    but them has been touched. -/
theorem commit_faithful {g : GeneratedFiles} (hfiles : Separate g.files) (hd : d.tree.Rooted)
    (h : g.commit root d = (d', .ok s)) : Faithful g root d d' s := by
  have hcommits := commit_eq_ok_iff.1 h
  have hcontents := hcommits.read hfiles
  obtain ⟨late, hskip, hunchanged⟩ := hcommits.skip hfiles fun _ _ hf => hf
  exact {
    contents := hcontents
    others := fun _ hq _ => hcommits.others hq
    total := hcommits.length
    skipped := ⟨late, commit_eq_ok_iff.2 hskip, hunchanged⟩
    unchanged := hcommits.unchanged_eq hfiles hd
    again := commit_eq_ok_iff.2 (commits_of_holds fun f hf => isHeld_iff.2 (hcontents f hf)) }

end GeneratedFiles

/-! ## Two files in a directory -/

namespace TwoFiles

open GeneratedFiles

/-- A directory with two files. -/
def disk : Disk where
  tree := ⟨[(["out"], .directory), (["out", "a"], .file "x".toUTF8),
    (["out", "b"], .file "y".toUTF8)]⟩
  current := ["out"]

theorem rooted_disk : disk.tree.Rooted :=
  FileTree.rooted_of_nodes (by decide)

/-- What can be read where a path leads to a file of the directory. -/
theorem read_out {d : Disk} {p : Path} {bytes : ByteArray} (name : String)
    (hplace : d.locate p = .ok ["out", name])
    (hnode : d.tree.find? ["out", name] = some (.file bytes))
    (hwants : Disk.wantsDirectory p = false) : d.read p = .ok bytes := by
  have heq := Disk.locate_eq_ok hplace
  rw [heq] at hplace hnode
  exact Disk.read_eq_ok_iff.2 ⟨hplace, hnode, hwants⟩

/-- The disk with another content of a file. -/
def rewritten (name content : String) : Disk :=
  { disk with tree := disk.tree.put ["out", name] (.file content.toUTF8) }

/-- A commit that passes over its first file and replaces the second one. -/
theorem commit_of_held {first second : Path} {name : String} {old : ByteArray}
    (hfirst : disk.read ((⟨"/out"⟩ : Path).join first) = .ok "x".toUTF8)
    (hsecond : disk.locate ((⟨"/out"⟩ : Path).join second) = .ok ["out", name])
    (hold : disk.tree.find? ["out", name] = some (.file old)) (hne : old ≠ "z".toUTF8)
    (hdirectory : directoryOf ((⟨"/out"⟩ : Path).join second) = ⟨"/out"⟩)
    (hname : Disk.isNameless ((⟨"/out"⟩ : Path).join second) = false)
    (hwants : Disk.wantsDirectory ((⟨"/out"⟩ : Path).join second) = false) :
    (⟨[(first, "x"), (second, "z")]⟩ : GeneratedFiles).commit ⟨"/out"⟩ disk =
      (rewritten name "z", .ok ⟨1, 1⟩) := by
  have hstale : ¬ isHeld disk ⟨"/out"⟩ (second, "z") = true := by
    rw [isHeld_iff, read_out name hsecond hold hwants]
    exact fun h => hne (Except.ok.inj h)
  have hout : disk.locate (directoryOf ((⟨"/out"⟩ : Path).join second)) = .ok ["out"] := by
    rw [hdirectory]
    exact Disk.locate_eq_ok_iff.2 (by decide +kernel)
  have hscratch : disk.locate (scratchIn disk (directoryOf ((⟨"/out"⟩ : Path).join second))) =
      .ok ["out", ".tmpABCDEF"] := by
    rw [hdirectory]
    exact Disk.locate_eq_ok_iff.2 (by decide +kernel)
  have hplace : place disk ((⟨"/out"⟩ : Path).join second) "z" = (rewritten name "z", .ok ()) :=
    place_of_directory hout rfl hscratch hsecond (by rw [hold]; simp) hname hwants
  exact commit_eq_ok_iff.2 (.held (isHeld_iff.2 hfirst) (.placed hstale hplace .nil))

/-- The first file as it is and the second one with another content. -/
def changed : GeneratedFiles :=
  ⟨[(⟨"a"⟩, "x"), (⟨"b"⟩, "z")]⟩

theorem commit_changed : changed.commit ⟨"/out"⟩ disk = (rewritten "b" "z", .ok ⟨1, 1⟩) :=
  commit_of_held
    (read_out "a" (Disk.locate_eq_ok_iff.2 (by decide +kernel)) rfl (by decide +kernel))
    (Disk.locate_eq_ok_iff.2 (by decide +kernel)) rfl (by decide +kernel) (by decide +kernel)
    (by decide +kernel) (by decide +kernel)

/-- One path in two spellings. -/
def spellings : GeneratedFiles :=
  ⟨[(⟨"./a"⟩, "x"), (⟨"a"⟩, "z")]⟩

theorem commit_spellings : spellings.commit ⟨"/out"⟩ disk = (rewritten "a" "z", .ok ⟨1, 1⟩) :=
  commit_of_held
    (read_out "a" (Disk.locate_eq_ok_iff.2 (by decide +kernel)) rfl (by decide +kernel))
    (Disk.locate_eq_ok_iff.2 (by decide +kernel)) rfl (by decide +kernel) (by decide +kernel)
    (by decide +kernel) (by decide +kernel)

/-- Both files as they are. -/
def kept : GeneratedFiles :=
  ⟨[(⟨"a"⟩, "x"), (⟨"b"⟩, "y")]⟩

/-- The disk with the directory that a root leaves by `..`. -/
def entered : Disk :=
  { disk with tree := disk.tree.put ["out", "gone"] .directory }

theorem locate_gone : disk.locate ⟨"gone/.."⟩ = .error .notFound := by
  rw [Disk.locate_eq_walk (by decide +kernel) (by decide +kernel) (by decide +kernel)]
  decide +kernel

theorem createDirectories_gone : disk.createDirectories ⟨"gone/.."⟩ = (entered, .ok ()) := by
  have hlength : (⟨"gone/.."⟩ : Path).components.length = 2 := by decide +kernel
  have hparent : (⟨"gone/.."⟩ : Path).parent? = some ⟨"gone"⟩ := by decide +kernel
  have hnone : disk.ensureDirectory ⟨"gone/.."⟩ = .error .notFound := by
    simp only [Disk.ensureDirectory, Disk.createDirectory, Disk.isDirectory, Disk.entry,
      locate_gone, bind, Except.bind, Bool.false_eq_true, if_false]
  have hgone : disk.locate ⟨"gone"⟩ = .ok ["out", "gone"] :=
    Disk.locate_eq_ok_iff.2 (by decide +kernel)
  have hmake : disk.ensureDirectory ⟨"gone"⟩ = .ok entered := by
    simp only [Disk.ensureDirectory, Disk.createDirectory, hgone, bind, Except.bind]
    rfl
  have haround : Disk.createDirectoriesUpTo 2 disk ⟨"gone"⟩ = (entered, .ok ()) := by
    rw [Disk.createDirectoriesUpTo, hmake]
    rfl
  have hthere : entered.ensureDirectory ⟨"gone/.."⟩ = .ok entered :=
    Disk.ensureDirectory_of_directory (Disk.locate_eq_ok_iff.2 (by decide +kernel))
      (show entered.tree.find? ["out"] = _ by decide)
  rw [Disk.createDirectories, hlength, Disk.createDirectoriesUpTo, hnone, hparent,
    if_neg (by decide)]
  simp only [haround, hthere]
  rfl

/-- The disk with that directory and the first file written again. -/
def reentered : Disk :=
  { entered with tree := entered.tree.put ["out", "a"] (.file "x".toUTF8) }

/-- At first neither file can be read. -/
theorem not_isHeld_gone : ∀ f ∈ kept.files, ¬ isHeld disk ⟨"gone/.."⟩ f = true := by
  have hlost : ∀ p : Path, Disk.walk disk.tree (if p.isAbsolute then [] else disk.current) p.steps =
      .error .notFound → ∀ bytes, disk.read p ≠ .ok bytes := by
    intro p hwalk bytes hread
    have hplace := (Disk.read_eq_ok_iff.1 hread).1
    rw [Disk.locate_eq_ok_iff, hwalk] at hplace
    exact nomatch hplace.2.2.2
  refine List.forall_mem_cons.2 ⟨?_, List.forall_mem_singleton.2 ?_⟩
  · rw [isHeld_iff]
    exact hlost _ (by decide +kernel) _
  · rw [isHeld_iff]
    exact hlost _ (by decide +kernel) _

/-- The first file is written, and then the other one can be read. -/
theorem commit_kept : kept.commit ⟨"gone/.."⟩ disk = (reentered, .ok ⟨1, 1⟩) := by
  obtain ⟨hlost, -⟩ := List.forall_mem_cons.1 not_isHeld_gone
  have hdirectory : directoryOf ((⟨"gone/.."⟩ : Path).join ⟨"a"⟩) = ⟨"gone/.."⟩ := by
    decide +kernel
  have hscratch : entered.locate (scratchIn entered ⟨"gone/.."⟩) = .ok ["out", ".tmpABCDEF"] :=
    Disk.locate_eq_ok_iff.2 (by decide +kernel)
  have hwrite : entered.write ((⟨"gone/.."⟩ : Path).join ⟨"a"⟩) "x".toUTF8 = .ok reentered :=
    Disk.write_of_ne (Disk.locate_eq_ok_iff.2 (by decide +kernel)) (by decide) (by decide)
      (by decide +kernel) (by decide +kernel)
  have hplace : place disk ((⟨"gone/.."⟩ : Path).join ⟨"a"⟩) "x" = (reentered, .ok ()) := by
    simp only [place, hdirectory, createDirectories_gone, hscratch, hwrite]
  have hsecond : reentered.read ((⟨"gone/.."⟩ : Path).join ⟨"b"⟩) = .ok "y".toUTF8 :=
    read_out "b" (Disk.locate_eq_ok_iff.2 (by decide +kernel)) rfl (by decide +kernel)
  exact commit_eq_ok_iff.2 (.placed hlost hplace (.held (isHeld_iff.2 hsecond) .nil))

end TwoFiles

namespace GeneratedFiles

open TwoFiles

/-- One of two files is as it should be. -/
theorem commit_faithful_changed : Separate changed.files ∧ disk.tree.Rooted ∧
    changed.commit ⟨"/out"⟩ disk = (rewritten "b" "z", .ok ⟨1, 1⟩) ∧
    Faithful changed ⟨"/out"⟩ disk (rewritten "b" "z") ⟨1, 1⟩ := by
  have hfiles : Separate changed.files := by decide +kernel
  exact ⟨hfiles, rooted_disk, commit_changed, commit_faithful hfiles rooted_disk commit_changed⟩

/-- Of one path in two spellings, only the last content is kept.  And below a root whose `..`
    leaves a directory that is not there, one of two files is written and the other is not,
    although both lie in their places. -/
theorem commit_not_faithful : disk.tree.Rooted ∧
    ((∀ f ∈ spellings.files, f.1.isAbsolute = false ∧ Component.parent ∉ f.1.components) ∧
      (spellings.files.map fun f => f.1.components).Nodup ∧
      spellings.commit ⟨"/out"⟩ disk = (rewritten "a" "z", .ok ⟨1, 1⟩) ∧
      (rewritten "a" "z").read ((⟨"/out"⟩ : Path).join ⟨"./a"⟩) ≠ .ok "x".toUTF8) ∧
    Separate kept.files ∧ kept.commit ⟨"gone/.."⟩ disk = (reentered, .ok ⟨1, 1⟩) ∧
      (∀ f ∈ kept.files, disk.tree.find? (disk.placeOf ((⟨"gone/.."⟩ : Path).join f.1)) =
        some (.file f.2.toUTF8)) ∧
      kept.files.countP (isHeld disk ⟨"gone/.."⟩) = 0 := by
  have hread : (rewritten "a" "z").read ((⟨"/out"⟩ : Path).join ⟨"./a"⟩) = .ok "z".toUTF8 :=
    read_out "a" (Disk.locate_eq_ok_iff.2 (by decide +kernel)) rfl (by decide +kernel)
  refine ⟨rooted_disk, ⟨by decide +kernel, by decide +kernel, commit_spellings, ?_⟩,
    by decide +kernel, commit_kept, by decide +kernel, List.countP_eq_zero.2 not_isHeld_gone⟩
  rw [hread]
  exact fun h => absurd (Except.ok.inj h) (by decide +kernel)

end GeneratedFiles

end Buildwright
