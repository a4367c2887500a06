import Buildwright.Proofs.Path.Detours
import Buildwright.Proofs.Reference.Relative

/-! # Root files and references

    A root file is read for the package whose key its directory spells, seen from the project
    root, and a reference loads that package from the file below its key.  Whether this is the
    same file depends on the way from the project root to the root file: it is the same if the
    way stays below the project root, has no backslash in it and spells no key of the builtin
    tree.  A way that steps up too often is not refused.  Its key forgets the steps up, so the
    file lies below the project root, or is the file of its key, only if the way comes back by
    the last names of the project root.

    * `Layout.IsFileOf` — the files that references load packages from;
    * `Layout.isFileOf_iff_regains`, `Layout.regains_of_level`, `Layout.not_isFileOf_of_isName` —
      when root files are such files;
    * `Layout.root_file_agrees_iff` — all of it. -/

namespace Buildwright

open Buildwright.Path (IsStep named ofWords walk)

namespace Package.Key

/-- On the way along some words, what the steps along names keep stands on top of what is kept,
    wherever the way began. -/
theorem exists_kept_walk (ws walked : List (List Char)) (bottom : List Component) (climbed : Bool) :
    ∃ below, (walk ws ⟨named walked ++ bottom, climbed⟩).kept =
      named (ws.foldl step walked) ++ below := by
  induction ws generalizing walked bottom climbed with
  | nil => exact ⟨bottom, rfl⟩
  | cons w ws ih =>
      rw [Path.walk_cons]
      rcases walk_word walked w with ⟨rfl, rfl⟩ | ⟨hwalk, -⟩
      · exact ih [] _ _
      · rw [hwalk]
        exact ih _ _ _

/-- The segments of a key are those of the path that it is the key of. -/
theorem segments_normalize (path : String) :
    segments (normalize path).toList = segments path.toList := by
  rw [toList_normalize, segments_intercalate isName_of_mem_segments]

end Package.Key

namespace Path

variable {p dir : Path}

/-- A directory is a beginning of the text of what lies in it. -/
theorem parent?_prefix (h : p.parent? = some dir) : dir.text.toList <+: p.text.toList := by
  rw [parent?] at h
  split at h
  · cases h
  · split_ifs at h
    split at h
    · rw [← Option.some.inj h]
      exact List.nil_prefix
    · rw [← Option.some.inj h, slice, String.toList_ofList, List.drop_zero]
      exact List.take_prefix _ _

/-- The directory of a relative path is relative. -/
theorem isAbsolute_parent? (h : p.parent? = some dir) (hp : p.isAbsolute = false) :
    dir.isAbsolute = false := by
  obtain ⟨after, hafter⟩ := parent?_prefix h
  rw [isAbsolute, decide_eq_false_iff_not] at hp ⊢
  intro hhead
  obtain ⟨cs, hcs⟩ := List.head?_eq_some_iff.1 hhead
  rw [← hafter, hcs] at hp
  exact hp rfl

/-- A path that is neither empty nor absolute has a directory. -/
theorem exists_parent?_of_relative (hp : p.isAbsolute = false) (hne : p.text ≠ "") :
    ∃ dir, p.parent? = some dir := by
  have hcomponents : p.components ≠ [] := List.ne_nil_of_length_pos (components_length_pos hne)
  refine exists_parent? (List.getLast?_eq_some_getLast hcomponents) fun hroot => ?_
  obtain ⟨rest, hrest, heq⟩ := p.exists_components_eq
  rw [hp, if_neg Bool.false_ne_true, List.nil_append] at heq
  exact hrest (heq ▸ hroot ▸ List.getLast_mem hcomponents)

/-- The file name of a path is its last component. -/
theorem getLast?_of_fileName? {name : String} (h : p.fileName? = some name) :
    p.components.getLast? = some (.name name) := by
  rw [fileName?] at h
  split at h
  · rename_i n heq
    rw [heq, ← Option.some.inj h]
  · cases h

/-- A file name is a name in paths. -/
theorem isName_of_fileName? {name : String} (h : p.fileName? = some name) :
    Package.Key.IsName name.toList :=
  proper_of_mem_components (List.mem_of_getLast? (getLast?_of_fileName? h)) (by simp) (by simp)

end Path

namespace Layout

open Package.Key (Formed IsName isBuiltin isName_of_mem_segments segments)

variable {l : Layout} {file full dir : Path} {key : String}

/-- Whether a package is loaded from a file, at most in another spelling, where it is
    referred to. -/
def IsFileOf (l : Layout) (key : String) (file : Path) : Prop :=
  ∃ own, l.fileOf? key = some own ∧ own.normal = file.normal

theorem keyBelow_of_parent? {relative : Path} (h : relative.parent? = some dir) :
    keyBelow relative = Package.Key.normalize (slashed dir.text) := by
  rw [keyBelow, h]

/-! ## Packages of the project -/

/-- The file of a package of the project lies at the names of its key below the project root. -/
theorem exists_fileOf (hkey : isBuiltin key = false) (hnormal : Package.Key.normalize key = key)
    (hname : IsName l.buildFile.toList) : ∃ own, l.fileOf? key = some own ∧
      own.normal.components = l.projectRoot.normal.components ++
        named (segments key.toList ++ [l.buildFile.toList]) := by
  have hall : ∀ w ∈ segments key.toList ++ [l.buildFile.toList], IsName w := by
    intro w hw
    rcases List.mem_append.1 hw with hw | hw
    · exact isName_of_mem_segments w hw
    · rwa [List.mem_singleton.1 hw]
  have hsteps := fun w hw => (⟨(hall w hw).1, (hall w hw).2.2⟩ : IsStep w ∧ '/' ∉ w)
  have htidy := Path.tidy_of_forall (by simp) hsteps
  refine ⟨_, fileOf?_eq hkey hnormal hsteps, ?_⟩
  rw [Path.components_normal, Path.components_normal, Normal.components, Normal.components,
    Path.run_join _ htidy.isAbsolute, htidy.words, Path.walk_of_names hall, List.reverse_append,
    Path.named_reverse, List.reverse_reverse]

/-- A root file is the file of its key if and only if its way from the project root regains the
    root and goes on along the names of the key. -/
theorem isFileOf_iff_regains (h : l.packageOf file = .ok (key, full))
    (hname : full.fileName? = some l.buildFile) (hkey : isBuiltin key = false) :
    l.IsFileOf key full ↔ (l.relativize full).Regains l.projectRoot
      (named (segments key.toList ++ [l.buildFile.toList])) := by
  obtain ⟨-, relative, hstrip, rfl⟩ := packageOf_eq_ok_iff.1 h
  have hnormal := (formed_keyBelow relative).normalize_eq
  obtain ⟨own, hown, hcomponents⟩ :=
    exists_fileOf (l := l) hkey hnormal (Path.isName_of_fileName? hname)
  rw [relativize_of_stripPrefix? hstrip,
    ← Path.normal_eq_append_iff hstrip fun _ hc => Path.isName_of_mem_named hc, ← hcomponents,
    IsFileOf, hown]
  constructor
  · rintro ⟨_, heq, hsame⟩
    rw [← Option.some.inj heq] at hsame
    rw [hsame]
  · intro hsame
    exact ⟨own, rfl, by rw [Path.normal_eq_ofComponents, ← hsame, ← Path.normal_eq_ofComponents]⟩

/-- What the directory of a root file and the file itself are, from the project root. -/
theorem exists_dir (h : full.stripPrefix? l.projectRoot = some file)
    (hname : full.fileName? = some l.buildFile) (hdir : file.parent? = some dir) :
    file.components = dir.components ++ [.name l.buildFile] := by
  obtain ⟨c, -, hfile⟩ := Path.components_parent? hdir
  have hlast := Path.getLast?_of_fileName? hname
  rw [Path.components_eq_append h, hfile, ← List.append_assoc, List.getLast?_concat,
    Option.some_inj] at hlast
  rw [hfile, hlast]

/-- A root file whose way stays below the project root is at the names of its key, if the way
    has no backslash. -/
theorem regains_of_level {relative : Path}
    (hstrip : full.stripPrefix? l.projectRoot = some relative)
    (hname : full.fileName? = some l.buildFile) (hback : '\\' ∉ relative.text.toList)
    (hrelative : relative.isAbsolute = false) (hlevel : relative.climbs = false)
    (hne : relative.text ≠ "") : relative.Regains l.projectRoot
      (named (segments (keyBelow relative).toList ++ [l.buildFile.toList])) := by
  obtain ⟨dir, hdir⟩ := Path.exists_parent?_of_relative hrelative hne
  have hcomponents := exists_dir hstrip hname hdir
  have hdirback : '\\' ∉ dir.text.toList := fun hmem =>
    hback ((Path.parent?_prefix hdir).subset hmem)
  have hrun : Normal.run relative.components =
      Normal.step (walk dir.words ⟨[], false⟩) (.name l.buildFile) := by
    rw [Normal.run, hcomponents, List.foldl_append,
      Path.foldl_components (Path.isAbsolute_parent? hdir hrelative)]
    rfl
  rw [Path.climbs, hrun] at hlevel
  have hwalk : walk dir.words ⟨[], false⟩ =
      ⟨named (dir.words.foldl Package.Key.step []), false⟩ := by
    have hnamed : (walk dir.words ⟨named [], false⟩).climbed = false := hlevel
    have hnames := (Package.Key.walk_of_level hnamed).1 [] false
    rwa [List.append_nil, List.append_nil] at hnames
  refine ⟨0, [], ?_, fun _ hc => absurd hc List.not_mem_nil, .inl ⟨rfl, List.nil_suffix⟩⟩
  rw [Path.components_normal, Normal.components, hrun, hwalk, keyBelow_of_parent? hdir,
    slashed_of_notMem hdirback, Package.Key.segments_normalize, Path.named_append]
  show (_ :: named (dir.words.foldl Package.Key.step [])).reverse = _
  rw [List.reverse_cons, ← Path.named_reverse]
  exact congrArg (_ ++ [Component.name ·]) String.ofList_toList.symm

/-! ## Packages of the builtin tree -/

/-- What is kept of the file of a package of the builtin tree. -/
theorem exists_kept_own {own : Path} {w : List Char} {rest : List (List Char)}
    (hown : l.fileOf? key = some own) (hkey : Formed key)
    (hsegments : segments key.toList = ('#' :: '#' :: w) :: rest) (hw : IsName w)
    (hname : IsName l.buildFile.toList) : ∃ below, (Normal.run own.components).kept =
      .name l.buildFile :: (named (w :: rest).reverse ++ below) := by
  have hbuiltin := Package.Key.isBuiltin_of_segments hkey hsegments
  have hnames : ∀ v ∈ w :: rest, IsName v := List.forall_mem_cons.2 ⟨hw, fun v hv =>
    isName_of_mem_segments v (hsegments ▸ List.mem_cons_of_mem _ hv)⟩
  have hrelative := Path.isAbsolute_ofWords hw.1.1 hw.2.2 rest
  cases hroot : l.builtinRoot with
  | none =>
      rw [fileOf?, hbuiltin, hroot] at hown
      cases hown
  | some root =>
      have hdir := packageDir_of_segments hkey hroot hsegments
      -- the project root is in front of a relative builtin root only
      obtain ⟨base, hbase⟩ : ∃ base : Path,
          l.packageDirOnDisk key = base.join (ofWords (w :: rest)) := by
        rw [packageDirOnDisk, hdir]
        cases habsolute : root.isAbsolute with
        | true =>
            refine ⟨root, Path.join_of_isAbsolute _ ?_⟩
            rw [Path.isAbsolute_join, habsolute, Bool.or_true]
        | false => exact ⟨_, (Path.join_assoc _ habsolute hrelative).symm⟩
      rw [fileOf?, hbuiltin, hroot, hbase, ← String.ofList_toList (s := l.buildFile)] at hown
      refine ⟨(Normal.run base.components).kept, ?_⟩
      rw [← Option.some.inj hown, Path.components_join_name _ hname.1 hname.2.1 hname.2.2,
        Normal.run, List.foldl_append, ← Normal.run, Path.run_join _ hrelative,
        Path.words_ofWords (List.cons_ne_nil _ _) (fun v hv => (hnames v hv).2.2),
        Path.walk_of_names hnames, String.ofList_toList]
      rfl

/-- What is kept of a root file. -/
theorem exists_kept_rootFile {relative : Path}
    (hstrip : full.stripPrefix? l.projectRoot = some relative)
    (hname : full.fileName? = some l.buildFile) (hdir : relative.parent? = some dir) :
    ∃ below, (Normal.run full.components).kept =
      .name l.buildFile :: (named (segments dir.text.toList).reverse ++ below) := by
  have hfull := Path.components_eq_append hstrip
  rw [exists_dir hstrip hname hdir, ← List.append_assoc] at hfull
  obtain ⟨s, hs⟩ : ∃ s, Normal.run (l.projectRoot.components ++ dir.components) =
      walk dir.words s := by
    cases habsolute : dir.isAbsolute with
    | false =>
        rw [Normal.run, List.foldl_append, Path.foldl_components habsolute]
        exact ⟨_, rfl⟩
    | true =>
        -- then nothing is in front of the file
        have hrelative : relative.isAbsolute = true := by
          by_contra hnot
          rw [Bool.not_eq_true] at hnot
          rw [Path.isAbsolute_parent? hdir hnot] at habsolute
          cases habsolute
        rw [Path.base_eq_nil (Path.components_eq_append hstrip) hrelative, List.nil_append]
        exact ⟨_, Path.run_of_isAbsolute habsolute⟩
  obtain ⟨below, hbelow⟩ := Package.Key.exists_kept_walk dir.words [] s.kept s.climbed
  refine ⟨below, ?_⟩
  rw [hfull, Normal.run, List.foldl_append, ← Normal.run, hs]
  refine congrArg (_ :: ·) (hbelow.trans ?_)
  rw [segments, List.reverse_reverse]
  rfl

/-- A root file whose key is that of a package of the builtin tree is not the file that the
    package is loaded from. -/
theorem not_isFileOf_of_isName {relative : Path}
    (hstrip : full.stripPrefix? l.projectRoot = some relative)
    (hname : full.fileName? = some l.buildFile) (hback : '\\' ∉ relative.text.toList)
    {w : List Char} {rest : List (List Char)}
    (hsegments : segments (keyBelow relative).toList = ('#' :: '#' :: w) :: rest) (hw : IsName w) :
    ¬ l.IsFileOf (keyBelow relative) full := by
  rintro ⟨own, hown, hsame⟩
  obtain ⟨below, hkept⟩ := exists_kept_own hown (formed_keyBelow relative) hsegments hw
    (Path.isName_of_fileName? hname)
  cases hdir : relative.parent? with
  | none =>
      rw [keyBelow, hdir] at hsegments
      cases hsegments
  | some dir =>
      obtain ⟨below', hkept'⟩ := exists_kept_rootFile hstrip hname hdir
      have hdirback : '\\' ∉ dir.text.toList := fun hmem =>
        hback ((Path.parent?_prefix hdir).subset hmem)
      rw [keyBelow_of_parent? hdir, slashed_of_notMem hdirback,
        Package.Key.segments_normalize] at hsegments
      rw [Path.normal_eq_normal_iff, hkept, hkept', hsegments] at hsame
      have hfirst := (List.cons.inj hsame).2
      rw [List.reverse_cons, List.reverse_cons, Path.named_append, Path.named_append,
        List.append_assoc, List.append_assoc] at hfirst
      have hw' := (List.cons.inj (List.append_cancel_left hfirst)).1
      have hlength := congrArg List.length (String.ofList_injective (Component.name.inj hw'))
      rw [List.length_cons, List.length_cons] at hlength
      omega

/-! ## Root files -/

/-- When root files are the files that references load. -/
theorem root_file_agrees_iff (h : l.packageOf file = .ok (key, full)) :
    (full.Below l.projectRoot ↔ ∃ names, (∀ c ∈ names, c.isName = true) ∧
      (l.relativize full).Regains l.projectRoot names) ∧
    (full.fileName? = some l.buildFile →
      (isBuiltin key = false → (l.IsFileOf key full ↔
        (l.relativize full).Regains l.projectRoot
          (named (segments key.toList ++ [l.buildFile.toList])))) ∧
      ('\\' ∉ (l.relativize full).text.toList →
        (isBuiltin key = false → (l.relativize full).isAbsolute = false →
          (l.relativize full).climbs = false → (l.relativize full).text ≠ "" →
          full.Below l.projectRoot ∧ l.IsFileOf key full) ∧
        ∀ w rest, segments key.toList = ('#' :: '#' :: w) :: rest → IsName w →
          ¬ l.IsFileOf key full)) := by
  have hiff := fun hname hkey => isFileOf_iff_regains h hname hkey
  obtain ⟨-, relative, hstrip, rfl⟩ := packageOf_eq_ok_iff.1 h
  rw [relativize_of_stripPrefix? hstrip] at hiff ⊢
  have hbelow : full.Below l.projectRoot ↔ ∃ names, (∀ c ∈ names, c.isName = true) ∧
      relative.Regains l.projectRoot names :=
    exists_congr fun names => and_congr_right fun hnames => Path.normal_eq_append_iff hstrip hnames
  refine ⟨hbelow, fun hname => ⟨hiff hname, fun hback => ⟨?_, ?_⟩⟩⟩
  · intro hkey hrelative hlevel hne
    have hregains := regains_of_level hstrip hname hback hrelative hlevel hne
    exact ⟨hbelow.2 ⟨_, fun _ hc => Path.isName_of_mem_named hc, hregains⟩,
      (hiff hname hkey).2 hregains⟩
  · intro w rest hsegments hw
    exact not_isFileOf_of_isName hstrip hname hback hsegments hw

/-- A way that steps up once and then takes one name regains nothing but that name. -/
theorem not_regains_of_parent {relative root : Path} {name : String} {names : List Component}
    (hrelative : relative.normal.components = [.parent, .name name])
    (hroot : .root :: [] ≠ root.normal.components)
    (hlast : ∀ front, front ++ [.name name] ≠ root.normal.components)
    (hnames : ∀ c ∈ names, c.isName = true) : ¬ relative.Regains root names := by
  rintro ⟨up, back, heq, hback, hrestores⟩
  have hway : ∀ c ∈ back ++ names, c.isName = true := by
    intro c hc
    exact (List.mem_append.1 hc).elim (hback c) (hnames c)
  rw [hrelative] at heq
  match up, heq with
  | 0, heq => cases hway .parent (by rw [← show _ = back ++ names from heq]; simp)
  | _ + 2, heq => cases (List.cons.inj (List.cons.inj heq).2).1
  | 1, heq =>
      have hone : back ++ names = [.name name] := (List.cons.inj heq).2.symm
      rcases List.append_eq_singleton_iff.1 hone with ⟨rfl, -⟩ | ⟨rfl, -⟩
      · rcases hrestores with ⟨hlength, -⟩ | ⟨-, hbase⟩
        · cases hlength
        · exact hroot hbase.symm
      · rcases hrestores with ⟨-, front, hbase⟩ | ⟨-, hbase⟩
        · exact hlast front hbase
        · exact hlast [.root] hbase.symm

/-- A root file inside the project is the file of its key; one that steps up out of the project
    is taken for a package of the project, but it neither lies in the project nor is it the
    file of its key. -/
theorem root_files_in_and_out :
    (Reference.layoutAt ⟨"/std"⟩).packageOf ⟨"lib/../app/BUILD"⟩ =
        .ok ("app", ⟨"/proj/lib/../app/BUILD"⟩) ∧
      (⟨"/proj/lib/../app/BUILD"⟩ : Path).Below ⟨"/proj"⟩ ∧
      (Reference.layoutAt ⟨"/std"⟩).IsFileOf "app" ⟨"/proj/lib/../app/BUILD"⟩ ∧
    (Reference.layoutAt ⟨"/std"⟩).packageOf ⟨"../BUILD"⟩ = .ok ("", ⟨"/proj/../BUILD"⟩) ∧
      ¬ (⟨"/proj/../BUILD"⟩ : Path).Below ⟨"/proj"⟩ ∧
      ¬ (Reference.layoutAt ⟨"/std"⟩).IsFileOf "" ⟨"/proj/../BUILD"⟩ := by
  have hin : (Reference.layoutAt ⟨"/std"⟩).packageOf ⟨"lib/../app/BUILD"⟩ =
      .ok ("app", ⟨"/proj/lib/../app/BUILD"⟩) := by decide +kernel
  have hout : (Reference.layoutAt ⟨"/std"⟩).packageOf ⟨"../BUILD"⟩ =
      .ok ("", ⟨"/proj/../BUILD"⟩) := by decide +kernel
  have hway : ((Reference.layoutAt ⟨"/std"⟩).relativize ⟨"/proj/../BUILD"⟩).normal.components =
      [.parent, .name "BUILD"] := by decide +kernel
  have hroot : (⟨"/proj"⟩ : Path).normal.components = [.root] ++ [.name "proj"] := by
    decide +kernel
  have hlast : ∀ front, front ++ [.name "BUILD"] ≠ (⟨"/proj"⟩ : Path).normal.components := by
    intro front heq
    rw [hroot] at heq
    exact absurd (List.append_inj_right' heq rfl) (by decide)
  have hregains : ∀ names : List Component, (∀ c ∈ names, c.isName = true) →
      ¬ ((Reference.layoutAt ⟨"/std"⟩).relativize ⟨"/proj/../BUILD"⟩).Regains ⟨"/proj"⟩ names :=
    fun names => not_regains_of_parent hway (by decide +kernel) hlast
  obtain ⟨-, hagrees⟩ := root_file_agrees_iff hin
  obtain ⟨hbelow, hagrees'⟩ := root_file_agrees_iff hout
  obtain ⟨hinside, hfile⟩ := ((hagrees (by decide +kernel)).2 (by decide +kernel)).1
    (by decide +kernel) (by decide +kernel) (by decide +kernel) (by decide +kernel)
  refine ⟨hin, hinside, hfile, hout, fun h => ?_, fun h => ?_⟩
  · obtain ⟨names, hnames, hway⟩ := hbelow.1 h
    exact hregains names hnames hway
  · have hway := ((hagrees' (by decide +kernel)).1 (by decide +kernel)).1 h
    exact hregains _ (fun _ hc => Path.isName_of_mem_named hc) hway

end Layout

end Buildwright
