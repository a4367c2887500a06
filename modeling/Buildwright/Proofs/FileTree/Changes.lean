import Buildwright.Proofs.FileTree.Packages

/-! # What changes on a disk leave as it was

    A change puts a directory or a file at the place that a path leads to, and
    creating a directory passes only places on the way to it.  So after any
    number of changes every place holds what it held, or a directory where there
    was nothing, or the content of a file that was written there.  As long as
    directories stay directories, what could be reached can still be reached.

    * `FileTree.Received` — a tree that has received directories and files;
    * `FileTree.Grows` — a tree whose directories stay;
    * `Disk.Passes` — the places on the way to a path;
    * `Disk.made_createDirectories`, `Disk.write_eq_ok` — the changes;
    * `Disk.locate_of_grows` — what can be reached after them. -/

namespace Buildwright

/-- Whether a tree has become `t'` by new directories at some places and by files with some
    contents at others: every place holds what it held, or a directory where there was nothing,
    or one of the files. -/
def FileTree.Received (directories : Place → Prop) (files : Place → ByteArray → Prop)
    (t t' : FileTree) : Prop :=
  ∀ place, t'.find? place = t.find? place ∨
    (t.find? place = none ∧ t'.find? place = some .directory ∧ directories place) ∨
    ∃ content, files place content ∧ t'.find? place = some (.file content)

namespace FileTree.Received

variable {D D' : Place → Prop} {F F' : Place → ByteArray → Prop} {t t' t'' : FileTree}
  {place : Place}

theorem refl (t : FileTree) : Received D F t t :=
  fun _ => .inl rfl

theorem mono (h : Received D F t t') (hD : ∀ place, D place → D' place)
    (hF : ∀ place content, F place content → F' place content) : Received D' F' t t' := by
  intro place
  rcases h place with hsame | ⟨hnone, hnew, hd⟩ | ⟨content, hf, hfile⟩
  · exact .inl hsame
  · exact .inr (.inl ⟨hnone, hnew, hD place hd⟩)
  · exact .inr (.inr ⟨content, hF place content hf, hfile⟩)

/-- One change after another. -/
theorem trans (h : Received D F t t') (h' : Received D F t' t'') : Received D F t t'' := by
  intro place
  rcases h' place with hsame | ⟨hnone, hnew, hd⟩ | hfile
  · rw [hsame]
    exact h place
  · -- a place that holds nothing now has held nothing before
    have hbefore : t.find? place = none := by
      rcases h place with hsame | ⟨-, hdir, -⟩ | ⟨content, -, hfile⟩
      · rw [← hsame, hnone]
      · rw [hnone] at hdir
        cases hdir
      · rw [hnone] at hfile
        cases hfile
    exact .inr (.inl ⟨hbefore, hnew, hd⟩)
  · exact .inr (.inr hfile)

end FileTree.Received

namespace FileTree

variable {t t' t'' : FileTree} {place : Place}

/-- Whether the directories of a tree are still there in `t'`. -/
def Grows (t t' : FileTree) : Prop :=
  ∀ place, t.find? place = some .directory → t'.find? place = some .directory

namespace Grows

theorem refl (t : FileTree) : Grows t t :=
  fun _ h => h

theorem trans (h : Grows t t') (h' : Grows t' t'') : Grows t t'' :=
  fun place hplace => h' place (h place hplace)

theorem put (node : Node) (hnot : t.find? place ≠ some .directory) :
    Grows t (t.put place node) := by
  intro q hq
  have hne : q ≠ place := by
    rintro rfl
    exact hnot hq
  rwa [find?_put_of_ne t node hne]

end Grows

end FileTree

namespace Disk

variable {d d' : Disk} {p q : Path} {place : Place} {content : ByteArray}
  {result : Except Refusal Unit} {D : Place → Prop} {F : Place → ByteArray → Prop}

/-- Whether a place is passed on the way to what a path leads to, or is where it leads. -/
def Passes (d : Disk) (p : Path) (place : Place) : Prop :=
  ∃ names, names <+: p.steps ∧ place = follow (if p.isAbsolute then [] else d.current) names

theorem passes_placeOf (d : Disk) (p : Path) : d.Passes p (d.placeOf p) :=
  ⟨p.steps, List.prefix_rfl, rfl⟩

/-- What is passed on the way to the directory around a path is passed on the way to the path. -/
theorem Passes.of_parent? (h : d.Passes q place) (hq : p.parent? = some q) : d.Passes p place := by
  obtain ⟨names, hnames, rfl⟩ := h
  obtain ⟨c, hc, hcomponents⟩ := Path.components_parent? hq
  have hsteps : q.steps <+: p.steps := by
    rw [Path.steps_eq_components, Path.steps_eq_components, hcomponents, List.filterMap_append]
    exact List.prefix_append _ _
  have habsolute : p.isAbsolute = q.isAbsolute := by
    rw [Path.isAbsolute_eq_decide, Path.isAbsolute_eq_decide, hcomponents]
    simp [hc.symm]
  exact ⟨names, hnames.trans hsteps, by rw [habsolute]⟩

/-- The current directory does not change what a path passes. -/
theorem Passes.congr (h : d'.Passes p place) (hcurrent : d'.current = d.current) :
    d.Passes p place := by
  rwa [Passes, hcurrent] at h

/-- What creating directories at some places can make of a disk: each is new, and in a directory
    that is there. -/
inductive Made (D : Place → Prop) (d : Disk) : Disk → Prop
  | refl : Made D d d
  | put {e : Disk} {place : Place} (h : Made D d e) (hplace : D place)
      (hnone : e.tree.find? place = none)
      (haround : e.tree.find? place.dropLast = some .directory) :
      Made D d { e with tree := e.tree.put place .directory }

theorem Made.current (h : Made D d d') : d'.current = d.current := by
  induction h with
  | refl => rfl
  | put _ _ _ _ ih => exact ih

theorem Made.mono {D' : Place → Prop} (h : Made D d d') (hD : ∀ place, D place → D' place) :
    Made D' d d' := by
  induction h with
  | refl => exact .refl
  | put _ hplace hnone haround ih => exact ih.put (hD _ hplace) hnone haround

theorem Made.trans {d'' : Disk} (h : Made D d d') (h' : Made D d' d'') : Made D d d'' := by
  induction h' with
  | refl => exact h
  | put _ hplace hnone haround ih => exact ih.put hplace hnone haround

/-- A directory that is created lies where its path leads. -/
theorem made_createDirectory (h : d.createDirectory p = .ok d') (hD : D (d.placeOf p)) :
    Made D d d' := by
  obtain ⟨place, hplace, h⟩ := exists_of_bind_eq_ok h
  obtain rfl := locate_eq_ok hplace
  cases hnode : d.tree.find? (d.placeOf p) with
  | some node =>
      simp only [hnode] at h
      cases h
  | none =>
      simp only [hnode] at h
      cases haround : d.tree.find? (d.placeOf p).dropLast with
      | none =>
          simp only [haround] at h
          cases h
      | some node =>
          cases node with
          | file content =>
              simp only [haround] at h
              cases h
          | directory =>
              simp only [haround] at h
              obtain rfl := Except.ok.inj h
              exact .put .refl hD hnode haround

/-- Making sure of one directory makes at most that one. -/
theorem made_after {e e' : Disk} (h : e.after (e.ensureDirectory p) = (e', result)) :
    Made (e.Passes p) e e' := by
  rw [ensureDirectory] at h
  cases hcreate : e.createDirectory p with
  | ok created =>
      rw [hcreate] at h
      obtain rfl : created = e' := congrArg Prod.fst h
      exact made_createDirectory hcreate (e.passes_placeOf p)
  | error refusal =>
      simp only [hcreate] at h
      split_ifs at h <;> obtain rfl : e = e' := congrArg Prod.fst h <;> exact .refl

/-- Creating a directory with those around it makes directories on the way to it. -/
theorem made_createDirectoriesUpTo {n : Nat} (h : createDirectoriesUpTo n d p = (d', result)) :
    Made (d.Passes p) d d' := by
  induction n generalizing d p d' result with
  | zero => exact made_after h
  | succ n ih =>
      rw [createDirectoriesUpTo] at h
      by_cases hempty : p.text.isEmpty = true
      · rw [if_pos hempty] at h
        obtain rfl : d = d' := congrArg Prod.fst h
        exact .refl
      rw [if_neg hempty] at h
      split at h
      next around _ hparent =>
        -- the directories around it come first
        cases haround : createDirectoriesUpTo n d around with
        | mk made outcome =>
            have hmade : Made (d.Passes p) d made :=
              (ih haround).mono fun _ hpass => hpass.of_parent? hparent
            rw [haround] at h
            cases outcome with
            | error refusal =>
                obtain rfl : made = d' := congrArg Prod.fst h
                exact hmade
            | ok _ =>
                exact hmade.trans ((made_after h).mono fun _ hpass => hpass.congr hmade.current)
      next => exact made_after h

theorem made_createDirectories (h : d.createDirectories p = (d', result)) :
    Made (d.Passes p) d d' :=
  made_createDirectoriesUpTo h

/-- A file that is written lies where its path leads, in a directory and not in the place of
    one. -/
theorem write_eq_ok (h : d.write p content = .ok d') :
    d.locate p = .ok (d.placeOf p) ∧ wantsDirectory p = false ∧
      d.tree.find? (d.placeOf p) ≠ some .directory ∧
      d.tree.find? (d.placeOf p).dropLast = some .directory ∧
      d' = { d with tree := d.tree.put (d.placeOf p) (.file content) } := by
  rw [write] at h
  split_ifs at h with _ hwants
  · -- a path without a name leads to a directory, or nowhere
    obtain ⟨_, -, h⟩ := exists_of_bind_eq_ok h
    cases h
  · obtain ⟨_, -, h⟩ := exists_of_bind_eq_ok h
    cases h
  · obtain ⟨place, hplace, h⟩ := exists_of_bind_eq_ok h
    obtain rfl := locate_eq_ok hplace
    split at h
    · cases h
    next haround hnot =>
      exact ⟨hplace, Bool.eq_false_of_not_eq_true hwants, hnot, haround, (Except.ok.inj h).symm⟩
    · cases h
    · cases h

theorem entry_of_directory (hplace : d.locate p = .ok place)
    (hnode : d.tree.find? place = some .directory) : d.entry p = .ok (place, .directory) := by
  simp only [entry, hplace, bind, Except.bind, hnode]

/-- A directory that is there need not be created. -/
theorem ensureDirectory_of_directory (hplace : d.locate p = .ok place)
    (hnode : d.tree.find? place = some .directory) : d.ensureDirectory p = .ok d := by
  have hcreate : d.createDirectory p = .error .alreadyExists := by
    simp only [createDirectory, hplace, bind, Except.bind, hnode]
  have hdirectory : d.isDirectory p = true := by
    rw [isDirectory, entry_of_directory hplace hnode]
  rw [ensureDirectory, hcreate]
  exact if_pos hdirectory

theorem createDirectories_of_directory (hplace : d.locate p = .ok place)
    (hnode : d.tree.find? place = some .directory) : d.createDirectories p = (d, .ok ()) := by
  rw [createDirectories, createDirectoriesUpTo, ensureDirectory_of_directory hplace hnode]
  split_ifs <;> rfl

/-- A file in a directory, new or in the place of another. -/
theorem write_of_ne (hplace : d.locate p = .ok place)
    (hnot : d.tree.find? place ≠ some .directory)
    (haround : d.tree.find? place.dropLast = some .directory) (hname : isNameless p = false)
    (hwants : wantsDirectory p = false) :
    d.write p content = .ok { d with tree := d.tree.put place (.file content) } := by
  simp only [write, hname, hwants, hplace, haround, bind, Except.bind, Bool.false_eq_true, if_false]

/-- What can be reached can still be reached, as long as directories stay. -/
theorem walk_of_grows {t t' : FileTree} {start : Place} {names : List String} (ht : t.Grows t')
    (h : walk t start names = .ok place) : walk t' start names = .ok place := by
  induction names generalizing start with
  | nil => exact h
  | cons name names ih =>
      obtain ⟨hstart, hname, hrest⟩ := walk_cons_eq_ok_iff.1 h
      exact walk_cons_eq_ok_iff.2 ⟨ht _ hstart, hname, ih hrest⟩

theorem locate_of_grows (ht : d.tree.Grows d'.tree) (hcurrent : d'.current = d.current)
    (h : d.locate p = .ok place) : d'.locate p = .ok place := by
  obtain ⟨htext, hnul, hlength, hwalk⟩ := locate_eq_ok_iff.1 h
  refine locate_eq_ok_iff.2 ⟨htext, hnul, hlength, ?_⟩
  rw [hcurrent]
  exact walk_of_grows ht hwalk

end Disk

end Buildwright
