import Buildwright.Layout
import Buildwright.Proofs.Declared
import Buildwright.Proofs.FileTree.Spelling
import Buildwright.Proofs.Lookup
import Buildwright.Proofs.Package.Key
import Buildwright.Workspace
import Mathlib.Combinatorics.Enumerative.DoubleCounting

/-! # Packages on a disk

    What a declaration file declares depends on its text alone.  A package is found
    at the place that its key leads to, and besides what stands before the names of
    the key the place tells the key.  So a disk has room for few packages, and the
    capacity of its workspace is never exceeded.

    * `Disk.evaluate_same` — declaration files under another spelling;
    * `Disk.walk_eq_ok` — the place that names lead to;
    * `HasPlace` — the places of declaration files, which tell their packages;
    * `Disk.length_le_nodes` — the packages on a disk. -/

namespace Buildwright

/-! ## Joined names -/

namespace Path

variable {p q r : Path}

/-- The names that a joined path leads along. -/
theorem steps_join (p : Path) (hq : q.isAbsolute = false) :
    (p.join q).steps = p.steps ++ q.steps := by
  obtain ⟨pre, hwords, -, hpieces⟩ := exists_words_join p hq
  have hroot : ∀ p : Path, (p.rootPieces.map Piece.component).filterMap stepText? = [] := by
    intro p
    rw [rootPieces]
    split <;> rfl
  have hpre : (pre.filter IsStep).map String.ofList = p.steps := by
    rw [steps_eq_components, components, ← hpieces, List.map_append, List.filterMap_append, hroot,
      filterMap_wordPieces]
    rfl
  rw [steps, hwords, List.filter_append, List.map_append, hpre]
  rfl

/-- Names behind a path are names behind everything that ends with the path. -/
theorem steps_join_of_append {names : List String} (p : Path)
    (hsteps : q.steps = r.steps ++ names) (habsolute : q.isAbsolute = r.isAbsolute) :
    (p.join q).steps = (p.join r).steps ++ names ∧
      (p.join q).isAbsolute = (p.join r).isAbsolute := by
  refine ⟨?_, by rw [isAbsolute_join, isAbsolute_join, habsolute]⟩
  cases hr : r.isAbsolute with
  | true =>
      rw [hr] at habsolute
      rw [join_of_isAbsolute p habsolute, join_of_isAbsolute p hr, hsteps]
  | false =>
      rw [hr] at habsolute
      rw [steps_join p habsolute, steps_join p hr, hsteps, List.append_assoc]

end Path

/-- What is found somewhere is one of the nodes. -/
theorem FileTree.mem_places {t : FileTree} {place : Place} {node : FileTree.Node}
    (h : t.find? place = some node) (hne : place ≠ []) : place ∈ t.nodes.map Prod.fst := by
  rw [find?, if_neg hne] at h
  obtain ⟨before, after, hnodes, -⟩ := List.lookup_eq_some_iff.1 h
  rw [hnodes]
  simp

namespace Disk

variable {d : Disk} {file file' : Path} {calls : List Call} {t : FileTree} {place place' : Place}
  {names : List String}

/-! ## Declaration files -/

theorem evaluate_eq_ok_iff : d.evaluate file = .ok calls ↔
    ∃ text, d.readText file = .ok text ∧ DeclarationFile.read file text = .ok calls := by
  rw [evaluate]
  cases d.readText file with
  | error refusal => exact iff_of_false nofun nofun
  | ok text =>
      cases hread : DeclarationFile.read file text with
      | error fault => simp [hread]
      | ok found => simp [hread]

/-- A text file that is found declares what its text says. -/
theorem evaluate_of_find? {text : String} (hplace : d.locate file = .ok place)
    (hnode : d.tree.find? place = some (.file text.toUTF8)) (hwants : wantsDirectory file = false)
    (hread : DeclarationFile.read file text = .ok calls) : d.evaluate file = .ok calls := by
  have htext : String.fromUTF8? text.toUTF8 = some text := dif_pos text.isValidUTF8
  exact evaluate_eq_ok_iff.2
    ⟨text, readText_eq_ok_iff.2 ⟨place, _, hplace, hnode, hwants, htext⟩, hread⟩

/-- A declaration file is a file of the tree, and its path ends in a name. -/
theorem exists_place_of_evaluate (h : d.evaluate file = .ok calls) :
    ∃ place content, d.locate file = .ok place ∧ d.tree.find? place = some (.file content) ∧
      wantsDirectory file = false := by
  obtain ⟨text, htext, -⟩ := evaluate_eq_ok_iff.1 h
  obtain ⟨place, content, hplace, hfile, hwants, -⟩ := readText_eq_ok_iff.1 htext
  exact ⟨place, content, hplace, hfile, hwants⟩

/-! ## Places -/

/-- The place that names lead to if nothing is in the way. -/
def follow (place : Place) (names : List String) : Place :=
  names.foldl (fun place name => if name = ".." then place.dropLast else place ++ [name]) place

theorem follow_append (place : Place) (names names' : List String) :
    follow place (names ++ names') = follow (follow place names) names' :=
  List.foldl_append

theorem follow_of_ne (h : ∀ name ∈ names, name ≠ "..") (place : Place) :
    follow place names = place ++ names := by
  induction names generalizing place with
  | nil => exact (List.append_nil _).symm
  | cons name names ih =>
      obtain ⟨hname, hnames⟩ := List.forall_mem_cons.1 h
      rw [follow, List.foldl_cons, if_neg hname]
      exact (ih hnames _).trans (by rw [List.append_assoc]; rfl)

/-- One step of a walk. -/
theorem walk_cons_eq_ok_iff {name : String} : walk t place (name :: names) = .ok place' ↔
    t.find? place = some .directory ∧ name.utf8ByteSize ≤ nameLimit ∧
      walk t (follow place [name]) names = .ok place' := by
  rw [walk]
  cases hnode : t.find? place with
  | none => simp
  | some node =>
      cases node with
      | file content => simp
      | directory =>
          simp only
          by_cases hlong : nameLimit < name.utf8ByteSize
          · rw [if_pos hlong]
            refine iff_of_false ?_ fun h => absurd h.2.1 (Nat.not_le.2 hlong)
            intro h
            cases h
          · rw [if_neg hlong]
            exact ⟨fun h => ⟨trivial, Nat.not_lt.1 hlong, h⟩, fun h => h.2.2⟩

/-- A walk that is not stopped ends where the names lead. -/
theorem walk_eq_ok (h : walk t place names = .ok place') : place' = follow place names := by
  induction names generalizing place with
  | nil => exact (Except.ok.inj h).symm
  | cons name names ih => exact ih (walk_cons_eq_ok_iff.1 h).2.2

/-- The place that a path leads to if nothing is in the way. -/
def placeOf (d : Disk) (p : Path) : Place :=
  follow (if p.isAbsolute then [] else d.current) p.steps

theorem locate_eq_ok (h : d.locate file = .ok place) : place = d.placeOf file :=
  walk_eq_ok (locate_eq_ok_iff.1 h).2.2.2

/-- Names behind a path are followed from its place. -/
theorem placeOf_of_append (hsteps : file'.steps = file.steps ++ names)
    (habsolute : file'.isAbsolute = file.isAbsolute) :
    d.placeOf file' = follow (d.placeOf file) names := by
  rw [placeOf, placeOf, habsolute, hsteps, follow_append]

/-- A file in a directory lies at the place of the directory, under its name. -/
theorem place_join {name : String} (h : d.locate (file.join ⟨name⟩) = .ok place)
    (hwants : wantsDirectory (file.join ⟨name⟩) = false) (hslash : '/' ∉ name.toList) :
    place = d.placeOf file ++ [name] := by
  obtain ⟨w, rfl⟩ : ∃ w, name = String.ofList w := ⟨_, String.ofList_toList.symm⟩
  rw [String.toList_ofList] at hslash
  obtain ⟨hlast, hparent⟩ := wantsDirectory_eq_false_iff.1 hwants
  have hstep : Path.IsStep w := (Path.endsInStep_join_iff _ hslash).1 hlast
  have hne : String.ofList w ≠ ".." := by
    intro heq
    obtain ⟨pre, hwords, -⟩ := Path.exists_words_join file (Path.isAbsolute_word hslash)
    rw [Path.words_word hslash] at hwords
    rw [Path.getLast?_components hlast] at hparent
    simp only [hwords, List.getLast_append_singleton] at hparent
    exact hparent (by rw [String.ofList_eq.1 heq]; rfl)
  have hsteps : (⟨String.ofList w⟩ : Path).steps = [String.ofList w] := by
    rw [Path.steps, Path.words_word hslash, List.filter_cons_of_pos (by simpa using hstep)]
    rfl
  have hjoined : (file.join ⟨String.ofList w⟩).steps = file.steps ++ [String.ofList w] := by
    rw [Path.steps_join _ (Path.isAbsolute_word hslash), hsteps]
  have habsolute : (file.join ⟨String.ofList w⟩).isAbsolute = file.isAbsolute := by
    rw [Path.isAbsolute_join, Path.isAbsolute_word hslash, Bool.false_or]
  rw [locate_eq_ok h, placeOf_of_append hjoined habsolute]
  exact follow_of_ne (by simpa using hne) _

end Disk

/-! ## Places of packages -/

open Package.Key (IsName fronts)
open Buildwright.Path (IsStep ofWords)

variable {d : Disk} {l : Layout} {key : String} {file : Path} {place : Place}
  {front names : List (List Char)}

/-- A file in the directory that names lead to from a base. -/
theorem Disk.place_of_names {p base : Path} {name : String}
    (hsteps : p.steps = base.steps ++ names.map String.ofList ∧ p.isAbsolute = base.isAbsolute)
    (hnames : ∀ w ∈ names, IsName w) (hslash : '/' ∉ name.toList)
    (hplace : d.locate (p.join ⟨name⟩) = .ok place)
    (hwants : Disk.wantsDirectory (p.join ⟨name⟩) = false) :
    place = d.placeOf base ++ names.map String.ofList ++ [name] := by
  have hup : ∀ name ∈ names.map String.ofList, name ≠ ".." := by
    intro name hname heq
    obtain ⟨w, hw, rfl⟩ := List.mem_map.1 hname
    exact (hnames w hw).2.1 (String.ofList_eq.1 heq)
  rw [Disk.place_join hplace hwants hslash, Disk.placeOf_of_append hsteps.1 hsteps.2,
    Disk.follow_of_ne hup]

/-- A directory for what stands before the names of a key. -/
def frontPath (front : List (List Char)) : Path :=
  if front = [[]] then ⟨"/"⟩ else ofWords front

theorem slash_notMem_fronts : ∀ front ∈ fronts, ∀ w ∈ front, '/' ∉ w := by
  decide

/-- The path behind the mark of a key leads along its names, from its front. -/
theorem steps_ofWords_front (hfront : front ∈ fronts) (hnames : ∀ w ∈ names, IsName w)
    (hne : front = [[]] → names ≠ []) :
    (ofWords (front ++ names)).steps = (frontPath front).steps ++ names.map String.ofList ∧
      (ofWords (front ++ names)).isAbsolute = (frontPath front).isAbsolute := by
  have hslash : ∀ w ∈ front ++ names, '/' ∉ w := by
    intro w hw
    rcases List.mem_append.1 hw with hw | hw
    · exact slash_notMem_fronts front hfront w hw
    · exact (hnames w hw).2.2
  have hall : names.filter IsStep = names :=
    List.filter_eq_self.2 fun w hw => by simpa using (hnames w hw).1
  have hsteps : front ++ names ≠ [] → (ofWords (front ++ names)).steps =
      (front.filter IsStep).map String.ofList ++ names.map String.ofList := by
    intro hnil
    rw [Path.steps, Path.words_ofWords hnil hslash, List.filter_append, hall, List.map_append]
  have hcases : front = [] ∨ front = [[]] ∨ front = [['.']] ∨ front = [['.', '.']] := by
    simpa [fronts] using hfront
  have hfirst : ∀ w ∈ names, w ≠ [] ∧ '/' ∉ w := fun w hw => ⟨(hnames w hw).1.1, (hnames w hw).2.2⟩
  cases names with
  | nil =>
      -- the front alone: only the empty one and the dots can be
      rcases hcases with rfl | rfl | rfl | rfl
      · exact ⟨rfl, rfl⟩
      · exact absurd rfl (hne rfl)
      · exact ⟨by decide, by decide⟩
      · exact ⟨by decide, by decide⟩
  | cons w ws =>
      obtain ⟨hw, hwslash⟩ := hfirst w (List.mem_cons_self ..)
      rw [hsteps (by simp)]
      rcases hcases with rfl | rfl | rfl | rfl
      · exact ⟨rfl, Path.isAbsolute_ofWords hw hwslash ws⟩
      · refine ⟨by congr 1, ?_⟩
        simp [Path.isAbsolute, ofWords, frontPath]
      · exact ⟨by congr 1, Path.isAbsolute_ofWords (by decide) (by decide) _⟩
      · exact ⟨by congr 1, Path.isAbsolute_ofWords (by decide) (by decide) _⟩

/-- The place where the names of a key of the builtin tree begin. -/
def baseOf (d : Disk) (l : Layout) (root : Path) (front : List (List Char)) : Place :=
  d.placeOf (l.projectRoot.join (root.join (frontPath front)))

/-- A package of the builtin tree is found by the names of its key. -/
theorem place_of_builtin (hroot : l.builtinRoot = some root)
    (hkey : key.toList = ['#', '#'] ++ ['/'].intercalate (front ++ names))
    (hfront : front ∈ fronts) (hnames : ∀ w ∈ names, IsName w) (hne : front = [[]] → names ≠ [])
    (hslash : '/' ∉ l.buildFile.toList) (hfile : l.fileOf? key = some file)
    (hplace : d.locate file = .ok place) (hwants : Disk.wantsDirectory file = false) :
    place = baseOf d l root front ++ names.map String.ofList ++ [l.buildFile] := by
  have hbuiltin : Package.Key.isBuiltin key = true := by
    rw [Package.Key.isBuiltin, hkey]
    rfl
  have hdrop : (⟨String.ofList (key.toList.drop 2)⟩ : Path) = ofWords (front ++ names) := by
    rw [hkey]
    rfl
  rw [Layout.fileOf?, hbuiltin, hroot, Option.isNone_some, Bool.and_false,
    if_neg Bool.false_ne_true, Layout.packageDirOnDisk, Layout.packageDir, hbuiltin, if_pos rfl,
    Option.some_inj] at hfile
  simp only [hroot, hdrop] at hfile
  subst hfile
  obtain ⟨hsteps, habsolute⟩ := steps_ofWords_front hfront hnames hne
  obtain ⟨hsteps, habsolute⟩ := Path.steps_join_of_append root hsteps habsolute
  have hjoined := Path.steps_join_of_append l.projectRoot hsteps habsolute
  exact Disk.place_of_names hjoined hnames hslash hplace hwants

/-- The place where the names of other keys begin. -/
def projectBase (d : Disk) (l : Layout) : Place :=
  d.placeOf (l.projectRoot.join (frontPath []))

/-- A package of the project is found by the names of its key. -/
theorem place_of_project (hkey : Package.Key.isBuiltin key = false)
    (htext : key.toList = ['/'].intercalate names) (hnames : ∀ w ∈ names, IsName w)
    (hslash : '/' ∉ l.buildFile.toList) (hfile : l.fileOf? key = some file)
    (hplace : d.locate file = .ok place) (hwants : Disk.wantsDirectory file = false) :
    place = projectBase d l ++ names.map String.ofList ++ [l.buildFile] := by
  have hwords : (⟨key⟩ : Path) = ofWords ([] ++ names) := by
    rw [List.nil_append, ofWords, ← htext, String.ofList_toList]
  rw [Layout.fileOf?, hkey, Bool.false_and, if_neg Bool.false_ne_true, Layout.packageDirOnDisk,
    Layout.packageDir, hkey, if_neg Bool.false_ne_true, hwords, Option.some_inj] at hfile
  subst hfile
  have hfront : ([] : List (List Char)) ∈ fronts := List.mem_cons_self ..
  obtain ⟨hsteps, habsolute⟩ := steps_ofWords_front hfront hnames fun hempty =>
    absurd hempty.symm (List.cons_ne_nil _ _)
  have hjoined := Path.steps_join_of_append l.projectRoot hsteps habsolute
  exact Disk.place_of_names hjoined hnames hslash hplace hwants

/-- Whether a key has its declaration file at a place.  The names of the key lead there, and
    where they begin is told by what stands before them; nothing does in the keys of the
    project. -/
inductive HasPlace (d : Disk) (l : Layout) (key : String) : Option (List (List Char)) → Place → Prop
  | project {names : List (List Char)} (htext : key.toList = ['/'].intercalate names) :
      HasPlace d l key none (projectBase d l ++ names.map String.ofList ++ [l.buildFile])
  | builtin {root : Path} {front names : List (List Char)} (hroot : l.builtinRoot = some root)
      (htext : key.toList = ['#', '#'] ++ ['/'].intercalate (front ++ names)) :
      HasPlace d l key (some front)
        (baseOf d l root front ++ names.map String.ofList ++ [l.buildFile])

/-- The names behind a base are told by the place. -/
theorem names_eq_of_place {base : Place} {name : String} {names names' : List (List Char)}
    (h : base ++ names.map String.ofList ++ [name] = base ++ names'.map String.ofList ++ [name]) :
    names = names' := by
  rw [List.append_left_inj, List.append_right_inj] at h
  exact List.map_injective_iff.2 (fun _ _ => String.ofList_injective) h

/-- A key is told by its place and by what stands before its names. -/
theorem HasPlace.key_eq {key' : String} {kind : Option (List (List Char))}
    (h : HasPlace d l key kind place) (h' : HasPlace d l key' kind place) : key = key' := by
  rw [← String.toList_inj]
  generalize hplace : place = place' at h'
  cases h with
  | project htext =>
      cases h' with
      | project htext' => rw [htext, htext', names_eq_of_place hplace]
  | builtin hroot htext =>
      cases h' with
      | builtin hroot' htext' =>
          obtain rfl := Option.some.inj (hroot.symm.trans hroot')
          rw [htext, htext', names_eq_of_place hplace]

/-- A declaration file that can be evaluated is at the place of its key. -/
theorem exists_hasPlace (hformed : Package.Key.Formed key) (hslash : '/' ∉ l.buildFile.toList)
    (hfile : l.fileOf? key = some file) {calls : List Call} (hcalls : d.evaluate file = .ok calls) :
    ∃ kind ∈ none :: fronts.map some, ∃ place ∈ d.tree.nodes.map Prod.fst,
      HasPlace d l key kind place := by
  obtain ⟨place, content, hplace, hnode, hwants⟩ := Disk.exists_place_of_evaluate hcalls
  have hmem : ∀ {base : Place}, place = base ++ [l.buildFile] →
      place ∈ d.tree.nodes.map Prod.fst := by
    intro base hat
    exact FileTree.mem_places hnode (by rw [hat]; simp)
  cases hkey : Package.Key.isBuiltin key with
  | false =>
      have hnames : ∀ w ∈ Package.Key.segments key.toList, IsName w :=
        Package.Key.isName_of_mem_segments
      have htext := hformed.toList_eq
      have hat := place_of_project hkey htext hnames hslash hfile hplace hwants
      exact ⟨none, List.mem_cons_self .., place, hmem hat, hat ▸ .project htext⟩
  | true =>
      cases hroot : l.builtinRoot with
      | none =>
          rw [Layout.fileOf?, hkey, hroot] at hfile
          cases hfile
      | some root =>
          obtain ⟨front, hfront, names, hnames, hne, htext⟩ := hformed.exists_front hkey
          have hat := place_of_builtin hroot htext hfront hnames hne hslash hfile hplace hwants
          exact ⟨some front, List.mem_cons_of_mem _ (List.mem_map_of_mem hfront), place, hmem hat,
            hat ▸ .builtin hroot htext⟩

/-- The packages on a disk are few. -/
theorem Disk.length_le_nodes {keys : List String} (hnodup : keys.Nodup)
    (hslash : '/' ∉ l.buildFile.toList)
    (h : ∀ key ∈ keys, Package.Key.Formed key ∧
      ∃ file calls, l.fileOf? key = some file ∧ d.evaluate file = .ok calls) :
    keys.length ≤ 5 * d.tree.nodes.length := by
  classical
  have hcard : keys.toFinset.card ≤
      ((none :: fronts.map some).toFinset ×ˢ (d.tree.nodes.map Prod.fst).toFinset).card := by
    refine Finset.card_le_card_of_forall_subsingleton
      (fun key at_ => HasPlace d l key at_.1 at_.2) ?_ ?_
    · intro key hkey
      obtain ⟨hformed, file, calls, hfile, hcalls⟩ := h key (List.mem_toFinset.1 hkey)
      obtain ⟨kind, hkind, place, hplace, hat⟩ := exists_hasPlace hformed hslash hfile hcalls
      exact ⟨(kind, place), Finset.mem_product.2
        ⟨List.mem_toFinset.2 hkind, List.mem_toFinset.2 hplace⟩, hat⟩
    · rintro ⟨kind, place⟩ - key ⟨-, hat⟩ key' ⟨-, hat'⟩
      exact hat.key_eq hat'
  rw [List.toFinset_card_of_nodup hnodup, Finset.card_product] at hcard
  have hkinds : (none :: fronts.map some).toFinset.card ≤ 5 := List.toFinset_card_le _
  have hnodes : (d.tree.nodes.map Prod.fst).toFinset.card ≤ d.tree.nodes.length :=
    (List.toFinset_card_le _).trans (List.length_map _).le
  exact hcard.trans (Nat.mul_le_mul hkinds hnodes)

end Buildwright
