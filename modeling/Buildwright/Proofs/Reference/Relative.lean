import Buildwright.Proofs.Layout
import Buildwright.Proofs.Path.Walking
import Mathlib.Data.List.TakeWhile

/-! # Relative references

    The path of a relative reference is taken twice: along the names of the key of the
    package that declares it, which gives the key of another package, and from the directory
    of that package, which is where the reference is meant to lead.  Both take the same words
    and end in one directory as long as each step up finds a name to cancel.  A key of the
    builtin tree carries the mark in its first name, so a step up that cancels this name takes
    the mark with it and leads out of the builtin tree; and a key of the project whose first
    name begins with the mark is one of the builtin tree.

    * `Package.Key.walk_of_level`, `Package.Key.foldl_step_of_climbed` — segments and components;
    * `Layout.run_of_formed`, `Layout.run_packageDir_builtin` — directories of packages;
    * `Reference.Follows`, `Reference.follows_iff` — references that lead where their path does. -/

namespace Buildwright

open Buildwright.Path (IsStep named ofWords walk walk_cons)

/-! ## Segments and components -/

namespace Package.Key

variable {w : List Char} {ws walked : List (List Char)}

/-- A word does to names what it does to their components, whatever is below them, unless it
    is a step up that finds no name. -/
theorem walk_word (walked : List (List Char)) (w : List Char) :
    walked = [] ∧ w = ['.', '.'] ∨
      (∀ bottom climbed, walk [w] ⟨named walked ++ bottom, climbed⟩ =
        ⟨named (step walked w) ++ bottom, climbed⟩) ∧
      ∀ below, step (walked ++ below) w = step walked w ++ below := by
  by_cases hstep : IsStep w
  · have hskip : ¬ (w = [] ∨ w = ['.']) := not_or.2 hstep
    by_cases hparent : w = ['.', '.']
    · subst hparent
      cases walked with
      | nil => exact .inl ⟨rfl, rfl⟩
      | cons last walked => exact .inr ⟨fun _ _ => rfl, fun _ => rfl⟩
    · refine .inr ⟨fun bottom climbed => ?_, fun below => ?_⟩
      · rw [walk, List.filterMap_cons, Path.stepOf?, if_neg (not_not.2 hstep), if_neg hparent, step,
          if_neg hskip, if_neg hparent]
        rfl
      · rw [step, step, if_neg hskip, if_neg hskip, if_neg hparent, if_neg hparent]
        rfl
  · have hskip : w = [] ∨ w = ['.'] := by
      rwa [IsStep, not_and_or, not_not, not_not] at hstep
    refine .inr ⟨fun bottom climbed => ?_, fun below => ?_⟩
    · rw [Path.walk_of_not_isStep hstep, step, if_pos hskip]
      rfl
    · rw [step, step, if_pos hskip, if_pos hskip]

/-- Words that never step up too often take only the names, whatever is below them. -/
theorem walk_of_level (h : (walk ws ⟨named walked, false⟩).climbed = false) :
    (∀ bottom climbed, walk ws ⟨named walked ++ bottom, climbed⟩ =
      ⟨named (ws.foldl step walked) ++ bottom, climbed⟩) ∧
    ∀ below, ws.foldl step (walked ++ below) = ws.foldl step walked ++ below := by
  induction ws generalizing walked with
  | nil => exact ⟨fun _ _ => rfl, fun _ => rfl⟩
  | cons w ws ih =>
      rw [walk_cons] at h
      rcases walk_word walked w with ⟨rfl, rfl⟩ | ⟨hwalk, hstep⟩
      · -- this step up is one too many
        rw [Path.climbed_walk rfl] at h
        cases h
      · have hnames := hwalk [] false
        rw [List.append_nil, List.append_nil] at hnames
        rw [hnames] at h
        obtain ⟨hwalks, hsteps⟩ := ih h
        refine ⟨fun bottom climbed => ?_, fun below => ?_⟩
        · rw [walk_cons, hwalk, hwalks, List.foldl_cons]
        · rw [List.foldl_cons, hstep, hsteps, List.foldl_cons]

/-- Words that step up too often for some names leave what they leave without them, even if
    there is one more name below. -/
theorem foldl_step_append_of_climbed (top : List (List Char)) {below : List (List Char)}
    (hbelow : below.length ≤ 1)
    (h : (walk ws ⟨named (top ++ walked), false⟩).climbed = true) :
    ws.foldl step (top ++ (walked ++ below)) = ws.foldl step top := by
  induction ws generalizing top walked with
  | nil => cases h
  | cons w ws ih =>
      rw [List.foldl_cons, List.foldl_cons]
      rcases walk_word top w with ⟨rfl, rfl⟩ | ⟨hwalk, hstep⟩
      · cases walked with
        | nil =>
            -- the name below is cancelled here, where none is left to cancel without it
            have hdrop : step below ['.', '.'] = [] := List.drop_eq_nil_of_le hbelow
            exact congrArg (ws.foldl step) hdrop
        | cons last walked => exact ih [] h
      · rw [Path.named_append, walk_cons, hwalk, ← Path.named_append] at h
        rw [hstep, ih _ h]

theorem foldl_step_of_climbed {below : List (List Char)} (hbelow : below.length ≤ 1)
    (h : (walk ws ⟨named walked, false⟩).climbed = true) :
    ws.foldl step (walked ++ below) = ws.foldl step [] :=
  foldl_step_append_of_climbed [] hbelow h

/-- More names leave no fewer of them. -/
theorem length_foldl_step_le {walked' : List (List Char)} (h : walked.length ≤ walked'.length)
    (ws : List (List Char)) : (ws.foldl step walked).length ≤ (ws.foldl step walked').length := by
  induction ws generalizing walked walked' with
  | nil => exact h
  | cons w ws ih =>
      refine ih ?_
      rw [step, step]
      split_ifs
      · exact h
      · rw [List.length_drop, List.length_drop]
        omega
      · exact Nat.succ_le_succ h

/-- Above the root, what is left of the names is what is left of their components. -/
theorem kept_walk_root (ws walked : List (List Char)) (climbed : Bool) :
    (walk ws ⟨named walked ++ [.root], climbed⟩).kept =
      named (ws.foldl step walked) ++ [.root] := by
  induction ws generalizing walked climbed with
  | nil => rfl
  | cons w ws ih =>
      rw [walk_cons]
      rcases walk_word walked w with ⟨rfl, rfl⟩ | ⟨hwalk, -⟩
      · exact ih [] true
      · rw [hwalk, ih, List.foldl_cons]

/-- One word leaves itself, or nothing. -/
theorem step_nil (w : List Char) : step [] w = [] ∨ step [] w = [w] := by
  rw [step]
  split_ifs
  · exact .inl rfl
  · exact .inl rfl
  · exact .inr rfl

theorem step_nil_of_isName (h : IsName w) : step [] w = [w] := by
  rw [step, if_neg (not_or.2 h.1), if_neg h.2.1]

/-- The mark alone is the key of the root of the builtin tree. -/
theorem Formed.eq_mark_iff {key : String} (h : Formed key) {rest : List (List Char)}
    (hsegments : segments key.toList = ('#' :: '#' :: w) :: rest) :
    key = builtinMark ↔ w = [] ∧ rest = [] := by
  constructor
  · rintro rfl
    rw [show segments builtinMark.toList = [['#', '#']] from by decide +kernel] at hsegments
    cases hsegments
    exact ⟨rfl, rfl⟩
  · rintro ⟨rfl, rfl⟩
    refine String.toList_inj.1 ?_
    rw [h.toList_eq, hsegments]
    rfl

theorem isBuiltin_of_segments {key : String} (h : Formed key) {rest : List (List Char)}
    (hsegments : segments key.toList = ('#' :: '#' :: w) :: rest) : isBuiltin key = true := by
  rw [← h.normalize_eq]
  exact isBuiltin_normalize_iff.2 ⟨w, rest, hsegments⟩

end Package.Key

/-- What lies below the project root is relative and does not climb. -/
theorem Path.Below.relative {dir : Path} (h : dir.Below ⟨""⟩) :
    dir.isAbsolute = false ∧ dir.climbs = false := by
  have hnames := Path.below_empty_iff.1 h
  have habsolute : dir.isAbsolute = false := by
    by_contra hnot
    rw [Bool.not_eq_false] at hnot
    -- the root is kept of an absolute path
    have hkept : (Normal.run dir.components).kept =
        named (dir.words.foldl Package.Key.step []) ++ [.root] := by
      rw [Path.run_of_isAbsolute hnot]
      exact Package.Key.kept_walk_root dir.words [] false
    rw [Path.components_normal, Normal.components, hkept] at hnames
    cases hnames .root (by simp)
  refine ⟨habsolute, ?_⟩
  by_contra hclimbs
  rw [Bool.not_eq_false] at hclimbs
  cases hnames .parent (Path.parent_mem_of_climbs habsolute hclimbs)

/-! ## Directories of packages -/

namespace Layout

open Package.Key (Formed isBuiltin isName_of_mem_segments segments step)

variable {l : Layout} {key : String} {root : Path} {w : List Char} {rest : List (List Char)}

/-- The names of a key are kept, if it is taken as a path. -/
theorem run_of_formed (hkey : Formed key) :
    Normal.run (⟨key⟩ : Path).components = ⟨named (segments key.toList).reverse, false⟩ := by
  rw [← ofWords_segments hkey.normalize_eq, Path.run_ofWords isName_of_mem_segments]

/-- Where the other names of a key of the builtin tree are taken from.  What stands behind the
    mark is taken from the builtin root; where nothing does, the slash behind it leads to the
    root of the file system instead. -/
def front (root : Path) (w : List Char) (rest : List (List Char)) : Normal.State :=
  if w = [] ∧ rest ≠ [] then ⟨[.root], false⟩ else walk [w] (Normal.run root.components)

/-- What is behind the mark is taken from the root of the file system, if this is the builtin
    root. -/
theorem kept_front_root (w : List Char) (rest : List (List Char)) :
    (front ⟨"/"⟩ w rest).kept = named (step [] w) ++ [.root] := by
  rw [front]
  split_ifs with h
  · rw [h.1]
    rfl
  · have hroot : Normal.run (⟨"/"⟩ : Path).components = ⟨named [] ++ [.root], false⟩ := by
      decide +kernel
    rw [hroot, Package.Key.kept_walk_root]
    rfl

/-- The directory of a package of the builtin tree is what stands behind the mark, joined to the
    root of the tree. -/
theorem packageDir_of_segments (hkey : Formed key) (hroot : l.builtinRoot = some root)
    (hsegments : segments key.toList = ('#' :: '#' :: w) :: rest) :
    l.packageDir key = root.join (ofWords (w :: rest)) := by
  have hdrop : key.toList.drop 2 = ['/'].intercalate (w :: rest) := by
    rw [hkey.toList_eq, hsegments, Package.Key.intercalate_mark]
    rfl
  rw [packageDir, if_pos (Package.Key.isBuiltin_of_segments hkey hsegments), hroot, hdrop]
  rfl

/-- Of the directory of a package of the builtin tree, the names behind the first one are
    kept. -/
theorem run_packageDir_builtin (hkey : Formed key) (hroot : l.builtinRoot = some root)
    (hsegments : segments key.toList = ('#' :: '#' :: w) :: rest) :
    Normal.run (l.packageDir key).components =
      ⟨named rest.reverse ++ (front root w rest).kept, (front root w rest).climbed⟩ := by
  have hnames : ∀ v ∈ ('#' :: '#' :: w) :: rest, Package.Key.IsName v :=
    hsegments ▸ isName_of_mem_segments
  have hw : '/' ∉ w := Package.Key.slash_notMem_of_mark hnames
  have hrest : ∀ v ∈ rest, Package.Key.IsName v := (List.forall_mem_cons.1 hnames).2
  have hdir := packageDir_of_segments hkey hroot hsegments
  have hwords : (ofWords (w :: rest)).words = w :: rest :=
    Path.words_ofWords (List.cons_ne_nil _ _)
      (List.forall_mem_cons.2 ⟨hw, fun v hv => (hrest v hv).2.2⟩)
  rw [hdir, front]
  by_cases habsolute : w = [] ∧ rest ≠ []
  · obtain ⟨rfl, hne⟩ := habsolute
    have hslash : (ofWords ([] :: rest)).isAbsolute = true := by
      obtain ⟨v, vs, rfl⟩ := List.exists_cons_of_ne_nil hne
      rw [Path.isAbsolute, ofWords, String.toList_ofList, List.intercalate_cons_cons]
      rfl
    rw [if_pos ⟨rfl, hne⟩, Path.join_of_isAbsolute _ hslash, Path.run_of_isAbsolute hslash, hwords,
      Path.walk_of_not_isStep (by decide), Path.walk_of_names hrest]
  · have hrelative : (ofWords (w :: rest)).isAbsolute = false := by
      by_cases hnil : w = []
      · obtain rfl : rest = [] := not_not.1 fun hne => habsolute ⟨hnil, hne⟩
        rw [hnil]
        rfl
      · exact Path.isAbsolute_ofWords hnil hw rest
    rw [if_neg habsolute, Path.run_join _ hrelative, hwords, walk_cons, Path.walk_of_names hrest]

end Layout

/-! ## Where references lead -/

/-- The package path of a reference. -/
def Reference.path (r : Reference) : Path :=
  ⟨r.package.getD ""⟩

namespace Reference

open Package.Key (Formed builtinMark isBuiltin isName_of_mem_segments segments step walk_of_level
  foldl_step_of_climbed)

variable {r : Reference} {key : String} {w : List Char} {rest : List (List Char)}

/-- Whether a reference leads where its path does: from the directory of the package that
    declares it to the directory of the package that it names, wherever the builtin tree lies,
    as long as the path ends in the tree of the package. -/
def Follows (r : Reference) (key : String) : Prop :=
  ∀ (l : Layout) (root : Path), l.builtinRoot = some root →
    ((l.packageDir key).join r.path).Below (if isBuiltin key then root else ⟨""⟩) →
    (l.packageDir (r.resolve key)).normal = ((l.packageDir key).join r.path).normal

/-- A layout with the builtin tree in a given directory. -/
def layoutAt (root : Path) : Layout where
  projectRoot := ⟨"/proj"⟩
  buildRoot := ⟨"build"⟩
  buildFile := "BUILD"
  builtinRoot := some root

/-- The names of the package that a relative reference names. -/
theorem segments_resolve (hr : r.position = .relative) : segments (r.resolve key).toList =
    (r.path.words.foldl step (segments key.toList).reverse).reverse := by
  have hnames : ∀ path, ∀ w ∈ segments path, Package.Key.IsName w :=
    fun _ => isName_of_mem_segments
  rw [resolve, hr]
  show segments (Package.Key.normalize _).toList = _
  rw [Package.Key.toList_normalize, Package.Key.segments_intercalate (hnames _),
    String.toList_append, String.toList_append]
  exact (congrArg segments (List.append_assoc ..)).trans
    (Package.Key.segments_append_slash key.toList r.path.text.toList)

/-! ### From packages of the project -/

/-- The names of a directory below the project root are those of the package. -/
theorem kept_of_below (hkey : Formed key) (hr : r.position = .relative)
    (hbelow : ((⟨key⟩ : Path).join r.path).Below ⟨""⟩) :
    (Normal.run ((⟨key⟩ : Path).join r.path).components).kept =
      named (segments (r.resolve key).toList).reverse := by
  obtain ⟨habsolute, hlevel⟩ := hbelow.relative
  rw [Path.isAbsolute_join, Bool.or_eq_false_iff] at habsolute
  rw [Path.climbs, Path.run_join _ habsolute.1, Layout.run_of_formed hkey] at hlevel
  have hwalk := (walk_of_level hlevel).1 [] false
  rw [List.append_nil, List.append_nil] at hwalk
  rw [Path.run_join _ habsolute.1, Layout.run_of_formed hkey, hwalk, segments_resolve hr,
    List.reverse_reverse]

/-- From a package of the project, a reference leads where its path does unless the package
    that it names seems to be one of the builtin tree. -/
theorem follows_of_project_iff (hkey : Formed key) (hr : r.position = .relative)
    (h : isBuiltin key = false) : r.Follows key ↔
      (((⟨key⟩ : Path).join r.path).Below ⟨""⟩ → isBuiltin (r.resolve key) = false) := by
  have hresolve : Formed (r.resolve key) := hkey.resolve r
  have hdir : ∀ l : Layout, l.packageDir key = ⟨key⟩ := fun _ => Layout.packageDir_eq h
  constructor
  · intro hfollows hbelow
    by_contra hbuiltin
    rw [Bool.not_eq_false] at hbuiltin
    have heq := hfollows (layoutAt ⟨"/"⟩) ⟨"/"⟩ rfl (by rw [hdir, h]; exact hbelow)
    obtain ⟨w, rest, hsegments, -⟩ := hresolve.exists_segments hbuiltin
    rw [hdir, Path.normal_eq_normal_iff, Layout.run_packageDir_builtin hresolve rfl hsegments,
      Layout.kept_front_root, kept_of_below hkey hr hbelow] at heq
    -- the builtin tree at the root of the file system is not in the project
    have hroot : Component.root ∈ named (segments (r.resolve key).toList).reverse := by
      rw [← heq]
      simp
    cases Path.isName_of_mem_named hroot
  · intro hproject l root hl hbelow
    rw [hdir, h] at hbelow
    rw [hdir, Layout.packageDir_eq (hproject hbelow), Path.normal_eq_normal_iff,
      Layout.run_of_formed hresolve, kept_of_below hkey hr hbelow]

/-! ### From packages of the builtin tree -/

theorem climbs_join_ofWords {q : Path} (h : ∀ v ∈ rest, Package.Key.IsName v)
    (hq : q.isAbsolute = false) :
    ((ofWords rest).join q).climbs = (walk q.words ⟨named rest.reverse, false⟩).climbed := by
  rw [Path.climbs, Path.run_join _ hq, Path.run_ofWords h]

/-- A reference that stays in the first name keeps this name. -/
theorem segments_resolve_of_level (hr : r.position = .relative)
    (hsegments : segments key.toList = ('#' :: '#' :: w) :: rest)
    (hlevel : (walk r.path.words ⟨named rest.reverse, false⟩).climbed = false) :
    segments (r.resolve key).toList =
      ('#' :: '#' :: w) :: (r.path.words.foldl step rest.reverse).reverse := by
  rw [segments_resolve hr, hsegments, List.reverse_cons, (walk_of_level hlevel).2,
    List.reverse_append]
  rfl

/-- A reference that leaves the first name loses all of the key. -/
theorem segments_resolve_of_climbed (hr : r.position = .relative)
    (hsegments : segments key.toList = ('#' :: '#' :: w) :: rest)
    (hclimbed : (walk r.path.words ⟨named rest.reverse, false⟩).climbed = true) :
    segments (r.resolve key).toList = (r.path.words.foldl step []).reverse := by
  rw [segments_resolve hr, hsegments, List.reverse_cons, foldl_step_of_climbed (le_refl 1) hclimbed]

/-- From a package of the builtin tree, a reference that stays in the first name of its package
    leads where its path does, unless it leads on from the root of the tree. -/
theorem follows_of_level (hkey : Formed key) (hr : r.position = .relative)
    (hq : r.path.isAbsolute = false)
    (hsegments : segments key.toList = ('#' :: '#' :: w) :: rest)
    (hlevel : (walk r.path.words ⟨named rest.reverse, false⟩).climbed = false)
    (hmark : key = builtinMark → r.resolve key = builtinMark) : r.Follows key := by
  intro l root hl hbelow
  have hresolve : Formed (r.resolve key) := hkey.resolve r
  have hsegments' := segments_resolve_of_level hr hsegments hlevel
  rw [hkey.eq_mark_iff hsegments, hresolve.eq_mark_iff hsegments'] at hmark
  have hjoin : (Normal.run ((l.packageDir key).join r.path).components).kept =
      named (r.path.words.foldl step rest.reverse) ++ (Layout.front root w rest).kept := by
    rw [Path.run_join _ hq, Layout.run_packageDir_builtin hkey hl hsegments,
      (walk_of_level hlevel).1]
  rw [Path.normal_eq_normal_iff, hjoin, Layout.run_packageDir_builtin hresolve hl hsegments',
    List.reverse_reverse]
  refine congrArg (named _ ++ ·) ?_
  rw [Layout.front, Layout.front]
  by_cases hw : w = []
  · by_cases hrest : rest = []
    · rw [if_neg fun hne => hne.2 (hmark ⟨hw, hrest⟩).2, if_neg fun hne => hne.2 hrest]
    · rw [Layout.front, if_pos ⟨hw, hrest⟩] at hjoin
      rw [if_pos (Package.Key.isBuiltin_of_segments hkey hsegments)] at hbelow
      by_cases hnil : (r.path.words.foldl step rest.reverse).reverse = []
      · -- the path ends in the root of the file system, so the builtin tree begins there
        rw [List.reverse_eq_nil_iff.1 hnil] at hjoin
        rw [if_neg fun hne => hne.2 hnil, if_pos ⟨hw, hrest⟩, hw,
          Path.walk_of_not_isStep (by decide)]
        exact hbelow.kept_eq_root hjoin
      · rw [if_pos ⟨hw, hnil⟩, if_pos ⟨hw, hrest⟩]
  · rw [if_neg fun hne => hw hne.1, if_neg fun hne => hw hne.1]

/-- With the builtin tree at the root of the file system, no package lies at its names below
    this root: a package of the project is not there, and one of the builtin tree lies where
    its names lead without the mark. -/
theorem kept_packageDir_ne (hkey : Formed key) :
    (Normal.run ((layoutAt ⟨"/"⟩).packageDir key).components).kept ≠
      named (segments key.toList).reverse ++ [.root] := by
  intro heq
  cases hbuiltin : isBuiltin key with
  | false =>
      rw [Layout.packageDir_eq hbuiltin, Layout.run_of_formed hkey] at heq
      exact absurd (List.self_eq_append_right.1 heq) (List.cons_ne_nil _ _)
  | true =>
      obtain ⟨w, rest, hsegments, -⟩ := hkey.exists_segments hbuiltin
      rw [Layout.run_packageDir_builtin hkey rfl hsegments, Layout.kept_front_root, hsegments,
        List.reverse_cons, ← List.append_assoc, ← Path.named_append] at heq
      have hfirst : step [] w = ['#' :: '#' :: w] :=
        List.append_cancel_left (Path.named_injective (List.append_cancel_right heq))
      rcases Package.Key.step_nil w with hw | hw
      · rw [hw] at hfirst
        cases hfirst
      · rw [hw] at hfirst
        have hlength := congrArg List.length (List.cons.inj hfirst).1
        rw [List.length_cons, List.length_cons] at hlength
        omega

/-- A reference whose path ends at the names of its package below the root of the file system,
    with the builtin tree there, does not lead where its path does. -/
theorem not_follows_of_kept (hkey : Formed key) (hbuiltin : isBuiltin key = true)
    (h : (Normal.run (((layoutAt ⟨"/"⟩).packageDir key).join r.path).components).kept =
      named (segments (r.resolve key).toList).reverse ++ [.root]) : ¬ r.Follows key := by
  intro hfollows
  have heq := hfollows (layoutAt ⟨"/"⟩) ⟨"/"⟩ rfl (by
    rw [if_pos hbuiltin]
    exact Path.below_of_kept (h.trans (congrArg _ (by decide +kernel))))
  rw [Path.normal_eq_normal_iff, h] at heq
  exact kept_packageDir_ne (hkey.resolve r) heq

/-- From a package of the builtin tree, a reference that leaves the first name of its package
    does not lead where its path does. -/
theorem not_follows_of_climbed (hkey : Formed key) (hr : r.position = .relative)
    (hq : r.path.isAbsolute = false)
    (hsegments : segments key.toList = ('#' :: '#' :: w) :: rest)
    (hclimbed : (walk r.path.words ⟨named rest.reverse, false⟩).climbed = true) :
    ¬ r.Follows key := by
  refine not_follows_of_kept hkey (Package.Key.isBuiltin_of_segments hkey hsegments) ?_
  have hfirst : (step [] w).length ≤ 1 := by
    rcases Package.Key.step_nil w with hw | hw
    · simp [hw]
    · simp [hw]
  rw [Path.run_join _ hq, Layout.run_packageDir_builtin hkey rfl hsegments,
    Layout.kept_front_root, ← List.append_assoc, ← Path.named_append,
    Package.Key.kept_walk_root, foldl_step_of_climbed hfirst hclimbed,
    segments_resolve_of_climbed hr hsegments hclimbed, List.reverse_reverse]

/-- From a package of the builtin tree, a reference with an absolute path does not lead where
    its path does: the path is taken from the package all the same. -/
theorem not_follows_of_isAbsolute (hkey : Formed key) (hr : r.position = .relative)
    (hq : r.path.isAbsolute = true)
    (hsegments : segments key.toList = ('#' :: '#' :: w) :: rest) (hw : Package.Key.IsName w) :
    ¬ r.Follows key := by
  have hbuiltin := Package.Key.isBuiltin_of_segments hkey hsegments
  have hpath : (Normal.run r.path.components).kept =
      named (r.path.words.foldl step []) ++ [.root] := by
    rw [Path.run_of_isAbsolute hq]
    exact Package.Key.kept_walk_root r.path.words [] false
  cases hclimbed : (walk r.path.words ⟨named rest.reverse, false⟩).climbed with
  | true =>
      refine not_follows_of_kept hkey hbuiltin ?_
      rw [Path.join_of_isAbsolute _ hq, hpath, segments_resolve_of_climbed hr hsegments hclimbed,
        List.reverse_reverse]
  | false =>
      intro hfollows
      have heq := hfollows (layoutAt ⟨"/"⟩) ⟨"/"⟩ rfl (by
        rw [if_pos hbuiltin, Path.join_of_isAbsolute _ hq]
        exact Path.below_of_kept (hpath.trans (congrArg _ (by decide +kernel))))
      rw [Path.join_of_isAbsolute _ hq, Path.normal_eq_normal_iff, hpath,
        Layout.run_packageDir_builtin (hkey.resolve r) rfl
          (segments_resolve_of_level hr hsegments hclimbed),
        Layout.kept_front_root, List.reverse_reverse, Package.Key.step_nil_of_isName hw,
        ← List.append_assoc, ← Path.named_append] at heq
      -- the first name is one more than the path has
      have hnames := congrArg List.length
        (Path.named_injective (List.append_cancel_right heq))
      have hle : (r.path.words.foldl step []).length ≤
          (r.path.words.foldl step rest.reverse).length :=
        Package.Key.length_foldl_step_le (Nat.zero_le _) r.path.words
      rw [List.length_append, List.length_singleton] at hnames
      omega

/-- From the root of the builtin tree, a reference to another package leads to the root of the
    file system. -/
theorem not_follows_of_mark (hkey : Formed key) (hr : r.position = .relative)
    (hq : r.path.isAbsolute = false)
    (hsegments : segments key.toList = ('#' :: '#' :: w) :: rest)
    (hlevel : (walk r.path.words ⟨named rest.reverse, false⟩).climbed = false)
    (hmark : key = builtinMark) (hne : r.resolve key ≠ builtinMark) : ¬ r.Follows key := by
  intro hfollows
  have hresolve : Formed (r.resolve key) := hkey.resolve r
  obtain ⟨rfl, rfl⟩ := (hkey.eq_mark_iff hsegments).1 hmark
  have hsegments' := segments_resolve_of_level hr hsegments hlevel
  have hnames : (r.path.words.foldl step [].reverse).reverse ≠ [] := fun hnil =>
    hne ((hresolve.eq_mark_iff hsegments').2 ⟨rfl, hnil⟩)
  have hjoin : (Normal.run (((layoutAt ⟨"/std"⟩).packageDir key).join r.path).components).kept =
      named (r.path.words.foldl step [].reverse) ++
        (Normal.run (⟨"/std"⟩ : Path).components).kept := by
    rw [Path.run_join _ hq, Layout.run_packageDir_builtin hkey rfl hsegments,
      (walk_of_level hlevel).1]
    rfl
  have heq := hfollows (layoutAt ⟨"/std"⟩) ⟨"/std"⟩ rfl (by
    rw [if_pos (Package.Key.isBuiltin_of_segments hkey hsegments)]
    exact Path.below_of_kept hjoin)
  rw [Path.normal_eq_normal_iff, hjoin, Layout.run_packageDir_builtin hresolve rfl hsegments',
    List.reverse_reverse, Layout.front, if_pos ⟨rfl, hnames⟩] at heq
  have hroot := List.append_cancel_left heq
  revert hroot
  decide +kernel

/-- The package path behind the first name of a key. -/
def inner (key : String) : Path :=
  ⟨String.ofList ((key.toList.dropWhile (· ≠ '/')).drop 1)⟩

theorem inner_eq (hkey : Formed key) {first : List Char}
    (hsegments : segments key.toList = first :: rest) : inner key = ofWords rest := by
  have hfirst : ∀ c ∈ first, decide (c ≠ '/') = true := by
    intro c hc
    have hname : Package.Key.IsName first :=
      isName_of_mem_segments first (hsegments ▸ List.mem_cons_self ..)
    exact decide_eq_true fun hslash => hname.2.2 (hslash ▸ hc)
  rw [inner, hkey.toList_eq, hsegments]
  cases rest with
  | nil =>
      rw [List.intercalate_singleton, List.dropWhile_eq_nil_iff.2 hfirst]
      rfl
  | cons v vs =>
      rw [List.intercalate_cons_cons, List.append_assoc, List.dropWhile_append_of_pos hfirst]
      rfl

/-- **Relative references follow their paths.** From a package of the project, a reference leads
    to the directory that its path leads to unless the first name of the package that it names
    begins with the mark of the builtin tree.  From a package of the builtin tree, it does so if
    and only if its path does not step out of the first name of the key, where it loses the
    mark, and does not lead on from the root of the tree, where a slash comes to stand behind
    the mark; and an absolute path is not followed. -/
theorem follows_iff (hkey : Formed key) (hr : r.position = .relative) :
    (isBuiltin key = false → (r.Follows key ↔
      (((⟨key⟩ : Path).join r.path).Below ⟨""⟩ → isBuiltin (r.resolve key) = false))) ∧
    (isBuiltin key = true → r.path.isAbsolute = false → (r.Follows key ↔
      ((inner key).join r.path).climbs = false ∧
        (key = builtinMark → r.resolve key = builtinMark))) ∧
    (∀ w rest, segments key.toList = ('#' :: '#' :: w) :: rest → Package.Key.IsName w →
      r.path.isAbsolute = true → ¬ r.Follows key) := by
  refine ⟨follows_of_project_iff hkey hr, fun hbuiltin hq => ?_, fun w rest hsegments hw hq =>
    not_follows_of_isAbsolute hkey hr hq hsegments hw⟩
  obtain ⟨w, rest, hsegments, -⟩ := hkey.exists_segments hbuiltin
  have hnames : ∀ v ∈ ('#' :: '#' :: w) :: rest, Package.Key.IsName v :=
    hsegments ▸ isName_of_mem_segments
  rw [inner_eq hkey hsegments, climbs_join_ofWords (List.forall_mem_cons.1 hnames).2 hq]
  cases hclimbed : (walk r.path.words ⟨named rest.reverse, false⟩).climbed with
  | true =>
      refine iff_of_false (not_follows_of_climbed hkey hr hq hsegments hclimbed) ?_
      rintro ⟨hlevel, -⟩
      cases hlevel
  | false =>
      constructor
      · intro hfollows
        refine ⟨rfl, fun hmark => ?_⟩
        by_contra hne
        exact not_follows_of_mark hkey hr hq hsegments hclimbed hmark hne hfollows
      · exact fun h => follows_of_level hkey hr hq hsegments hclimbed h.2

/-- A reference to the package beside the one that declares it. -/
def beside : Reference where
  position := .relative
  package := some "../png"
  rule := "png"
  version := none

/-- From `##lib/zlib`, the path `../png` leads to `##lib/png`, but from `##zlib` it leads out of
    the builtin tree. -/
theorem beside_follows : beside.Follows "##lib/zlib" ∧ ¬ beside.Follows "##zlib" := by
  have hpath : beside.path.isAbsolute = false := by decide +kernel
  have hlib : Formed "##lib/zlib" := ⟨"lib/zlib", .inr (by decide +kernel)⟩
  have hzlib : Formed "##zlib" := ⟨"zlib", .inr (by decide +kernel)⟩
  constructor
  · refine ((follows_iff (r := beside) hlib rfl).2.1 (by decide +kernel) hpath).2 ⟨?_, ?_⟩
    · decide +kernel
    · exact fun h => absurd h (by decide +kernel)
  · intro h
    have hlevel := (((follows_iff (r := beside) hzlib rfl).2.1 (by decide +kernel) hpath).1 h).1
    exact absurd hlevel (by decide +kernel)

end Reference

end Buildwright
