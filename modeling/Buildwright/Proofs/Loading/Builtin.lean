import Buildwright.Proofs.Layout
import Buildwright.Proofs.Loading.Order
import Buildwright.Proofs.Package.Frozen
import Buildwright.Proofs.Reference.Text

/-! # Packages of the builtin tree

    A reference with the mark of the builtin tree names a package whose key begins
    with the mark.  A path of the project does too if its first name begins like
    the mark, and then one key stands for two packages.  Loading comes to a
    package of the builtin tree along references with the mark, or along such
    paths.

    * `Reference.NamesBuiltin` — the keys that references with the mark resolve to;
    * `LedFrom` — where relative references lead from a package;
    * `ByMark`, `ByPath` — how a key of the builtin tree is first met;
    * `builtin_packages_met` — which project paths give a builtin key, and loading. -/

namespace Buildwright

open Package.Key (Mimics builtinMark isBuiltin normalize segments)

/-! ## Keys that references with the mark resolve to -/

namespace Reference

variable {key : String}

/-- Whether some reference with the mark of the builtin tree resolves to a key. -/
def NamesBuiltin (key : String) : Prop :=
  ∃ text r, parse text = .ok r ∧ r.position = .builtin ∧ ∀ current, r.resolve current = key

/-- The path of a package, and of its directory with a slash at the end. -/
theorem segments_concat_slash (path : List Char) : segments (path ++ ['/']) = segments path := by
  rw [Package.Key.segments_append_slash]
  exact List.reverse_reverse _

theorem namesBuiltin_iff : NamesBuiltin key ↔ ∃ path, key = builtinMark ++ normalize path := by
  constructor
  · rintro ⟨text, r, -, hposition, hresolve⟩
    refine ⟨r.package.getD "", ?_⟩
    rw [← hresolve "", resolve, hposition]
  · rintro ⟨path, rfl⟩
    -- a slash behind the package keeps backslashes and `/BUILD` apart from the colon
    let r : Reference := ⟨.builtin, some (path ++ "/"), "rule", none⟩
    have hlast : (path ++ "/").toList.getLast? = some '/' := by
      rw [String.toList_append]
      exact List.getLast?_concat
    have hreadable : r.Readable := by
      have hrule : "rule" ≠ "" ∧ '@' ∉ "rule".toList := by decide
      have hversion : r.version ≠ some "" := (Option.some_ne_none _).symm
      have hposition : Position.builtin ≠ .this ∧ Position.builtin ≠ .relative := by decide
      refine ⟨hrule, hversion, .inr ⟨hposition.1, path ++ "/", rfl, ?_, ?_, ?_,
        fun h => absurd h hposition.2⟩⟩
      · rw [hlast]
        decide
      · intro heq
        rw [heq] at hlast
        exact absurd hlast (by decide)
      · rintro ⟨front, heq⟩
        rw [← heq, List.getLast?_append] at hlast
        cases hlast
    refine ⟨r.text, r, (parse_text_iff r).2 hreadable, rfl, fun current => ?_⟩
    show builtinMark ++ normalize (path ++ "/") = _
    rw [Package.Key.normalize, String.toList_append]
    show builtinMark ++ String.ofList (['/'].intercalate (segments (path.toList ++ ['/']))) = _
    rw [segments_concat_slash, Package.Key.normalize]

end Reference

namespace Loading

open Reference (NamesBuiltin)

variable {layout : Layout} {w : Workspace} {roots : List Path} {c : Catalog} {key : String}

/-! ## How loading comes to a package -/

/-- The packages that relative references lead to, from package to package. -/
inductive LedFrom (c : Catalog) (start : String → Prop) : String → Prop
  | start {key : String} (h : start key) : LedFrom c start key
  | relative {rule : Rule} {raw : String} {r : Reference} (h : LedFrom c start rule.package)
      (hrule : rule ∈ c.rules) (hraw : raw ∈ rule.deps) (hparse : Reference.parse raw = .ok r)
      (hposition : r.position = .relative) : LedFrom c start (r.resolve rule.package)

/-- The packages that references with the mark name. -/
inductive ByMark (c : Catalog) : String → Prop
  | intro {rule : Rule} {raw : String} {r : Reference} (hrule : rule ∈ c.rules)
      (hraw : raw ∈ rule.deps) (hparse : Reference.parse raw = .ok r)
      (hposition : r.position = .builtin) : ByMark c (r.resolve rule.package)

/-- The packages of the builtin tree that paths of the project name. -/
inductive ByPath (layout : Layout) (roots : List Path) (c : Catalog) : String → Prop
  /-- The path of a root file. -/
  | root {file full : Path} {key : String} (hfile : file ∈ roots)
      (hkey : layout.packageOf file = .ok (key, full)) (hbuiltin : isBuiltin key = true) :
      ByPath layout roots c key
  /-- The path of an absolute reference. -/
  | absolute {rule : Rule} {raw : String} {r : Reference} (hrule : rule ∈ c.rules)
      (hraw : raw ∈ rule.deps) (hparse : Reference.parse raw = .ok r)
      (hposition : r.position = .absolute)
      (hbuiltin : isBuiltin (r.resolve rule.package) = true) :
      ByPath layout roots c (r.resolve rule.package)
  /-- The path of a relative reference out of a package of the project. -/
  | relative {rule : Rule} {raw : String} {r : Reference} (hrule : rule ∈ c.rules)
      (hraw : raw ∈ rule.deps) (hparse : Reference.parse raw = .ok r)
      (hposition : r.position = .relative) (hproject : isBuiltin rule.package = false)
      (hbuiltin : isBuiltin (r.resolve rule.package) = true) :
      ByPath layout roots c (r.resolve rule.package)

/-- Whether a package of the builtin tree is accounted for. -/
def Met (layout : Layout) (roots : List Path) (c : Catalog) (key : String) : Prop :=
  isBuiltin key = true → LedFrom c (ByMark c) key ∨ LedFrom c (ByPath layout roots c) key

/-- What a rule of a package that is accounted for refers to is accounted for. -/
theorem Met.resolve {rule : Rule} {raw : String} {r : Reference}
    (h : Met layout roots c rule.package) (hrule : rule ∈ c.rules) (hraw : raw ∈ rule.deps)
    (hparse : Reference.parse raw = .ok r) : Met layout roots c (r.resolve rule.package) := by
  intro hbuiltin
  cases hposition : r.position with
  | absolute => exact .inr (.start (.absolute hrule hraw hparse hposition hbuiltin))
  | builtin => exact .inl (.start (.intro hrule hraw hparse hposition))
  | this =>
      have hthis : r.resolve rule.package = rule.package := by rw [Reference.resolve, hposition]
      rw [hthis] at hbuiltin ⊢
      exact h hbuiltin
  | relative =>
      cases hpackage : isBuiltin rule.package with
      | false => exact .inr (.start (.relative hrule hraw hparse hposition hpackage hbuiltin))
      | true =>
          exact (h hpackage).imp (fun hled => .relative hled hrule hraw hparse hposition)
            fun hled => .relative hled hrule hraw hparse hposition

/-- Every package that has been adopted is accounted for, and every one that waits. -/
theorem Filled.met {ps : List Contents} {s : Progress} (h : Filled layout w roots ps s) :
    (∀ p ∈ ps, Met layout roots s.catalog p.key) ∧
      ∀ task ∈ s.queue, Met layout roots s.catalog task.key := by
  refine h.least _ ⟨fun file hfile key full hkey hbuiltin =>
    .inr (.start (.root hfile hkey hbuiltin)), fun p hp hmet target htarget => ?_⟩
  obtain ⟨d, hd, hmem⟩ := List.mem_flatMap.1 htarget
  obtain ⟨raw, hraw, hresolve⟩ := List.mem_filterMap.1 hmem
  obtain ⟨r, hparse⟩ := Reference.exists_target?_iff.1 ⟨target, hresolve⟩
  rw [Reference.target?, hparse, Option.some_inj] at hresolve
  obtain ⟨rule, hrule, hkey, rfl⟩ := Catalog.exists_rule_of_mem_adoptAll (c := {}) hp hd
  rw [← h.catalog] at hrule
  rw [← hresolve, ← hkey]
  exact Met.resolve (hkey ▸ hmet) hrule hraw hparse

/-- **When the builtin tree and the project stay apart**: an absolute reference, or a root file,
    has a key that references with the mark resolve to as well if and only if the names of its
    path are those of such a key, the first one beginning with the mark.  In every run of
    loading, each package of the builtin tree is one that a reference with the mark led to,
    or one that such a path led to. -/
theorem builtin_packages_met {s : Progress} (hs : Reachable layout w roots s) :
    (∀ text r current, Reference.parse text = .ok r → r.position = .absolute →
      (NamesBuiltin (r.resolve current) ↔ Mimics (segments (r.package.getD "").toList))) ∧
    (∀ file key full, layout.packageOf file = .ok (key, full) →
      (NamesBuiltin key ↔ Mimics (segments key.toList))) ∧
    ∀ key, s.catalog.contains key = true → isBuiltin key = true →
      LedFrom s.catalog (ByMark s.catalog) key ∨
        LedFrom s.catalog (ByPath layout roots s.catalog) key := by
  refine ⟨fun text r current _ hposition => ?_, fun file key full hkey => ?_,
    fun key hcontains hbuiltin => ?_⟩
  · have hresolve : r.resolve current = normalize (r.package.getD "") := by
      rw [Reference.resolve, hposition]
    rw [hresolve, Reference.namesBuiltin_iff, Package.Key.exists_mark_append_iff]
  · obtain ⟨-, relative, -, rfl⟩ := Layout.packageOf_eq_ok_iff.1 hkey
    have hnormal : normalize (Layout.keyBelow relative) = Layout.keyBelow relative := by
      rw [Layout.keyBelow]
      cases relative.parent? with
      | some dir => exact Package.Key.normalize_normalize _
      | none => rfl
    rw [Reference.namesBuiltin_iff, ← Package.Key.exists_mark_append_iff, hnormal]
  · obtain ⟨ps, hps⟩ := filled_reachable hs
    obtain ⟨p, hp, rfl⟩ := List.mem_map.1 (hps.contains_iff.1 hcontains)
    exact hps.met.1 p hp hbuiltin

/-! ## A directory of the project with the mark in its name -/

/-- A project in `/proj` with a builtin tree in `/std`. -/
def markedLayout : Layout :=
  { plainLayout with builtinRoot := some ⟨"/std"⟩ }

/-- The top package refers to a package of the builtin tree and to one of a directory whose
    name begins with the mark. -/
def markedDirectory : Workspace where
  evaluate file :=
    if file = ⟨"/proj/BUILD"⟩ then .ok [libraryCall "app" ["##io:file", "//##x:base"]]
    else if file = ⟨"/std/io/BUILD"⟩ then .ok [libraryCall "file" []]
    else if file = ⟨"/std/x/BUILD"⟩ then .ok [libraryCall "base" []]
    else .error (.fault (.io file.text .notFound))
  expand _ _ := .ok []
  capacity := 3

/-- The packages in the order of loading. -/
def markedContents : List Contents :=
  [⟨"", ⟨"/proj/BUILD"⟩, [library "app" ["##io:file", "//##x:base"]]⟩,
    ⟨"##io", ⟨"/std/io/BUILD"⟩, [library "file" []]⟩,
    ⟨"##x", ⟨"/std/x/BUILD"⟩, [library "base" []]⟩]

theorem load_markedDirectory :
    load markedLayout markedDirectory [⟨"BUILD"⟩] = .ok (Catalog.adoptAll {} markedContents) := by
  have htop : loadPackage markedLayout markedDirectory {} ⟨"", ⟨"/proj/BUILD"⟩, none⟩ =
      .ok (Catalog.adoptAll {} (markedContents.take 1),
        [⟨"##io", ⟨"/std/io/BUILD"⟩, some ⟨"app@DEFAULT", "##io:file"⟩⟩,
          ⟨"##x", ⟨"/std/x/BUILD"⟩, some ⟨"app@DEFAULT", "//##x:base"⟩⟩]) := rfl
  have hio : loadPackage markedLayout markedDirectory (Catalog.adoptAll {} (markedContents.take 1))
      ⟨"##io", ⟨"/std/io/BUILD"⟩, some ⟨"app@DEFAULT", "##io:file"⟩⟩ =
      .ok (Catalog.adoptAll {} (markedContents.take 2), []) := rfl
  have hx : loadPackage markedLayout markedDirectory (Catalog.adoptAll {} (markedContents.take 2))
      ⟨"##x", ⟨"/std/x/BUILD"⟩, some ⟨"app@DEFAULT", "//##x:base"⟩⟩ =
      .ok (Catalog.adoptAll {} markedContents, []) := rfl
  show run markedLayout markedDirectory 4 {} [⟨"", ⟨"/proj/BUILD"⟩, none⟩] = _
  rw [run_succ (by decide), htop]
  show run markedLayout markedDirectory 3 _ [_, _] = _
  rw [run_succ (by decide), hio]
  show run markedLayout markedDirectory 2 _ [_] = _
  rw [run_succ (by decide), hx]
  show run markedLayout markedDirectory 1 _ [] = _
  rw [run]

/-- The absolute reference and the root file of the directory have the key of a package of the
    builtin tree, and loading reads the builtin tree for it. -/
theorem markedDirectory_met :
    NamesBuiltin "##x" ∧ markedLayout.packageOf ⟨"##x/BUILD"⟩ = .ok ("##x", ⟨"/proj/##x/BUILD"⟩) ∧
      ∃ c, load markedLayout markedDirectory [⟨"BUILD"⟩] = .ok c ∧
        (LedFrom c (ByMark c) "##io" ∨ LedFrom c (ByPath markedLayout [⟨"BUILD"⟩] c) "##io") := by
  obtain ⟨s, hs, -, hout⟩ := exists_run_of_load load_markedDirectory
  obtain ⟨-, hcatalog⟩ := Progress.outcome_eq_ok_iff.1 hout
  obtain ⟨hreference, -, hload⟩ := builtin_packages_met hs
  have hparse : Reference.parse "//##x:base" = .ok ⟨.absolute, some "##x", "base", none⟩ := rfl
  have hmimics : Mimics (segments "##x".toList) :=
    ⟨['x'], [], by decide +kernel, .inl ⟨by decide, by decide, by decide⟩⟩
  have hmet := hload "##io"
  rw [hcatalog] at hmet
  exact ⟨(hreference "//##x:base" _ "" hparse rfl).2 hmimics, by rfl, _, load_markedDirectory,
    hmet (Catalog.contains_adoptAll_empty.2 (by decide)) rfl⟩

end Loading

end Buildwright
