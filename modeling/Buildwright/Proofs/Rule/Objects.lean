import Buildwright.Proofs.Path.Normal
import Buildwright.Proofs.Preparing
import Buildwright.Proofs.Rule.Names

/-! # Objects that are shared

    The object of a source is named by the path of the source behind the
    directory of its package, or, if the source lies elsewhere, by the names of
    its path.  So objects of different rules and build types differ as quoted
    names do, and a rule gives two sources one object if and only if one of them
    lies in its package where the names of the other lead.

    * `Preparer.stemOf`, `Preparer.stem_eq` — what names an object;
    * `Rule.components_objectPath` — the path of an object;
    * `Preparer.SharesObject`, `Prepared.shared_objects` — sources of one object. -/

namespace Buildwright

open Buildwright.Path

/-! ## Stems -/

namespace Preparer

variable {path dir : Path}

/-- The components that name the object of a source: those behind the directory of the
    package, or the names of a path that leads elsewhere. -/
def stemOf (path dir : Path) : List Component :=
  if dir.components <+: path.components then path.components.drop dir.components.length
  else path.components.filter Component.isName

theorem map_namesOf (path : Path) :
    (namesOf path).map String.toList =
      (path.components.filter Component.isName).map Component.word := by
  rw [namesOf]
  induction path.components with
  | nil => rfl
  | cons c rest ih =>
      cases c with
      | root | current | parent => exact ih
      | name n => exact congrArg (n.toList :: ·) ih

/-- The stem of a source in normal form is the text of the components that name its object. -/
theorem stem_eq (hpath : path = ofComponents path.components)
    (hdir : dir = ofComponents dir.components)
    (hform : Normal.Form path.components) (hform' : Normal.Form dir.components)
    (hproper : ∀ c ∈ stemOf path dir, c.Proper) :
    stem path dir = (ofWords ((stemOf path dir).map Component.word)).text := by
  rw [stemOf] at hproper ⊢
  by_cases hbelow : dir.components <+: path.components
  · rw [if_pos hbelow] at hproper ⊢
    obtain ⟨rest, hrest⟩ := hbelow
    rw [← hrest, List.drop_left] at hproper ⊢
    have hstrip : path.stripPrefix? dir = some (ofWords (rest.map Component.word)) := by
      rw [hpath, hdir, ← hrest]
      exact (hrest ▸ hform).stripPrefix?_ofComponents hform' hproper
    rw [stem, hstrip]
  · have hstrip : path.stripPrefix? dir = none := by
      rw [stripPrefix?, if_neg fun htake => hbelow (List.prefix_iff_eq_take.2 htake.symm)]
    rw [if_neg hbelow, stem, hstrip, ← map_namesOf, ofWords]
    refine String.toList_inj.1 ?_
    rw [String.toList_ofList, String.toList_intercalate]
    rfl

end Preparer

/-! ## Paths of objects -/

/-- Words of which the last one has the ending of an object. -/
def objectWords : List (List Char) → List (List Char)
  | [] => [".o".toList]
  | [w] => [w ++ ".o".toList]
  | w :: v :: ws => w :: objectWords (v :: ws)

theorem intercalate_objectWords (ws : List (List Char)) :
    ['/'].intercalate (objectWords ws) = ['/'].intercalate ws ++ ".o".toList := by
  induction ws with
  | nil => rfl
  | cons w ws ih =>
      cases ws with
      | nil => rw [objectWords, List.intercalate_singleton, List.intercalate_singleton]
      | cons v ws =>
          have hne : objectWords (v :: ws) ≠ [] := by cases ws <;> exact List.cons_ne_nil _ _
          obtain ⟨u, us, hus⟩ := List.exists_cons_of_ne_nil hne
          rw [objectWords, List.intercalate_cons_cons, List.append_assoc, ← ih, hus,
            List.intercalate_cons_cons]

theorem objectWords_ne_nil (ws : List (List Char)) : objectWords ws ≠ [] := by
  match ws with
  | [] | [_] | _ :: _ :: _ => exact List.cons_ne_nil _ _

theorem isStep_objectWords {ws : List (List Char)} (h : ∀ w ∈ ws, IsStep w ∧ '/' ∉ w) :
    ∀ w ∈ objectWords ws, IsStep w ∧ '/' ∉ w := by
  induction ws with
  | nil =>
      intro w hw
      rw [List.mem_singleton.1 hw]
      decide
  | cons w ws ih =>
      obtain ⟨hw, hws⟩ := List.forall_mem_cons.1 h
      cases ws with
      | nil =>
          intro v hv
          rw [List.mem_singleton.1 hv, List.mem_append, not_or]
          refine ⟨⟨by simp, fun heq => ?_⟩, hw.2, by decide⟩
          have hlength := congrArg List.length heq
          rw [List.length_append] at hlength
          exact absurd hlength (by simp)
      | cons v ws => exact List.forall_mem_cons.2 ⟨hw, ih hws⟩

/-- The ending can be taken off again. -/
theorem objectWords_injOn {ws vs : List (List Char)} (hws : ∀ w ∈ ws, w ≠ [])
    (hvs : ∀ w ∈ vs, w ≠ []) (h : objectWords ws = objectWords vs) : ws = vs := by
  induction ws generalizing vs with
  | nil =>
      match vs with
      | [] => rfl
      | [v] =>
          have hv : [] = v := List.append_cancel_right (List.cons.inj h).1
          exact absurd hv.symm (hvs v (List.mem_cons_self ..))
      | v :: u :: us => exact absurd (List.cons.inj h).2.symm (objectWords_ne_nil _)
  | cons w ws ih =>
      match ws, vs with
      | [], [] =>
          have hw : w = [] := List.append_cancel_right (List.cons.inj h).1
          exact absurd hw (hws w (List.mem_cons_self ..))
      | [], [v] => rw [List.append_cancel_right (List.cons.inj h).1]
      | [], v :: u :: us => exact absurd (List.cons.inj h).2.symm (objectWords_ne_nil _)
      | w' :: ws, [] => exact absurd (List.cons.inj h).2 (objectWords_ne_nil _)
      | w' :: ws, [v] => exact absurd (List.cons.inj h).2 (objectWords_ne_nil _)
      | w' :: ws, v :: u :: us =>
          obtain ⟨rfl, hrest⟩ := List.cons.inj h
          rw [ih (fun x hx => hws x (List.mem_cons_of_mem _ hx))
            (fun x hx => hvs x (List.mem_cons_of_mem _ hx)) hrest]

/-- Steps can be read back from their components. -/
theorem Path.map_word_filterMap {ws : List (List Char)} (h : ∀ w ∈ ws, IsStep w) :
    (ws.filterMap stepOf?).map Component.word = ws := by
  induction ws with
  | nil => rfl
  | cons w ws ih =>
      obtain ⟨hw, hws⟩ := List.forall_mem_cons.1 h
      rw [List.filterMap_cons, stepOf?, if_neg (not_not.2 hw)]
      by_cases hparent : w = ['.', '.']
      · rw [if_pos hparent, List.map_cons, ih hws, hparent]
        rfl
      · rw [if_neg hparent, List.map_cons, ih hws]
        exact congrArg (· :: ws) String.toList_ofList

namespace Rule

variable {r r' : Rule} {buildRoot : Path} {t t' : BuildType} {s s' : SourceFile}
  {cs cs' : List Component}

theorem components_typeFolder (r : Rule) (buildRoot : Path) (t : BuildType) :
    ((r.workingFolder buildRoot).join ⟨t.name⟩).components =
      buildRoot.components ++ [.name r.quotedName, .name t.name] := by
  have h : ((r.workingFolder buildRoot).join ⟨String.ofList t.name.toList⟩).components =
      (r.workingFolder buildRoot).components ++ [.name (String.ofList t.name.toList)] := by
    cases t <;> exact components_join_name _ (by decide) (by decide) (by decide)
  rw [String.ofList_toList] at h
  rw [h, components_workingFolder, List.append_assoc]
  rfl

/-- The object of a source lies in the folder of its rule and its build type. -/
theorem components_objectPath (hcs : ∀ c ∈ cs, c.Proper)
    (hstem : s.stem = (ofWords (cs.map Component.word)).text) :
    (r.objectPath buildRoot t s).components = buildRoot.components ++
      [.name r.quotedName, .name t.name] ++
        (objectWords (cs.map Component.word)).filterMap stepOf? := by
  have hsteps : ∀ w ∈ cs.map Component.word, IsStep w ∧ '/' ∉ w := by
    intro w hw
    obtain ⟨c, hc, rfl⟩ := List.mem_map.1 hw
    exact (hcs c hc).isStep
  have htidy := tidy_of_forall (objectWords_ne_nil _) (isStep_objectWords hsteps)
  have htext : (⟨s.stem ++ ".o"⟩ : Path) = ofWords (objectWords (cs.map Component.word)) := by
    refine ext_toList ?_
    rw [String.toList_append, hstem, ofWords, ofWords, String.toList_ofList]
    exact (intercalate_objectWords _).symm.trans String.toList_ofList.symm
  have hfolder : ((r.workingFolder buildRoot).join ⟨t.name⟩).text ≠ "" := by
    intro hempty
    have hnone : ((r.workingFolder buildRoot).join ⟨t.name⟩).components = [] := by
      rw [show (r.workingFolder buildRoot).join ⟨t.name⟩ = ⟨""⟩ from congrArg Path.mk hempty]
      rfl
    rw [components_typeFolder] at hnone
    simp at hnone
  rw [objectPath, htext, components_join hfolder htidy, components_typeFolder]

/-- Objects are told apart by quoted names, build types and stems. -/
theorem objectPath_same_iff_stem (hcs : ∀ c ∈ cs, c.Proper)
    (hstem : s.stem = (ofWords (cs.map Component.word)).text) (hcs' : ∀ c ∈ cs', c.Proper)
    (hstem' : s'.stem = (ofWords (cs'.map Component.word)).text) :
    (r.objectPath buildRoot t s).Same (r'.objectPath buildRoot t' s') ↔
      r.quotedName = r'.quotedName ∧ t = t' ∧ cs = cs' := by
  have hsteps : ∀ ds : List Component, (∀ c ∈ ds, c.Proper) →
      ∀ w ∈ ds.map Component.word, IsStep w ∧ '/' ∉ w := by
    intro ds hds w hw
    obtain ⟨c, hc, rfl⟩ := List.mem_map.1 hw
    exact (hds c hc).isStep
  rw [Same, components_objectPath hcs hstem, components_objectPath hcs' hstem', List.append_assoc,
    List.append_assoc, List.append_cancel_left_eq]
  constructor
  · intro h
    obtain ⟨hname, h⟩ := List.cons.inj h
    obtain ⟨htype, h⟩ := List.cons.inj h
    refine ⟨Component.name.inj hname, ?_, ?_⟩
    · have hname := Component.name.inj htype
      revert hname
      cases t <;> cases t' <;> decide
    · -- the words, and so the components, can be read back
      have hwords : ((objectWords (cs.map Component.word)).filterMap stepOf?).map Component.word =
          ((objectWords (cs'.map Component.word)).filterMap stepOf?).map Component.word :=
        congrArg _ h
      rw [map_word_filterMap fun w hw => (isStep_objectWords (hsteps cs hcs) w hw).1,
        map_word_filterMap fun w hw => (isStep_objectWords (hsteps cs' hcs') w hw).1] at hwords
      have hback := objectWords_injOn (fun w hw => (hsteps cs hcs w hw).1.1)
        (fun w hw => (hsteps cs' hcs' w hw).1.1) hwords
      rw [← filterMap_word hcs, hback, filterMap_word hcs']
  · rintro ⟨hname, rfl, rfl⟩
    rw [hname]

end Rule

/-! ## Sources that share an object -/

namespace Preparer

variable {path other dir : Path}

/-- Whether two sources of a package have one object: a source in its directory and one
    elsewhere do if the names of the other lead to the first one behind the directory. -/
inductive SharesObject (dir : Path) : Path → Path → Prop
  | same (path : Path) : SharesObject dir path path
  | inside {path other : Path} (hother : ¬ dir.components <+: other.components)
      (hpath : path.components = dir.components ++ other.components.filter Component.isName) :
      SharesObject dir path other
  | outside {path other : Path} (hpath : ¬ dir.components <+: path.components)
      (hother : other.components = dir.components ++ path.components.filter Component.isName) :
      SharesObject dir path other
  | elsewhere {path other : Path} (hpath : ¬ dir.components <+: path.components)
      (hother : ¬ dir.components <+: other.components)
      (hnames : path.components.filter Component.isName =
        other.components.filter Component.isName) :
      SharesObject dir path other

theorem stemOf_below {rest : List Component} (h : path.components = dir.components ++ rest) :
    stemOf path dir = rest := by
  rw [stemOf, h, if_pos (List.prefix_append _ _), List.drop_left]

theorem stemOf_elsewhere (h : ¬ dir.components <+: path.components) :
    stemOf path dir = path.components.filter Component.isName :=
  if_neg h

/-- Sources share an object if their stems are the same. -/
theorem stemOf_eq_iff (hpath : path = ofComponents path.components)
    (hother : other = ofComponents other.components) :
    stemOf path dir = stemOf other dir ↔ SharesObject dir path other := by
  constructor
  · intro h
    by_cases hbelow : dir.components <+: path.components <;>
      by_cases hbelow' : dir.components <+: other.components
    · obtain ⟨rest, hrest⟩ := hbelow
      obtain ⟨rest', hrest'⟩ := hbelow'
      rw [stemOf_below hrest.symm, stemOf_below hrest'.symm] at h
      have hsame : path = other := by rw [hpath, hother, ← hrest, ← hrest', h]
      exact hsame ▸ .same path
    · obtain ⟨rest, hrest⟩ := hbelow
      rw [stemOf_below hrest.symm, stemOf_elsewhere hbelow'] at h
      exact .inside hbelow' (by rw [← hrest, h])
    · obtain ⟨rest', hrest'⟩ := hbelow'
      rw [stemOf_below hrest'.symm, stemOf_elsewhere hbelow] at h
      exact .outside hbelow (by rw [← hrest', h])
    · rw [stemOf_elsewhere hbelow, stemOf_elsewhere hbelow'] at h
      exact .elsewhere hbelow hbelow' h
  · intro h
    cases h with
    | same => rfl
    | inside hother hpath => rw [stemOf_below hpath, stemOf_elsewhere hother]
    | outside hpath hother => rw [stemOf_below hother, stemOf_elsewhere hpath]
    | elsewhere hpath hother hnames => rw [stemOf_elsewhere hpath, stemOf_elsewhere hother, hnames]

/-- Whether an absolute source lies in a package at the project root: nothing is stripped off
    its path. -/
def Loose (dir path : Path) : Prop :=
  dir.components = [] ∧ Component.root ∈ path.components

/-- What names an object can stand between slashes, unless the source is loose. -/
theorem proper_of_mem_stemOf (hform : Normal.Form path.components) (h : ¬ Loose dir path) :
    ∀ c ∈ stemOf path dir, c.Proper := by
  intro c hc
  rw [stemOf] at hc
  split_ifs at hc with hbelow
  · obtain ⟨rest, hrest⟩ := hbelow
    rw [← hrest, List.drop_left] at hc
    rcases hform.cases_root with hproper | ⟨names, hnames, hproper⟩
    · exact hproper c (hrest ▸ List.mem_append_right _ hc)
    · -- the root is the first component, and so not behind the directory
      cases hdir : dir.components with
      | nil => exact absurd ⟨hdir, hnames ▸ List.mem_cons_self ..⟩ h
      | cons d ds =>
          rw [hdir, hnames] at hrest
          exact hproper c ((List.cons.inj hrest).2 ▸ List.mem_append_right _ hc)
  · obtain ⟨hmem, hname⟩ := List.mem_filter.1 hc
    refine hform.proper c hmem ?_
    rintro rfl
    cases hname

/-- A path in normal form is absolute if its components have a root. -/
theorem isAbsolute_of_root_mem (hpath : path = ofComponents path.components)
    (hform : Normal.Form path.components) (h : Component.root ∈ path.components) :
    path.isAbsolute = true := by
  rcases hform.cases_root with hproper | ⟨names, hnames, -⟩
  · exact (hproper .root h).elim
  · rw [hpath, hnames, isAbsolute, ofComponents, String.toList_append]
    rfl

end Preparer

namespace Prepared

open Preparer

variable {P : Preparer} {l : Linked} {p : Prepared} {id id' : RuleId} {t t' : BuildType}
  {s s' : SourceFile}

/-- What is known of a source of a prepared rule. -/
theorem source_normal (h : ofLinked P l = .ok p) (hs : s ∈ (p.at_ id).sources) :
    s.path = ofComponents s.path.components ∧ Normal.Form s.path.components ∧
      s.stem = stem s.path (P.sourceDir (p.rule id)) := by
  obtain ⟨rule, hrule, heq⟩ := exists_rule_of_source h hs
  obtain ⟨matched, hpath, hstem⟩ := (found h hrule).source hs
  obtain ⟨-, hnormal⟩ := projectPath_eq_ok_iff.1 hpath
  refine ⟨?_, ?_, heq ▸ hstem⟩
  · rw [hnormal]
    exact normal_eq_ofComponents _
  · rw [hnormal]
    exact form_normal _

/-- The stem of a source that is not loose. -/
theorem source_stem (h : ofLinked P l = .ok p) (hs : s ∈ (p.at_ id).sources)
    (hloose : ¬ Loose (P.sourceDir (p.rule id)) s.path) :
    (∀ c ∈ stemOf s.path (P.sourceDir (p.rule id)), c.Proper) ∧
      s.stem = (ofWords ((stemOf s.path (P.sourceDir (p.rule id))).map Component.word)).text := by
  obtain ⟨hpath, hform, hstem⟩ := source_normal h hs
  have hproper := proper_of_mem_stemOf hform hloose
  refine ⟨hproper, hstem.trans ?_⟩
  exact stem_eq hpath (normal_eq_ofComponents _) hform (form_normal _) hproper

/-- The object of a loose source lies beside it. -/
theorem objectPath_of_loose (h : ofLinked P l = .ok p) (hs : s ∈ (p.at_ id).sources)
    (hloose : Loose (P.sourceDir (p.rule id)) s.path) (r : Rule) (buildRoot : Path)
    (t : BuildType) :
    r.objectPath buildRoot t s = ⟨s.path.text ++ ".o"⟩ := by
  obtain ⟨hpath, hform, hstem⟩ := source_normal h hs
  have hdir : P.sourceDir (p.rule id) = ⟨""⟩ := by
    rw [show P.sourceDir (p.rule id) = ofComponents (P.sourceDir (p.rule id)).components from
      normal_eq_ofComponents _, hloose.1]
    rfl
  have hwhole : s.path.stripPrefix? ⟨""⟩ = some s.path := by
    rw [hpath]
    exact hform.stripPrefix?_empty
  have habsolute : (⟨s.path.text ++ ".o"⟩ : Path).isAbsolute = true := by
    have hslash := isAbsolute_of_root_mem hpath hform hloose.2
    rw [isAbsolute, decide_eq_true_eq] at hslash ⊢
    rw [String.toList_append, List.head?_append, hslash]
    rfl
  rw [Rule.objectPath, hstem, hdir, stem, hwhole]
  exact join_of_isAbsolute _ habsolute

/-- **Objects that are shared.** Where quoted names tell rules apart, two objects are the same
    if and only if they are of one rule and one build type and either of one source, or of two
    whose names lead to one place behind the directory of their package.  The object of an
    absolute source of a package at the project root lies beside the source, for every build
    type and every rule that has it. -/
theorem shared_objects (h : ofLinked P l = .ok p) (hnames : (l.set.rules.map Rule.quotedName).Nodup)
    (hs : s ∈ (p.at_ id).sources) (hs' : s' ∈ (p.at_ id').sources) :
    (Loose (P.sourceDir (p.rule id)) s.path →
      (p.rule id).objectPath P.layout.buildRoot t s = ⟨s.path.text ++ ".o"⟩) ∧
    (¬ Loose (P.sourceDir (p.rule id)) s.path → ¬ Loose (P.sourceDir (p.rule id')) s'.path →
      (((p.rule id).objectPath P.layout.buildRoot t s).Same
          ((p.rule id').objectPath P.layout.buildRoot t' s') ↔
        id = id' ∧ t = t' ∧ SharesObject (P.sourceDir (p.rule id)) s.path s'.path)) := by
  refine ⟨fun hloose => objectPath_of_loose h hs hloose _ _ _, fun hloose hloose' => ?_⟩
  obtain ⟨hproper, hstem⟩ := source_stem h hs hloose
  obtain ⟨hproper', hstem'⟩ := source_stem h hs' hloose'
  rw [Rule.objectPath_same_iff_stem hproper hstem hproper' hstem']
  have hid : (p.rule id).quotedName = (p.rule id').quotedName → id = id' := by
    obtain ⟨rule, hrule, heq⟩ := exists_rule_of_source h hs
    obtain ⟨rule', hrule', heq'⟩ := exists_rule_of_source h hs'
    rw [heq, heq']
    intro hquoted
    have hlt : id < (l.set.rules.map Rule.quotedName).length := by
      rw [List.length_map]
      exact (List.getElem?_eq_some_iff.1 hrule).1
    refine (List.getElem?_inj hlt hnames).1 ?_
    rw [List.getElem?_map, List.getElem?_map, hrule, hrule', Option.map_some, Option.map_some,
      hquoted]
  constructor
  · rintro ⟨hquoted, ht, hstems⟩
    obtain rfl := hid hquoted
    exact ⟨rfl, ht, (stemOf_eq_iff (source_normal h hs).1 (source_normal h hs').1).1 hstems⟩
  · rintro ⟨rfl, ht, hshares⟩
    exact ⟨rfl, ht, (stemOf_eq_iff (source_normal h hs).1 (source_normal h hs').1).2 hshares⟩

end Prepared

/-! ## Two sources of one object -/

namespace Objects

/-- A program with a source in its package and one beside it. -/
def application : Rule where
  id := 0
  package := "app"
  declaration := {
    type := .ccBinary
    name := "app"
    version := "DEFAULT"
    deps := []
    attributes := .cc { srcs := ["lib/base.cc", "../lib/base.cc"] } }

def single : Linked where
  set := {
    rules := [application]
    packages := [⟨"app", ⟨"/proj/app/BUILD"⟩, [("app", 0)]⟩] }
  graph := ⟨[[]]⟩
  size_eq := rfl

/-- Every pattern matches the file that it names. -/
def preparer : Preparer where
  layout := {
    projectRoot := ⟨"/proj"⟩
    buildRoot := ⟨"build"⟩
    buildFile := "BUILD"
    builtinRoot := none }
  buildTypes := [.debug]
  expand pattern _ := .ok [pattern]

def innerSource : SourceFile := ⟨"lib/base.cc", ⟨"app/lib/base.cc"⟩⟩

def outerSource : SourceFile := ⟨"lib/base.cc", ⟨"lib/base.cc"⟩⟩

def known : Resolved where
  sources := [innerSource, outerSource]
  artifacts := [(.debug, [⟨"build/app@@app@DEFAULT/DEBUG/app"⟩])]

theorem exists_prepared : ∃ p, Prepared.ofLinked preparer single = .ok p ∧
    p.rule 0 = application ∧ (p.at_ 0).sources = [innerSource, outerSource] := by
  have horder : single.dependenciesInOrder 0 = .ok [] := by cbv
  have hrule : preparer.prepareRule single application = .ok known := by
    rw [Preparer.prepareRule, show application.id = 0 from rfl, horder]
    rfl
  obtain ⟨p, hp, hlinked, hresolved⟩ := Prepared.exists_ofLinked_single rfl hrule
  refine ⟨p, hp, ?_, ?_⟩
  · rw [Prepared.rule, hlinked]
    rfl
  · rw [Prepared.at_, hresolved]
    rfl

end Objects

namespace Prepared

open Objects Preparer

/-- The two sources of a program in `app` lead to `lib/base.cc`, and share an object. -/
theorem application_shares_object : ∃ p, ofLinked preparer single = .ok p ∧
    innerSource ∈ (p.at_ 0).sources ∧ outerSource ∈ (p.at_ 0).sources ∧
    ¬ innerSource.path.Same outerSource.path ∧
    (single.set.rules.map Rule.quotedName).Nodup ∧
    ((p.rule 0).objectPath ⟨"build"⟩ .debug innerSource).Same
      ((p.rule 0).objectPath ⟨"build"⟩ .debug outerSource) := by
  obtain ⟨p, hp, hrule, hsources⟩ := exists_prepared
  have hinner : innerSource ∈ (p.at_ 0).sources := hsources ▸ List.mem_cons_self ..
  have houter : outerSource ∈ (p.at_ 0).sources := by
    rw [hsources]
    exact List.mem_cons_of_mem _ (List.mem_singleton_self _)
  have hnames : (single.set.rules.map Rule.quotedName).Nodup := List.nodup_singleton _
  have hdir : (preparer.sourceDir (p.rule 0)).components = [.name "app"] := by
    rw [hrule]
    decide +kernel
  have hloose : ∀ path, ¬ Loose (preparer.sourceDir (p.rule 0)) path := by
    rintro path ⟨hnil, -⟩
    rw [hdir] at hnil
    cases hnil
  have hshares : SharesObject (preparer.sourceDir (p.rule 0)) innerSource.path
      outerSource.path := by
    refine .inside ?_ ?_ <;> rw [hdir] <;> decide +kernel
  obtain ⟨-, hiff⟩ := shared_objects hp hnames hinner houter
  exact ⟨p, hp, hinner, houter, by decide +kernel, hnames,
    (hiff (hloose _) (hloose _)).2 ⟨rfl, rfl, hshares⟩⟩

end Prepared

end Buildwright
