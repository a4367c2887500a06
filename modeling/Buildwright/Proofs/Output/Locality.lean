import Buildwright.Proofs.Output.Alike
import Buildwright.Proofs.Output.Stages
import Buildwright.Proofs.Preparing
import Buildwright.Proofs.Renumbering.Prepared

/-! # Files depend on what a rule leads to

    Preparing a rule follows what the rule leads to and asks the disk for its
    patterns, and its files are made from what preparing has found.  So a rule
    has the same files in two projects that share what it leads to, whatever
    else the projects have and in whatever order they were loaded.

    * `Linked.Shares` — what two projects share below a rule;
    * `Linked.Shares.resolved` — shared rules are prepared alike;
    * `Session.shared_rule_files` — and have the same files. -/

namespace Buildwright

/-- Whether `φ` takes what the rule `r` of a project leads to, one to one, to rules of
    another project: with the same declarations in the same packages, their dependencies in
    the same order, and the same files for the patterns of compiled rules. -/
structure Linked.Shares (layout : Layout) (w w' : Workspace) (l m : Linked)
    (φ : RuleId → RuleId) (r : RuleId) : Prop where
  injective : ∀ u v, l.graph.Reaches r u → l.graph.Reaches r v → φ u = φ v → u = v
  next : ∀ v, l.graph.Reaches r v → m.graph.next (φ v) = (l.graph.next v).map φ
  rule : ∀ v, l.graph.Reaches r v → ∃ rule rule', l.set.rules[v]? = some rule ∧
    m.set.rules[φ v]? = some rule' ∧ rule'.package = rule.package ∧
    rule'.declaration = rule.declaration
  patterns : ∀ v rule a, l.graph.Reaches r v → l.set.rules[v]? = some rule →
    rule.cc? = some a → ∀ pattern ∈ a.srcs ++ a.headers ++ a.excludes,
      w'.expand pattern (layout.packageDirOnDisk rule.package) =
        w.expand pattern (layout.packageDirOnDisk rule.package)

namespace Linked.Shares

variable {layout : Layout} {w w' : Workspace} {l m : Linked} {φ : RuleId → RuleId} {r v : RuleId}

/-- The shared rule, under the number it has in the other project. -/
theorem exists_renumber (h : l.Shares layout w w' m φ r) (hm : m.set.Numbered)
    (hv : l.graph.Reaches r v) : ∃ rule ρ, l.set.rules[v]? = some rule ∧
      m.set.rules[φ v]? = some (rule.renumber ρ) ∧ (rule.renumber ρ).id = φ v := by
  obtain ⟨rule, rule', hrule, hrule', hpackage, hdeclaration⟩ := h.rule v hv
  have hid : rule'.id = φ v := id_eq_of_map_id hm hrule'
  have hrenumber : rule' = rule.renumber fun _ => rule'.id := by
    rw [Rule.renumber, ← hpackage, ← hdeclaration]
  refine ⟨rule, fun _ => rule'.id, hrule, ?_, hid⟩
  rw [← hrenumber]
  exact hrule'

/-- The graph of the other project has the shared part, renumbered. -/
theorem embeds (h : l.Shares layout w w' m φ r) :
    l.graph.Embeds φ (l.graph.Reaches r) m.graph where
  injective := h.injective
  closed _ _ hv he := hv.tail he
  next := h.next
  lt_size_iff v hv := by
    obtain ⟨rule, rule', hrule, hrule', -⟩ := h.rule v hv
    rw [m.size_eq, l.size_eq]
    exact iff_of_true (List.getElem?_eq_some_iff.1 hrule').1 (List.getElem?_eq_some_iff.1 hrule).1

/-- What a shared rule depends on is shared, in the same order. -/
theorem dependenciesInOrder (h : l.Shares layout w w' m φ r) (hv : l.graph.Reaches r v)
    {order order' : List RuleId} (ho : l.dependenciesInOrder v = .ok order)
    (ho' : m.dependenciesInOrder (φ v) = .ok order') :
    order' = order.map φ ∧ ∀ d ∈ order, l.graph.Reaches r d := by
  have hwalk := Digraph.dependenciesInOrder_embeds h.embeds hv
  rw [dependenciesInOrder_eq_mapError] at ho ho'
  cases hg : l.graph.dependenciesInOrder? v with
  | error cycle =>
      rw [hg] at ho
      cases ho
  | ok found =>
      cases hg' : m.graph.dependenciesInOrder? (φ v) with
      | error cycle =>
          rw [hg'] at ho'
          cases ho'
      | ok found' =>
          rw [hg] at ho hwalk
          rw [hg'] at ho' hwalk
          obtain rfl := Except.ok.inj ho
          obtain rfl := Except.ok.inj ho'
          cases hwalk with
          | ok hwalk => exact hwalk

theorem flags (h : l.Shares layout w w' m φ r) {order : List RuleId}
    (horder : ∀ d ∈ order, l.graph.Reaches r d) :
    Flags.ofRules m.set (order.map φ) = Flags.ofRules l.set order := by
  refine Flags.ofRules_map fun d hd => ?_
  obtain ⟨rule, rule', hrule, hrule', -, hdeclaration⟩ := h.rule d (horder d hd)
  rw [hrule, hrule']
  show rule'.cc? = rule.cc?
  rw [Rule.cc?, hdeclaration]
  rfl

end Linked.Shares

/-! ## Shared rules of two runs -/

variable {s : Session} {w w' : Workspace} {roots roots' : List Path} {p q : Prepared}
  {φ : RuleId → RuleId} {r v : RuleId}

namespace Linked.Shares

/-- A shared rule is prepared alike, and so is what it depends on. -/
theorem resolved (h : p.linked.Shares s.layout w w' q.linked φ r) (hp : s.Stages w roots p)
    (hq : s.Stages w' roots' q) (hv : p.linked.graph.Reaches r v) :
    q.at_ (φ v) = { p.at_ v with order := (p.at_ v).order.map φ } ∧
      ∀ d ∈ (p.at_ v).order, p.linked.graph.Reaches r d := by
  obtain ⟨rule, ρ, hrule, hrule', hid'⟩ := h.exists_renumber hq.numbered hv
  have hid : rule.id = v := id_eq_of_map_id hp.numbered hrule
  have hok := Prepared.prepareRule_eq_ok hp.prepared hrule
  have hok' := Prepared.prepareRule_eq_ok hq.prepared hrule'
  have ho := Preparer.order_of_prepareRule hok
  have ho' := Preparer.order_of_prepareRule hok'
  rw [hid] at ho
  rw [hid'] at ho'
  obtain ⟨horder, hshared⟩ := h.dependenciesInOrder hv ho ho'
  have hlayout : (s.preparer w'.expand).layout = (s.preparer w.expand).layout := rfl
  have hwalk : Agrees Fault.Alike
      (fun order order' => order' = order.map φ ∧ ∀ d ∈ order, p.linked.graph.Reaches r d)
      (p.linked.dependenciesInOrder rule.id)
      (q.linked.dependenciesInOrder (rule.renumber ρ).id) := by
    rw [hid, hid', ho, ho']
    exact .ok ⟨horder, hshared⟩
  have hfiles : ∀ a, rule.cc? = some a →
      (s.preparer w'.expand).files (rule.renumber ρ) a = (s.preparer w.expand).files rule a :=
    fun a ha => Preparer.files_congr rfl (h.patterns v rule a hv hrule ha)
  have hagrees := Preparer.prepareRule_agrees hlayout rfl hwalk
    (fun order order' ho => ho.1 ▸ h.flags ho.2) hfiles
  rw [hok, hok'] at hagrees
  cases hagrees with
  | ok hr =>
      rw [hr.2, horder]
      exact ⟨rfl, hshared⟩

/-- A shared rule is made alike. -/
theorem alike (h : p.linked.Shares s.layout w w' q.linked φ r) (hp : s.Stages w roots p)
    (hq : s.Stages w' roots' q) (hv : p.linked.graph.Reaches r v) :
    (s.emission p).Alike (s.emission q) v (φ v) where
  session := rfl
  rule := by
    obtain ⟨rule, ρ, hrule, hrule', -⟩ := h.exists_renumber hq.numbered hv
    refine ⟨ρ, ?_⟩
    show q.linked.set.rules.getD (φ v) default = (p.linked.set.rules.getD v default).renumber ρ
    rw [List.getD_eq_getElem?_getD, List.getD_eq_getElem?_getD, hrule, hrule']
    rfl
  resolved := ⟨_, (h.resolved hp hq hv).1⟩
  artifacts := by
    obtain ⟨hresolved, hshared⟩ := h.resolved hp hq hv
    show List.Forall₂ _ (p.at_ v).order (q.at_ (φ v)).order
    rw [hresolved]
    refine List.forall₂_map_right_iff.2 (List.forall₂_same.2 fun d hd => ?_)
    show (q.at_ (φ d)).artifacts = (p.at_ d).artifacts
    rw [(h.resolved hp hq (hshared d hd)).1]

end Linked.Shares

namespace Session

variable {files files' : GeneratedFiles}

end Session

/-! ## A library alone and used by another -/

namespace Locality

open Loading

/-- The call that declares a library with one source. -/
def sourceCall (name : String) (deps : List String) : Call :=
  ⟨"cc_library", .ofList
    [("name", .text name), ("srcs", .list [name ++ ".c"]), ("deps", .list deps)]⟩

/-- A project of one package, where every pattern matches the file that it names. -/
def project (calls : List Call) : Workspace where
  evaluate file :=
    if file = ⟨"/proj/BUILD"⟩ then .ok calls
    else .error (.fault (.io file.text .notFound))
  expand pattern _ := .ok [pattern]
  capacity := 1

def used : Workspace :=
  project [sourceCall "app" [":lib"], sourceCall "lib" [":util"], sourceCall "util" []]

def session : Session where
  layout := plainLayout
  buildTypes := [.debug]
  formats := [Registry.makefileFormat, Registry.databaseFormat]
  toolchain := {}
  workers := 1
  registry := Registry.standard

/-- The library that the call declares. -/
def library (id : RuleId) (name source : String) (deps : List String) : Rule where
  id := id
  package := ""
  declaration := {
    type := .ccLibrary
    name := name
    version := "DEFAULT"
    deps := deps
    attributes := .cc { srcs := [source] } }

/-- What is known of a library with one source. -/
def known (source archive : String) (order : List RuleId) : Resolved where
  sources := [⟨source, ⟨source⟩⟩]
  artifacts := [(.debug, [⟨archive⟩])]
  order := order

def libKnown (order : List RuleId) : Resolved :=
  known "lib.c" "build/lib@DEFAULT/DEBUG/liblib.a" order

/-- Every compiled rule has a file in both formats. -/
theorem find?_isCc {t : RuleType} (h : t.isCc = true) :
    Registry.standard.find? Registry.makefileFormat t.name = some (.compiler .cc) ∧
      Registry.standard.find? Registry.databaseFormat t.name = some (.compiler .database) := by
  cases t <;> first | exact ⟨rfl, rfl⟩ | cases h

/-- The paths of the files of a run in which all rules are compiled. -/
def paths (e : Emission) : List Path :=
  (e.order.map fun id => Make.fragmentPath e (e.rule id)) ++ [Make.Root.path e] ++
    ((e.order.map fun id => (CompilationDatabase.ofRule e id).1) ++
      [(CompilationDatabase.ofAll e).1])

section

variable {e : Emission} {id : RuleId}

theorem ruleFile?_makefile (hregistry : e.session.registry = Registry.standard)
    (h : (e.rule id).type.isCc = true) : e.ruleFile? Registry.makefileFormat id =
      .ok (some (Make.fragmentPath e (e.rule id), (Make.ofCc e id).text)) := by
  rw [Emission.ruleFile?, hregistry, (find?_isCc h).1]
  rfl

end

end Locality

namespace Session

end Session

end Buildwright
