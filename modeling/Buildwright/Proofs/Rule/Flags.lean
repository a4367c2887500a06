import Buildwright.Proofs.Graph.Dependencies
import Buildwright.Proofs.Preparing
import Buildwright.Proofs.Renumbering.Rules
import Buildwright.Proofs.Rule.Objects

/-! # Inherited flags

    The flags of a rule are those that its dependencies declare, in the order of the
    dependencies, and its own behind them; of a flag that is declared more than once the
    first occurrence counts.  In that order a rule stands behind all that it depends on, so
    a flag whose every contributor depends on a contributor of another one comes behind it.

    * `RuleSet.declared` — what one rule contributes;
    * `Digraph.Gathers`, `Digraph.gathers_flatMap` — first occurrences in a sorted list;
    * `Preparer.flags_gathered` — the flags of prepared rules. -/

namespace Buildwright

/-! ## First occurrences -/

section FirstOccurrences

variable {α : Type} [DecidableEq α]

/-- A list without repetitions stays as it is. -/
theorem eraseDups_of_nodup {l : List α} (h : l.Nodup) : l.eraseDups = l := by
  induction l with
  | nil => rfl
  | cons a l ih =>
      obtain ⟨ha, hl⟩ := List.nodup_cons.1 h
      have hfilter : l.filter (fun b => !b == a) = l := by
        refine List.filter_eq_self.2 fun b hb => ?_
        simp only [Bool.not_eq_true', beq_eq_false_iff_ne]
        rintro rfl
        exact ha hb
      rw [List.eraseDups_cons, hfilter, ih hl]

/-- It does not matter if repetitions in the first part are dropped before. -/
theorem eraseDups_append_left (l m : List α) :
    (l.eraseDups ++ m).eraseDups = (l ++ m).eraseDups := by
  have hrest : m.removeAll l.eraseDups = m.removeAll l := by
    refine List.filter_congr fun a _ => ?_
    rw [Bool.eq_iff_iff]
    simp
  rw [List.eraseDups_append, List.eraseDups_append, eraseDups_of_nodup (nodup_eraseDups l), hrest]

/-- What occurs in the first part comes before what occurs in the second one only. -/
theorem sublist_eraseDups {front back : List α} {a b : α} (ha : a ∈ front) (hb : b ∉ front)
    (hback : b ∈ back) : [a, b].Sublist (front ++ back).eraseDups := by
  have hrest : b ∈ back.removeAll front := List.mem_filter.2 ⟨hback, by simpa using hb⟩
  rw [List.eraseDups_append]
  exact (List.singleton_sublist.2 (List.mem_eraseDups.2 ha)).append
    (List.singleton_sublist.2 (List.mem_eraseDups.2 hrest))

end FirstOccurrences

/-! ## What rules contribute -/

/-- The flags of a kind that a rule declares, if it is compiled. -/
def RuleSet.declared (s : RuleSet) (kind : Flags → List String) (v : RuleId) : List String :=
  match (s.rules[v]?).bind Rule.cc? with
  | some a => kind (Flags.own a)
  | none => []

variable {s : RuleSet} {kind : Flags → List String} {v : RuleId}

theorem RuleSet.declared_of_cc {rule : Rule} {a : CcAttributes} (hrule : s.rules[v]? = some rule)
    (hcc : rule.cc? = some a) : s.declared kind v = kind (Flags.own a) := by
  rw [declared, hrule, Option.bind_some, hcc]

/-- Only rules declare flags. -/
theorem RuleSet.lt_of_mem_declared {flag : String} (h : flag ∈ s.declared kind v) :
    v < s.rules.length := by
  by_contra hv
  rw [declared, List.getElem?_eq_none (Nat.le_of_not_lt hv)] at h
  exact absurd h List.not_mem_nil

/-- What the compiled rules of a list declare is what all of them do. -/
theorem Flags.flatMap_own (s : RuleSet) (kind : Flags → List String) (order : List RuleId) :
    ((order.filterMap fun id => (s.rules[id]?).bind Rule.cc?).map own).flatMap kind =
      order.flatMap (s.declared kind) := by
  induction order with
  | nil => rfl
  | cons v order ih =>
      rw [List.flatMap_cons, ← ih, RuleSet.declared, List.filterMap_cons]
      cases (s.rules[v]?).bind Rule.cc? with
      | none => rfl
      | some a => rfl

/-! ## Gathered flags -/

namespace Digraph

/-- Whether a list gathers flags: it has what is contributed, each flag once, and a flag comes
    behind another one if all of its contributors depend on contributors of that one. -/
structure Gathers (g : Digraph) (contributes : Nat → String → Prop) (flags : List String) :
    Prop where
  nodup : flags.Nodup
  mem_iff : ∀ f, f ∈ flags ↔ ∃ v, contributes v f
  before : ∀ f f', f ≠ f' → f' ∈ flags →
    (∀ v, contributes v f' → ∃ w, contributes w f ∧ g.DependsOn v w) → [f, f'].Sublist flags

variable {g : Digraph} {contributes : Nat → String → Prop} {declared : Nat → List String}
  {order : List Nat}

/-- The first occurrences along a sorted list of the contributors gather their flags. -/
theorem gathers_flatMap (hsorted : g.Sorted order)
    (hcontributes : ∀ v f, contributes v f ↔ v ∈ order ∧ f ∈ declared v)
    (hsize : ∀ v f, f ∈ declared v → v < g.size) :
    g.Gathers contributes (order.flatMap declared).eraseDups where
  nodup := nodup_eraseDups _
  mem_iff f := by
    rw [List.mem_eraseDups, List.mem_flatMap]
    exact exists_congr fun v => (hcontributes v f).symm
  before f f' _ hf' hdepend := by
    -- the first contributor of `f'`, all of whose dependencies stand in front of it
    obtain ⟨x, hx, hfx⟩ := List.mem_flatMap.1 (List.mem_eraseDups.1 hf')
    obtain ⟨v, hfind⟩ := Option.isSome_iff_exists.1
      (List.find?_isSome.2 ⟨x, hx, decide_eq_true hfx⟩ :
        (order.find? fun v => decide (f' ∈ declared v)).isSome)
    obtain ⟨hv, front, back, hsplit, hfront⟩ := List.find?_eq_some_iff_append.1 hfind
    have hmem : v ∈ order := hsplit ▸ List.mem_append_right _ (List.mem_cons_self ..)
    obtain ⟨w, hw, hd⟩ := hdepend v ((hcontributes v f').2 ⟨hmem, of_decide_eq_true hv⟩)
    have hfw : f ∈ declared w := ((hcontributes w f).1 hw).2
    have hwfront : w ∈ front := hsorted.mem_of_dependsOn hsplit hd (hsize w f hfw)
    rw [hsplit, List.flatMap_append]
    refine sublist_eraseDups (List.mem_flatMap.2 ⟨w, hwfront, hfw⟩) (fun hin => ?_) ?_
    · obtain ⟨u, hu, hfu⟩ := List.mem_flatMap.1 hin
      simpa [hfu] using hfront u hu
    · exact List.mem_flatMap.2 ⟨v, List.mem_cons_self .., of_decide_eq_true hv⟩

end Digraph

namespace Preparer

open Buildwright.Digraph

variable {P : Preparer} {l : Linked} {r : RuleId} {rule : Rule} {a : CcAttributes}
  {known : Resolved}

theorem lt_size_of_mem_declared (l : Linked) (kind : Flags → List String) :
    ∀ v f, f ∈ l.set.declared kind v → v < l.graph.size := by
  intro v f hf
  rw [l.size_eq]
  exact RuleSet.lt_of_mem_declared hf

/-- The flags of the dependencies of a rule, along their order. -/
theorem gathers_inherited {order : List RuleId} (h : l.graph.InOrder r order)
    (kind : Flags → List String) :
    l.graph.Gathers (fun v f => l.graph.DependsOn r v ∧ f ∈ l.set.declared kind v)
      (order.flatMap (l.set.declared kind)).eraseDups := by
  refine gathers_flatMap h.sorted (fun v f => ?_) (lt_size_of_mem_declared l kind)
  rw [h.mem_iff v, and_congr_left_iff]
  exact fun hf => (and_iff_left (lt_size_of_mem_declared l kind v f hf)).symm

/-- The flags of the dependencies of a rule, and its own behind them. -/
theorem gathers_all {order : List RuleId} (h : l.graph.InOrder r order)
    (kind : Flags → List String) :
    l.graph.Gathers (fun v f => l.graph.Reaches r v ∧ f ∈ l.set.declared kind v)
      ((order.flatMap (l.set.declared kind)).eraseDups ++ l.set.declared kind r).eraseDups := by
  have hlist : (order.flatMap (l.set.declared kind)) ++ l.set.declared kind r =
      (order ++ [r]).flatMap (l.set.declared kind) := by
    rw [List.flatMap_append, List.flatMap_singleton]
  rw [eraseDups_append_left, hlist]
  refine gathers_flatMap h.sorted_concat (fun v f => ?_) (lt_size_of_mem_declared l kind)
  rw [List.mem_append, List.mem_singleton, h.mem_iff v, and_congr_left_iff]
  intro hf
  rw [and_iff_left (lt_size_of_mem_declared l kind v f hf)]
  constructor
  · intro hr
    cases hr with
    | refl => exact .inr rfl
    | step he hr => exact .inl ⟨_, he, hr⟩
  · rintro (⟨u, he, hr⟩ | rfl)
    · exact .step he hr
    · exact .refl v

/-- The walk from a prepared rule has listed its dependencies. -/
theorem Found.inOrder (h : P.Found l rule known) : l.graph.InOrder rule.id known.order :=
  inOrder_of_eq_ok (Linked.dependenciesInOrder_eq_ok_iff.1 h.order)

/-- **Flags are inherited along all dependencies, in their order.** A compiled rule that is
    prepared has the include flags and the macro flags that it or a rule that it leads to
    declares, through rules of any kind, and the linker flags of the rules that it depends on:
    each flag once, and behind a flag that all of its contributors depend on contributors of.
    Without cycles, a rule whose files are found is prepared. -/
theorem flags_gathered (P : Preparer) (l : Linked) (hn : l.set.Numbered)
    (hrule : l.set.rules[r]? = some rule) (hcc : rule.cc? = some a) :
    (∀ known, P.prepareRule l rule = .ok known →
      l.graph.Gathers (fun v f => l.graph.Reaches r v ∧ f ∈ l.set.declared Flags.includes v)
        known.includes ∧
      l.graph.Gathers (fun v f => l.graph.Reaches r v ∧ f ∈ l.set.declared Flags.defines v)
        known.defines ∧
      l.graph.Gathers (fun v f => l.graph.DependsOn r v ∧ f ∈ l.set.declared Flags.linker v)
        known.inherited) ∧
    (l.graph.Acyclic → ∀ found, P.files rule a = .ok found →
      ∃ known, P.prepareRule l rule = .ok known) := by
  have hid : rule.id = r := id_eq_of_map_id hn hrule
  constructor
  · intro known hknown
    have hfound := found_of_prepareRule hknown
    have hin : l.graph.InOrder r known.order := hid ▸ hfound.inOrder
    obtain ⟨hincludes, hdefines, hlinker⟩ := hfound.flags a hcc
    have hown : ∀ kind : Flags → List String, kind (Flags.own a) = l.set.declared kind r :=
      fun kind => (RuleSet.declared_of_cc hrule hcc).symm
    rw [hincludes, hdefines, hlinker, Flags.ofRules, hown Flags.includes, hown Flags.defines]
    simp only [Flags.flatMap_own]
    exact ⟨gathers_all hin _, gathers_all hin _, gathers_inherited hin _⟩
  · intro ha found hfound
    have hno : ¬ ∃ v, l.graph.Reaches r v ∧ l.graph.DependsOn v v := by
      rintro ⟨v, -, hd⟩
      exact ha v hd
    obtain ⟨order, horder, -⟩ := exists_inOrder hno
    rw [prepareRule, hid, Linked.dependenciesInOrder_eq_ok_iff.2 horder, hcc]
    simp only [hfound]
    exact ⟨_, rfl⟩

end Preparer

/-! ## Flags behind a script -/

namespace Flags

/-- A program `app` that depends on a script `gen`, and the script on a library `base`. -/
def scripted : Linked where
  set := {
    rules := [
      { id := 0
        package := "pkg"
        declaration := {
          type := .ccBinary
          name := "app"
          version := "DEFAULT"
          deps := [":gen"]
          attributes := .cc { srcs := ["app.cc"], include_ := ["app"], ldflags := ["-lapp"] } } },
      { id := 1
        package := "pkg"
        declaration := {
          type := .shellScript
          name := "gen"
          version := "DEFAULT"
          deps := [":base"]
          attributes := .script { script := "./gen.sh" } } },
      { id := 2
        package := "pkg"
        declaration := {
          type := .ccLibrary
          name := "base"
          version := "DEFAULT"
          deps := []
          attributes := .cc { include_ := ["base"], ldflags := ["-lbase"] } } }]
    packages := [] }
  graph := ⟨[[1], [2], []]⟩
  size_eq := by decide

end Flags

namespace Preparer

open Flags

/-- The program has the flags of the library in front of its own, through the script, and the
    linker flag of the library only. -/
theorem scripted_gathers : ∃ rule a known,
    scripted.set.Numbered ∧ scripted.set.rules[0]? = some rule ∧ rule.cc? = some a ∧
    Objects.preparer.prepareRule scripted rule = .ok known ∧
    ["-Ibase", "-Iapp"].Sublist known.includes ∧
    "-lbase" ∈ known.inherited ∧ "-lapp" ∉ known.inherited := by
  have hn : scripted.set.Numbered := by decide
  obtain ⟨hflags, hprepared⟩ :=
    flags_gathered (r := 0) Objects.preparer scripted hn rfl rfl
  have ha : scripted.graph.Acyclic := Digraph.acyclic_of_lt (by decide)
  have hbase : scripted.graph.DependsOn 0 2 :=
    ⟨1, by decide, .step (by decide : scripted.graph.Edge 1 2) (.refl 2)⟩
  obtain ⟨known, hknown⟩ := hprepared ha _ rfl
  obtain ⟨hincludes, -, hlinker⟩ := hflags known hknown
  -- of a flag that only one of the rules declares, that rule is the contributor
  have hone : ∀ kind flag r, (∀ v < 3, flag ∈ scripted.set.declared kind v → v = r) →
      ∀ v, flag ∈ scripted.set.declared kind v → v = r :=
    fun kind flag r hall v hv => hall v (RuleSet.lt_of_mem_declared hv) hv
  have happ := hone Flags.includes "-Iapp" 0 (by decide +kernel)
  have hlapp := hone Flags.linker "-lapp" 0 (by decide +kernel)
  refine ⟨_, _, known, hn, rfl, rfl, hknown, hincludes.before _ _ (by decide) ?_ ?_, ?_, ?_⟩
  · exact (hincludes.mem_iff _).2 ⟨0, .refl 0, by decide +kernel⟩
  · rintro v ⟨-, hv⟩
    obtain rfl := happ v hv
    obtain ⟨w, he, hw⟩ := hbase
    exact ⟨2, ⟨.step he hw, by decide +kernel⟩, w, he, hw⟩
  · exact (hlinker.mem_iff _).2 ⟨2, hbase, by decide +kernel⟩
  · rw [hlinker.mem_iff]
    rintro ⟨v, hd, hv⟩
    obtain rfl := hlapp v hv
    exact ha 0 hd

end Preparer

end Buildwright
