import Buildwright.Prepared
import Buildwright.Proofs.Renumbering.Rules

/-! # Preparing renumbered rules

    A rule is prepared from its declaration and from the flags of what it
    depends on; numbers only occur in the order of its dependencies.  Results
    are scanned in the order of names, so the first failure and the first
    conflict over a source are those of the same rules.

    * `Fault.Alike` — one fault, a cycle begun anywhere;
    * `Preparer.prepareRule_agrees`, `Linked.Renumbers.prepareRule` — one rule;
    * `Linked.Renumbers.checkOwnership` — the owners of sources;
    * `Linked.Renumbers.ofLinked` — all rules. -/

namespace Buildwright

variable {σ : Equiv.Perm RuleId}

/-! ## Faults -/

/-- Whether two faults are the same, but for the rule at which a cycle begins. -/
inductive Fault.Alike : Fault → Fault → Prop where
  | same (fault : Fault) : Alike fault fault
  | cycle {round round' : List String} (h : round.IsRotated round') :
    Alike (.cycle (Cycle.close round)) (.cycle (Cycle.close round'))

/-- Whether two failures are the same, but for the rule at which a cycle begins. -/
inductive Failure.Alike : Failure → Failure → Prop where
  | fault {e e' : Fault} (h : e.Alike e') : Alike (.fault e) (.fault e')
  | panicked (message : String) : Alike (.panicked message) (.panicked message)

theorem Failure.Alike.refl (e : Failure) : e.Alike e := by
  cases e with
  | fault fault => exact .fault (.same fault)
  | panicked message => exact .panicked message

namespace Prepared

variable {α β : Type} {R : α → β → Prop} {l : List (Except Failure α)}
  {l' : List (Except Failure β)}

/-- Agreeing results break off alike. -/
theorem firstPanic?_eq (h : List.Forall₂ (Agrees Failure.Alike R) l l') :
    firstPanic? l' = firstPanic? l := by
  induction h with
  | nil => rfl
  | cons hx _ ih =>
      cases hx with
      | ok _ => exact ih
      | error he =>
          cases he with
          | fault _ => exact ih
          | panicked message => rfl

/-- Agreeing results have the same first fault. -/
theorem firstFault?_alike (h : List.Forall₂ (Agrees Failure.Alike R) l l') :
    Option.Rel Fault.Alike (firstFault? l) (firstFault? l') := by
  induction h with
  | nil => exact .none
  | cons hx _ ih =>
      cases hx with
      | ok _ => exact ih
      | error he =>
          cases he with
          | fault hf => exact .some hf
          | panicked message => exact ih

end Prepared

/-! ## One rule -/

/-- What is known of the renumbered rule. -/
def Resolved.renumber (σ : RuleId → RuleId) (r : Resolved) : Resolved :=
  { r with order := r.order.map σ }

theorem Linked.dependenciesInOrder_eq_mapError (l : Linked) (id : RuleId) :
    l.dependenciesInOrder id =
      (l.graph.dependenciesInOrder? id).mapError fun c => .cycle (c.map l.set.fullName) := by
  rw [Linked.dependenciesInOrder]
  cases l.graph.dependenciesInOrder? id with
  | error cycle => rfl
  | ok order => rfl

/-- Rules with the same attributes declare the same flags. -/
theorem Flags.ofRules_map {φ : RuleId → RuleId} {s t : RuleSet} {order : List RuleId}
    (h : ∀ id ∈ order, (t.rules[φ id]?).bind Rule.cc? = (s.rules[id]?).bind Rule.cc?) :
    ofRules t (order.map φ) = ofRules s order := by
  have hcc : ((order.map φ).filterMap fun id => (t.rules[id]?).bind Rule.cc?) =
      order.filterMap fun id => (s.rules[id]?).bind Rule.cc? := by
    rw [List.filterMap_map]
    exact List.filterMap_congr h
  rw [ofRules, ofRules, hcc]

namespace Preparer

variable {p p' : Preparer} {ρ : RuleId → RuleId} {rule : Rule}

theorem lift_eq_mapError {α : Type} (x : Outcome α) : lift x = x.mapError .fault := by
  cases x with
  | error fault => rfl
  | ok a => rfl

/-- Patterns that match the same files are expanded alike. -/
theorem expandAll_congr {patterns : List String} {base : Path}
    (h : ∀ pattern ∈ patterns, p'.expand pattern base = p.expand pattern base) :
    p'.expandAll (rule.renumber ρ) patterns base = p.expandAll rule patterns base := by
  have hname : (rule.renumber ρ).fullName = rule.fullName := rfl
  rw [expandAll, expandAll, hname]
  refine congrArg (· >>= _) (mapM_congr fun pattern hpattern => ?_)
  rw [h pattern hpattern]

/-- A rule whose patterns match the same files has the same sources and headers. -/
theorem files_congr {a : CcAttributes} (hlayout : p'.layout = p.layout)
    (h : ∀ pattern ∈ a.srcs ++ a.headers ++ a.excludes,
      p'.expand pattern (p.layout.packageDirOnDisk rule.package) =
        p.expand pattern (p.layout.packageDirOnDisk rule.package)) :
    p'.files (rule.renumber ρ) a = p.files rule a := by
  have hpart : ∀ patterns : List String, patterns ⊆ a.srcs ++ a.headers ++ a.excludes →
      p'.expandAll (rule.renumber ρ) patterns (p.layout.packageDirOnDisk rule.package) =
        p.expandAll rule patterns (p.layout.packageDirOnDisk rule.package) :=
    fun patterns hsub => expandAll_congr fun pattern hp => h pattern (hsub hp)
  have hkey : (rule.renumber ρ).package = rule.package := rfl
  rw [files, files, hlayout, hkey, hpart a.excludes (by simp), hpart a.srcs (by simp),
    hpart a.headers (by simp)]
  rfl

/-- Rules are prepared alike if they depend on rules with the same flags, and if their
    patterns match the same files. -/
theorem prepareRule_agrees {l m : Linked} {O : List RuleId → List RuleId → Prop}
    (hlayout : p'.layout = p.layout) (htypes : p'.buildTypes = p.buildTypes)
    (horder : Agrees Fault.Alike O (l.dependenciesInOrder rule.id)
      (m.dependenciesInOrder (rule.renumber ρ).id))
    (hflags : ∀ order order', O order order' →
      Flags.ofRules m.set order' = Flags.ofRules l.set order)
    (hfiles : ∀ a, rule.cc? = some a → p'.files (rule.renumber ρ) a = p.files rule a) :
    Agrees Failure.Alike (fun r r' => O r.order r'.order ∧ r' = { r with order := r'.order })
      (p.prepareRule l rule) (p'.prepareRule m (rule.renumber ρ)) := by
  have hlift : Agrees Failure.Alike O (lift (l.dependenciesInOrder rule.id))
      (lift (m.dependenciesInOrder (rule.renumber ρ).id)) := by
    rw [lift_eq_mapError, lift_eq_mapError]
    exact horder.mapError fun _ _ => .fault
  have hartifacts : p'.artifactsOf (rule.renumber ρ) = p.artifactsOf rule := by
    funext sources t
    rw [artifactsOf, hlayout]
    rfl
  have hcc : (rule.renumber ρ).cc? = rule.cc? := rfl
  rw [prepareRule, prepareRule, htypes, hartifacts, hcc]
  refine hlift.bind fun order order' ho => ?_
  cases hattributes : rule.cc? with
  | none => exact .ok ⟨ho, rfl⟩
  | some a =>
      simp only [hfiles a hattributes, hflags order order' ho]
      cases p.files rule a with
      | error e => exact .error (.refl e)
      | ok files => exact .ok ⟨ho, rfl⟩

end Preparer

namespace Linked.Renumbers

variable {l m : Linked}

theorem dependenciesInOrder (h : l.Renumbers σ m) (id : RuleId) :
    Agrees Fault.Alike (fun order order' => order' = order.map σ)
      (l.dependenciesInOrder id) (m.dependenciesInOrder (σ id)) := by
  rw [dependenciesInOrder_eq_mapError, dependenciesInOrder_eq_mapError]
  refine ((Digraph.dependenciesInOrder_embeds h.graph.embeds trivial).mono (fun _ _ hc => hc)
    fun _ _ horder => horder.1).mapError ?_
  rintro _ _ ⟨round, rfl, rfl⟩
  -- both cycles name the rules of one round, each begun at its least number
  have hround := (Cycle.rotate_isRotated round).map l.set.fullName
  have hround' := (Cycle.rotate_isRotated (round.map σ)).map m.set.fullName
  rw [List.map_map, show m.set.fullName ∘ σ = l.set.fullName from
    funext h.set.fullName] at hround'
  rw [Cycle.map_close, Cycle.map_close]
  exact .cycle (hround.trans hround'.symm)

theorem flags (h : l.Renumbers σ m) (order : List RuleId) :
    Flags.ofRules m.set (order.map σ) = Flags.ofRules l.set order := by
  refine Flags.ofRules_map fun id _ => ?_
  rw [h.set.rules id, Option.bind_map]
  rfl

/-- A renumbered rule is prepared alike. -/
theorem prepareRule (h : l.Renumbers σ m) (p : Preparer) (rule : Rule) :
    Agrees Failure.Alike (fun r r' => r' = r.renumber σ)
      (p.prepareRule l rule) (p.prepareRule m (rule.renumber σ)) := by
  refine (Preparer.prepareRule_agrees rfl rfl (h.dependenciesInOrder rule.id) ?_
    fun _ _ => rfl).mono (fun _ _ he => he) ?_
  · rintro order - rfl
    exact h.flags order
  · rintro r r' ⟨horder, hr⟩
    rw [hr, horder]
    rfl

end Linked.Renumbers

/-! ## All rules -/

/-- Whether prepared rules differ only by the permutation of the numbers. -/
structure Prepared.Renumbers (σ : Equiv.Perm RuleId) (p q : Prepared) : Prop where
  linked : p.linked.Renumbers σ q.linked
  resolved : Moved σ (Resolved.renumber σ) p.resolved q.resolved

/-- A conflict is found between the renumbered rules. -/
theorem Prepared.conflict?_renumber (σ : Equiv.Perm RuleId)
    (owners claims : List (Path × RuleId)) :
    conflict? (owners.map fun c => (c.1, σ c.2)) (claims.map fun c => (c.1, σ c.2)) =
      (conflict? owners claims).map fun c => (c.1, σ c.2.1, σ c.2.2) := by
  fun_induction conflict? owners claims with
  | case1 owners => rfl
  | case2 owners path id rest first hfirst hne =>
      have hfirst' := lookup_map_values σ owners path
      rw [hfirst] at hfirst'
      rw [List.map_cons, conflict?, hfirst']
      exact if_pos (σ.injective.ne hne)
  | case3 owners path id rest first hfirst heq ih =>
      have hfirst' := lookup_map_values σ owners path
      rw [hfirst] at hfirst'
      rw [List.map_cons, conflict?, hfirst', ← ih]
      exact if_neg (not_not.2 (congrArg σ (not_not.1 heq)))
  | case4 owners path id rest hfirst ih =>
      have hfirst' := lookup_map_values σ owners path
      rw [hfirst] at hfirst'
      rw [List.map_cons, conflict?, hfirst', ← ih]
      rfl

namespace Linked.Renumbers

variable {l m : Linked} {resolved resolved' : List Resolved}

theorem claims (h : l.Renumbers σ m) (hnames : (l.set.rules.map Rule.fullName).Nodup)
    (hresolved : Moved σ (Resolved.renumber σ) resolved resolved') :
    Prepared.claims m.set resolved' =
      (Prepared.claims l.set resolved).map fun c => (c.1, σ c.2) := by
  rw [Prepared.claims, Prepared.claims, h.set.idsByName hnames, List.flatMap_map, List.map_flatMap]
  refine List.flatMap_congr fun id _ => ?_
  rw [hresolved.getD id (a := default) (b := default) rfl, List.map_map]
  rfl

/-- The first source with two owners is found alike. -/
theorem checkOwnership (h : l.Renumbers σ m) (hnames : (l.set.rules.map Rule.fullName).Nodup)
    (hresolved : Moved σ (Resolved.renumber σ) resolved resolved') :
    Prepared.checkOwnership m.set resolved' = Prepared.checkOwnership l.set resolved := by
  have hconflict := Prepared.conflict?_renumber σ [] (Prepared.claims l.set resolved)
  rw [← h.claims hnames hresolved] at hconflict
  rw [Prepared.checkOwnership, Prepared.checkOwnership, show
    Prepared.conflict? [] (Prepared.claims m.set resolved') = _ from hconflict]
  cases Prepared.conflict? [] (Prepared.claims l.set resolved) with
  | none => rfl
  | some c =>
      show Except.error (Fault.duplicateSource c.1.text (m.set.fullName (σ c.2.1))
        (m.set.fullName (σ c.2.2))) = _
      rw [h.set.fullName, h.set.fullName]

/-- Renumbered rules are prepared alike. -/
theorem ofLinked (h : l.Renumbers σ m) (hnames : (l.set.rules.map Rule.fullName).Nodup)
    (p : Preparer) :
    Agrees Fault.Alike (fun q q' => q.linked = l ∧ q.Renumbers σ q')
      (Prepared.ofLinked p l) (Prepared.ofLinked p m) := by
  have hresults : List.Forall₂ (Agrees Failure.Alike fun r r' => r' = r.renumber σ)
      (l.set.byName.map (p.prepareRule l)) (m.set.byName.map (p.prepareRule m)) := by
    rw [h.set.byName hnames, List.map_map, List.forall₂_map_left_iff, List.forall₂_map_right_iff]
    exact List.forall₂_same.2 fun rule _ => h.prepareRule p rule
  have hresolved : Moved σ (Resolved.renumber σ)
      (l.set.rules.map fun rule => (p.prepareRule l rule).toOption.getD default)
      (m.set.rules.map fun rule => (p.prepareRule m rule).toOption.getD default) :=
    h.set.rules.map fun rule _ => (h.prepareRule p rule).getD rfl
  have hfault := Prepared.firstFault?_alike hresults
  rw [Prepared.ofLinked, Prepared.ofLinked]
  simp only [Prepared.firstPanic?_eq hresults, h.checkOwnership hnames hresolved]
  cases Prepared.firstPanic? (l.set.byName.map (p.prepareRule l)) with
  | some message => exact .error (.same _)
  | none =>
      generalize Prepared.firstFault? (l.set.byName.map (p.prepareRule l)) = fault,
        Prepared.firstFault? (m.set.byName.map (p.prepareRule m)) = fault' at hfault ⊢
      cases hfault with
      | some hf => exact .error hf
      | none =>
          cases Prepared.checkOwnership l.set _ with
          | error fault => exact .error (.same fault)
          | ok _ => exact .ok ⟨rfl, h, hresolved⟩

end Linked.Renumbers

end Buildwright
