import Buildwright.Proofs.Lookup
import Buildwright.Proofs.Package.Frozen

/-! # Operations on packages and rules

    Loading tasks share the packages and the rules of a catalog.  A task finds
    its package, and makes it if it is new; then it begins the package, adds
    rules to it or finishes it.  Tasks do so in any order, and may be refused.

    The rules are kept twice, in the order of their numbers and by package and
    name.  Whatever the operations are, both say the same.

    * `Operation`, `perform`, `performAll` — operations, and what they answer;
    * `Coherent` — packages list the rules, each once;
    * `Precedes` — packages stay, and their states only go forward;
    * `packages_list_rules` — what holds after any operations. -/

namespace Buildwright

/-- No state comes behind the last one. -/
theorem LoadState.rank_le_done (state : LoadState) : state.rank ≤ LoadState.done.rank := by
  cases state with
  | notStarted => decide
  | inProgress => decide
  | done => decide

namespace Catalog

/-- An operation of a task.  It finds its package first, and makes it if it is new. -/
inductive Operation where
  | visit (key : String)
  | begin (key : String) (file : Path)
  | finish (key : String)
  | addRule (key : String) (declaration : Declaration)

/-- What an operation answers. -/
inductive Answer where
  /-- Whether the package is new. -/
  | visited (new : Bool)
  /-- Whether the package is begun by this operation. -/
  | begun (fresh : Bool)
  | finished
  /-- The number of the rule. -/
  | added (id : RuleId)
  | refused (fault : Fault)
deriving DecidableEq

/-- Perform an operation.  A rule that is refused leaves the catalog as it was found. -/
def perform (c : Catalog) : Operation → Answer × Catalog
  | .visit key => (.visited !c.contains key, c.visit key)
  | .begin key file => (.begun (c.isFresh key), c.begin key file)
  | .finish key => (.finished, c.finish key)
  | .addRule key declaration =>
    match c.addRule key declaration with
    | .ok (id, c) => (.added id, c)
    | .error fault => (.refused fault, c.visit key)

/-- Perform operations one after the other.  Their answers come in the same order. -/
def performAll (c : Catalog) : List Operation → List Answer × Catalog
  | [] => ([], c)
  | operation :: rest =>
    let (answer, c) := c.perform operation
    let (answers, c) := c.performAll rest
    (answer :: answers, c)

/-- Whether an operation with its answer has begun the package. -/
def Begins (key : String) : Operation × Answer → Bool
  | (.begin key' _, .begun true) => key' = key
  | _ => false

/-- Every rule that a package lists, with the key of the package and the name. -/
def entries (c : Catalog) : List (String × String × RuleId) :=
  c.packages.flatMap fun p => p.rules.map fun e => (p.key, e.1, e.2)

variable {c c' c'' : Catalog} {key key' name : String} {id : RuleId} {p q : Package}

theorem performAll_append (ops ops' : List Operation) :
    (c.performAll (ops ++ ops')).2 = ((c.performAll ops).2.performAll ops').2 := by
  induction ops generalizing c with
  | nil => rfl
  | cons operation rest ih => exact ih

/-! ## Packages that are found -/

/-- The package of a key is found in every catalog that has it. -/
theorem exists_package?_of_contains (h : c.contains key = true) :
    ∃ p, c.package? key = some p := by
  obtain ⟨p, hp, hkey⟩ := contains_iff.1 h
  exact Option.isSome_iff_exists.1 (List.find?_isSome.2 ⟨p, hp, decide_eq_true hkey⟩)

theorem mem_of_package? (h : c.package? key = some p) : p ∈ c.packages ∧ p.key = key :=
  ⟨List.mem_of_find?_eq_some h, by simpa using List.find?_some h⟩

theorem contains_of_package? (h : c.package? key = some p) : c.contains key = true :=
  contains_iff.2 ⟨p, mem_of_package? h⟩

/-- A key without a package has no rules. -/
theorem lookup?_of_not_contains (h : c.contains key = false) : c.lookup? key name = none := by
  cases hp : c.package? key with
  | none => rw [lookup?, hp, Option.bind_none]
  | some p => exact absurd (contains_of_package? hp) (Bool.eq_false_iff.1 h)

theorem contains_visit : (c.visit key).contains key = true := by
  by_cases h : c.contains key = true
  · rwa [visit_of_contains h]
  · rw [visit, if_neg h]
    exact contains_iff.2 ⟨{ key }, mem_insertPackage.2 (.inl rfl), rfl⟩

@[simp]
theorem rules_visit : (c.visit key).rules = c.rules := by
  rw [visit]
  split <;> rfl

/-- A visit leaves the packages that are found. -/
theorem package?_visit_of_contains (h : c.contains key' = true) :
    (c.visit key).package? key' = c.package? key' := by
  by_cases hc : c.contains key = true
  · rw [visit_of_contains hc]
  · rw [visit, if_neg hc]
    refine find?_insertPackage_of_ne ?_ _
    rintro rfl
    exact hc h

/-- A change of one package is seen when it is found. -/
theorem package?_modify {f : Package → Package} (hf : ∀ p, (f p).key = p.key) :
    (c.modify key f).package? key' =
      (c.package? key').map fun p => if p.key = key then f p else p := by
  have hkey : (fun p : Package => decide (p.key = key')) ∘
      (fun p => if p.key = key then f p else p) = fun p => decide (p.key = key') := by
    funext p
    by_cases hp : p.key = key
    · simp only [Function.comp_apply, if_pos hp, hf]
    · simp only [Function.comp_apply, if_neg hp]
  rw [package?, modify, List.find?_map, hkey]
  rfl

/-- A visit adds no rule: a key that is new has none. -/
theorem lookup?_visit : (c.visit key).lookup? key name = c.lookup? key name := by
  by_cases h : c.contains key = true
  · rw [visit_of_contains h]
  · have hne : ∀ r ∈ c.packages, r.key ≠ ({ key } : Package).key :=
      not_contains_iff.1 (Bool.eq_false_iff.2 h)
    have hnew : (c.visit key).package? key = some { key } := by
      rw [visit, if_neg h]
      exact find?_insertPackage_self (q := { key }) hne
    rw [lookup?_of_not_contains (Bool.eq_false_iff.2 h), lookup?, hnew]
    rfl

/-! ## Rules that are refused -/

/-- A rule is refused if its name is taken. -/
theorem addRule_of_lookup? {d : Declaration} (h : c.lookup? key d.name = some id) :
    c.addRule key d = .error (.duplicateRule key d.name) := by
  simp only [addRule, lookup?_visit, h]

/-- A rule whose name is free is added under the next number. -/
theorem addRule_of_lookup?_eq_none {d : Declaration} (h : c.lookup? key d.name = none) :
    c.addRule key d = .ok (c.rules.length,
      ⟨((c.visit key).modify key fun p =>
          { p with rules := p.rules ++ [(d.name, c.rules.length)] }).packages,
        c.rules ++ [⟨c.rules.length, key, d⟩]⟩) := by
  simp only [addRule, lookup?_visit, h, modify, rules_visit]

/-- A rule that is refused changes nothing. -/
theorem perform_of_lookup? {d : Declaration} (h : c.lookup? key d.name = some id) :
    c.perform (.addRule key d) = (.refused (.duplicateRule key d.name), c) := by
  have hcontains : c.contains key = true := by
    by_contra hnot
    rw [lookup?_of_not_contains (Bool.eq_false_iff.2 hnot)] at h
    cases h
  simp only [perform, addRule_of_lookup? h, visit_of_contains hcontains]

/-! ## Packages list the rules -/

/-- Whether rules stand at the places of their numbers, and packages list them all,
    each once. -/
structure Coherent (c : Catalog) : Prop where
  keys : (c.packages.map Package.key).Nodup
  names : ∀ p ∈ c.packages, (p.rules.map Prod.fst).Nodup
  ids : c.rules.map Rule.id = List.range c.rules.length
  listed : c.entries.Perm (c.rules.map fun r => (r.package, r.name, r.id))

theorem coherent_empty : Coherent {} where
  keys := List.nodup_nil
  names _ h := absurd h List.not_mem_nil
  ids := rfl
  listed := .refl _

theorem Coherent.visit (h : c.Coherent) (key : String) : (c.visit key).Coherent := by
  by_cases hc : c.contains key = true
  · rwa [visit_of_contains hc]
  rw [Catalog.visit, if_neg hc]
  have hne := not_contains_iff.1 (Bool.eq_false_iff.2 hc)
  have hperm := insertPackage_perm { key } c.packages
  refine ⟨?_, ?_, h.ids, ?_⟩
  · rw [(hperm.map Package.key).nodup_iff, List.map_cons, List.nodup_cons]
    refine ⟨?_, h.keys⟩
    rintro hmem
    obtain ⟨q, hq, hkey⟩ := List.mem_map.1 hmem
    exact hne q hq hkey
  · intro p hp
    rcases mem_insertPackage.1 hp with rfl | hp
    · exact List.nodup_nil
    · exact h.names p hp
  · exact (hperm.flatMap_right _).trans h.listed

/-- A change of the package of a key is a change at one place. -/
theorem Coherent.exists_modify (h : c.Coherent) (hc : c.contains key = true) :
    ∃ l₁ p l₂, c.packages = l₁ ++ p :: l₂ ∧ c.package? key = some p ∧
      ∀ f, (c.modify key f).packages = l₁ ++ f p :: l₂ := by
  obtain ⟨p, hp⟩ := exists_package?_of_contains hc
  obtain ⟨hmem, rfl⟩ := mem_of_package? hp
  obtain ⟨l₁, l₂, hl⟩ := List.append_of_mem hmem
  refine ⟨l₁, p, l₂, hl, hp, fun f => ?_⟩
  have hkeys := h.keys
  rw [hl, List.map_append, List.map_cons] at hkeys
  have hnot : ∀ q ∈ l₁ ++ l₂, q.key ≠ p.key := by
    intro q hq heq
    have hdisjoint := (List.nodup_middle.1 hkeys)
    rw [List.nodup_cons, ← List.map_append] at hdisjoint
    exact hdisjoint.1 (List.mem_map.2 ⟨q, hq, heq⟩)
  have hid : ∀ l : List Package, (∀ q ∈ l, q ∈ l₁ ++ l₂) →
      l.map (fun q => if q.key = p.key then f q else q) = l := by
    intro l hsub
    exact (List.map_congr_left fun q hq => if_neg (hnot q (hsub q hq))).trans (List.map_id l)
  simp only [modify, hl, List.map_append, List.map_cons, if_true]
  rw [hid l₁ fun q hq => List.mem_append_left _ hq,
    hid l₂ fun q hq => List.mem_append_right _ hq]

/-- A change that keeps keys and rules of a package keeps the catalog coherent. -/
theorem Coherent.modify {f : Package → Package} (h : c.Coherent)
    (hkey : ∀ p, (f p).key = p.key) (hrules : ∀ p, (f p).rules = p.rules) (key : String) :
    (c.modify key f).Coherent := by
  have hsame : ∀ p : Package, (if p.key = key then f p else p).key = p.key ∧
      (if p.key = key then f p else p).rules = p.rules := by
    intro p
    split
    · exact ⟨hkey p, hrules p⟩
    · exact ⟨rfl, rfl⟩
  refine ⟨?_, ?_, h.ids, ?_⟩
  · have hkeys : (c.modify key f).packages.map Package.key = c.packages.map Package.key :=
      List.map_map.trans (List.map_congr_left fun p _ => (hsame p).1)
    rw [hkeys]
    exact h.keys
  · intro p hp
    obtain ⟨q, hq, rfl⟩ := List.mem_map.1 hp
    rw [(hsame q).2]
    exact h.names q hq
  · have hentries : (c.modify key f).entries = c.entries := by
      simp only [entries, Catalog.modify, List.flatMap_map, hsame]
    rw [hentries]
    exact h.listed

/-- A rule whose name is free is listed by its package. -/
theorem Coherent.addRule {d : Declaration} (h : c.Coherent) (hc : c.contains key = true)
    (hfree : c.lookup? key d.name = none) :
    Coherent ⟨(c.modify key fun p =>
        { p with rules := p.rules ++ [(d.name, c.rules.length)] }).packages,
      c.rules ++ [⟨c.rules.length, key, d⟩]⟩ := by
  obtain ⟨l₁, p, l₂, hl, hp, hmodify⟩ := h.exists_modify hc
  obtain ⟨hmem, hkey⟩ := mem_of_package? hp
  have hnew : d.name ∉ p.rules.map Prod.fst := by
    rw [lookup?, hp, Option.bind_some] at hfree
    exact notMem_keys_of_lookup_eq_none hfree
  rw [hmodify]
  refine ⟨?_, ?_, ?_, ?_⟩
  · have hkeys := h.keys
    rw [hl] at hkeys
    simpa using hkeys
  · intro q hq
    have hold : ∀ r ∈ l₁ ++ l₂, (r.rules.map Prod.fst).Nodup := by
      intro r hr
      refine h.names r ?_
      rw [hl]
      exact (List.perm_middle.mem_iff).2 (List.mem_cons_of_mem _ hr)
    rcases List.mem_cons.1 (List.perm_middle.mem_iff.1 hq) with rfl | hq
    · simp only [List.map_append, List.map_cons, List.map_nil]
      exact (h.names p hmem).append (List.nodup_singleton _) (by simpa using hnew)
    · exact hold q hq
  · simp only [List.map_append, List.map_cons, List.map_nil, List.length_append,
      List.length_cons, List.length_nil, h.ids, List.range_succ]
  · -- the new entry stands behind the others of its package, the new rule behind all rules
    have hlisted := h.listed
    simp only [entries, hl, List.flatMap_append, List.flatMap_cons] at hlisted
    simp only [entries, List.flatMap_append, List.flatMap_cons, List.map_append, List.map_cons,
      List.map_nil, hkey]
    rw [hkey] at hlisted
    refine .trans ?_ (hlisted.append_right _)
    rw [List.append_assoc, List.append_assoc, List.append_assoc]
    exact (List.perm_append_comm.append_left _).append_left _

/-- Every operation keeps the catalog coherent. -/
theorem Coherent.perform (h : c.Coherent) (operation : Operation) :
    (c.perform operation).2.Coherent := by
  cases operation with
  | visit key => exact h.visit key
  | begin key file =>
      refine (h.visit key).modify (fun p => ?_) (fun p => ?_) key
      · split <;> rfl
      · split <;> rfl
  | finish key =>
      exact Coherent.modify (f := fun p => { p with state := .done }) (h.visit key)
        (fun _ => rfl) (fun _ => rfl) key
  | addRule key d =>
      cases hfree : c.lookup? key d.name with
      | some id =>
          rw [perform_of_lookup? hfree]
          exact h
      | none =>
          have hadd := (h.visit key).addRule (d := d) contains_visit
            (lookup?_visit.trans hfree)
          rw [rules_visit] at hadd
          simp only [Catalog.perform, addRule_of_lookup?_eq_none hfree]
          exact hadd

theorem Coherent.performAll (h : c.Coherent) (ops : List Operation) :
    (c.performAll ops).2.Coherent := by
  induction ops generalizing c with
  | nil => exact h
  | cons operation rest ih => exact ih (h.perform operation)

/-- In a coherent catalog, a name is found if and only if its package lists it. -/
theorem Coherent.lookup?_eq_some_iff (h : c.Coherent) :
    c.lookup? key name = some id ↔ (key, name, id) ∈ c.entries := by
  have hentries : (key, name, id) ∈ c.entries ↔
      ∃ p ∈ c.packages, p.key = key ∧ (name, id) ∈ p.rules := by
    simp only [entries, List.mem_flatMap, List.mem_map, Prod.mk.injEq]
    constructor
    · rintro ⟨p, hp, ⟨n, i⟩, he, rfl, rfl, rfl⟩
      exact ⟨p, hp, rfl, he⟩
    · rintro ⟨p, hp, rfl, he⟩
      exact ⟨p, hp, _, he, rfl, rfl, rfl⟩
  rw [hentries]
  constructor
  · intro hlookup
    obtain ⟨p, hp, hname⟩ := Option.bind_eq_some_iff.1 hlookup
    obtain ⟨hmem, hkey⟩ := mem_of_package? hp
    exact ⟨p, hmem, hkey, mem_of_lookup_eq_some hname⟩
  · rintro ⟨p, hmem, hkey, he⟩
    obtain ⟨q, hq⟩ := exists_package?_of_contains (contains_iff.2 ⟨p, hmem, hkey⟩)
    obtain ⟨hqmem, hqkey⟩ := mem_of_package? hq
    obtain rfl : q = p := List.inj_on_of_nodup_map h.keys hqmem hmem (hqkey.trans hkey.symm)
    rw [lookup?, hq, Option.bind_some, lookup_eq_some_iff_mem (h.names q hmem)]
    exact he

/-- A name is found if and only if there is a rule of this name in the package. -/
theorem Coherent.lookup?_iff_rule (h : c.Coherent) :
    c.lookup? key name = some id ↔
      ∃ r, c.rules[id]? = some r ∧ r.package = key ∧ r.name = name := by
  rw [h.lookup?_eq_some_iff, h.listed.mem_iff, List.mem_map]
  constructor
  · rintro ⟨r, hr, heq⟩
    obtain ⟨i, hi⟩ := List.mem_iff_getElem?.1 hr
    obtain rfl : r.id = i := id_eq_of_map_id h.ids hi
    simp only [Prod.mk.injEq] at heq
    obtain ⟨hpackage, hname, rfl⟩ := heq
    exact ⟨r, hi, hpackage, hname⟩
  · rintro ⟨r, hr, rfl, rfl⟩
    exact ⟨r, List.mem_of_getElem? hr, by rw [id_eq_of_map_id h.ids hr]⟩

/-! ## States go forward -/

/-- Whether every package of one catalog is in the other, in the same state or in a
    later one. -/
def Precedes (c c' : Catalog) : Prop :=
  ∀ key p, c.package? key = some p →
    ∃ q, c'.package? key = some q ∧ p.state.rank ≤ q.state.rank

theorem Precedes.refl (c : Catalog) : c.Precedes c :=
  fun _ p hp => ⟨p, hp, le_refl _⟩

theorem Precedes.trans (h : c.Precedes c') (h' : c'.Precedes c'') : c.Precedes c'' := by
  intro key p hp
  obtain ⟨q, hq, hpq⟩ := h key p hp
  obtain ⟨r, hr, hqr⟩ := h' key q hq
  exact ⟨r, hr, le_trans hpq hqr⟩

theorem precedes_visit (c : Catalog) (key : String) : c.Precedes (c.visit key) := fun _ p hp =>
  ⟨p, (package?_visit_of_contains (contains_of_package? hp)).trans hp, le_refl _⟩

theorem precedes_modify {f : Package → Package} (hkey : ∀ p, (f p).key = p.key)
    (hstate : ∀ p, p.state.rank ≤ (f p).state.rank) (c : Catalog) (key : String) :
    c.Precedes (c.modify key f) := by
  intro key' p hp
  refine ⟨if p.key = key then f p else p, by rw [package?_modify hkey, hp]; rfl, ?_⟩
  split
  · exact hstate p
  · exact le_refl _

/-- Beginning a package does not take it back. -/
theorem precedes_begin (c : Catalog) (key : String) (file : Path) :
    c.Precedes (c.begin key file) := by
  refine (precedes_visit c key).trans (precedes_modify (fun p => ?_) (fun p => ?_) _ _)
  · split <;> rfl
  · split
    · next hstate =>
        rw [hstate]
        exact Nat.zero_le _
    · exact le_refl _

theorem precedes_finish (c : Catalog) (key : String) : c.Precedes (c.finish key) := by
  refine (precedes_visit c key).trans
    (precedes_modify (f := fun p => { p with state := .done }) (fun _ => rfl) (fun p => ?_) _ _)
  exact p.state.rank_le_done

/-- Every operation keeps the packages and takes none of them back. -/
theorem precedes_perform (c : Catalog) (operation : Operation) :
    c.Precedes (c.perform operation).2 := by
  cases operation with
  | visit key => exact precedes_visit c key
  | begin key file => exact precedes_begin c key file
  | finish key => exact precedes_finish c key
  | addRule key d =>
      cases hfree : c.lookup? key d.name with
      | some id =>
          rw [perform_of_lookup? hfree]
          exact .refl c
      | none =>
          simp only [perform, addRule_of_lookup?_eq_none hfree]
          exact (precedes_visit c key).trans (precedes_modify
            (f := fun p => { p with rules := p.rules ++ [(d.name, c.rules.length)] })
            (fun _ => rfl) (fun _ => le_refl _) (c.visit key) key)

theorem precedes_performAll (c : Catalog) (ops : List Operation) :
    c.Precedes (c.performAll ops).2 := by
  induction ops generalizing c with
  | nil => exact .refl c
  | cons operation rest ih => exact (precedes_perform c operation).trans (ih _)

/-- A package that was begun stays begun. -/
theorem Precedes.isFresh (h : c.Precedes c') (hfresh : c'.isFresh key = true) :
    c.isFresh key = true := by
  cases hp : c.package? key with
  | none => simp only [Catalog.isFresh, hp]
  | some p =>
      obtain ⟨q, hq, hle⟩ := h key p hp
      simp only [Catalog.isFresh, hq, decide_eq_true_eq] at hfresh
      rw [hfresh] at hle
      simp only [Catalog.isFresh, hp, decide_eq_true_eq]
      cases hstate : p.state with
      | notStarted => rfl
      | inProgress =>
          rw [hstate] at hle
          exact absurd hle (by decide)
      | done =>
          rw [hstate] at hle
          exact absurd hle (by decide)

/-- A package that was just begun is not fresh. -/
theorem isFresh_begin (c : Catalog) (key : String) (file : Path) :
    (c.begin key file).isFresh key = false := by
  obtain ⟨p, hp⟩ := exists_package?_of_contains (c := c.visit key) contains_visit
  have hkey : ∀ p : Package, (if p.state = .notStarted
      then { p with state := .inProgress, file := some file } else p).key = p.key := by
    intro p
    split <;> rfl
  simp only [Catalog.isFresh, begin, package?_modify hkey, hp, Option.map_some,
    if_pos (mem_of_package? hp).2]
  by_cases hstate : p.state = .notStarted
  · simp [hstate]
  · simp [hstate]

theorem begins_iff {operation : Operation} {answer : Answer} :
    Begins key (operation, answer) = true ↔
      ∃ file, operation = .begin key file ∧ answer = .begun true := by
  constructor
  · intro h
    cases operation with
    | begin key' file =>
        cases answer with
        | begun fresh =>
            cases fresh with
            | true =>
                obtain rfl : key' = key := of_decide_eq_true h
                exact ⟨file, rfl, rfl⟩
            | false => cases h
        | _ => cases h
    | _ => cases h
  · rintro ⟨file, rfl, rfl⟩
    exact decide_eq_true rfl

/-- An operation begins a package only if it is fresh, and it is not fresh any more. -/
theorem toNat_begins_add_le (c : Catalog) (operation : Operation) (key : String) :
    (Begins key (operation, (c.perform operation).1)).toNat +
      ((c.perform operation).2.isFresh key).toNat ≤ (c.isFresh key).toNat := by
  by_cases hbegins : Begins key (operation, (c.perform operation).1) = true
  · obtain ⟨file, rfl, hanswer⟩ := begins_iff.1 hbegins
    have hfresh : c.isFresh key = true := by simpa [perform] using hanswer
    have hafter : (c.perform (.begin key file)).2.isFresh key = false := isFresh_begin c key file
    rw [hbegins, hafter, hfresh]
    decide
  · rw [Bool.eq_false_iff.2 hbegins]
    cases hafter : (c.perform operation).2.isFresh key with
    | false => exact Nat.zero_le _
    | true =>
        rw [(precedes_perform c operation).isFresh hafter]
        decide

/-- A package is begun at most once, and not at all if it is not fresh. -/
theorem countP_begins_le (c : Catalog) (ops : List Operation) (key : String) :
    (ops.zip (c.performAll ops).1).countP (Begins key) ≤ (c.isFresh key).toNat := by
  induction ops generalizing c with
  | nil => exact Nat.zero_le _
  | cons operation rest ih =>
      have hcount : ((operation :: rest).zip (c.performAll (operation :: rest)).1).countP
            (Begins key) =
          (rest.zip ((c.perform operation).2.performAll rest).1).countP (Begins key) +
            (Begins key (operation, (c.perform operation).1)).toNat := by
        rw [performAll, List.zip_cons_cons, List.countP_cons]
        cases Begins key (operation, (c.perform operation).1) <;> rfl
      have hstep := toNat_begins_add_le c operation key
      have hrest := ih (c.perform operation).2
      omega

/-! ## What holds after any operations -/

/-- A frozen catalog finds what the catalog has found. -/
theorem lookup?_frozen (c : Catalog) (key name : String) :
    c.frozen.lookup? key name = c.lookup? key name := by
  rw [RuleSet.lookup?, package?_frozen, lookup?, Option.bind_map]
  rfl

/-- After any operations on a new catalog, the rules stand at the places of their
    numbers, and a package has a name for a number exactly if the rule of this number is
    of that package and name; the entries of all packages are all rules, each once.

    A rule is refused exactly if its name is taken, and then nothing changes.  No
    package was begun twice, and none was lost or taken back to a state that it
    had left.  If the catalog can be frozen, the frozen one finds the same rules. -/
theorem packages_list_rules (ops : List Operation) :
    let c : Catalog := (performAll {} ops).2
    (∀ i (r : Rule), c.rules[i]? = some r → r.id = i) ∧
    (∀ key name i, c.lookup? key name = some i ↔
      ∃ r, c.rules[i]? = some r ∧ r.package = key ∧ r.name = name) ∧
    c.entries.Perm (c.rules.map fun r => (r.package, r.name, r.id)) ∧
    (∀ i < c.rules.length, ∃! e : String × String, c.lookup? e.1 e.2 = some i) ∧
    (∀ key d, (∃ i, c.lookup? key d.name = some i) →
      c.addRule key d = .error (.duplicateRule key d.name) ∧
        c.perform (.addRule key d) = (.refused (.duplicateRule key d.name), c)) ∧
    (∀ key d, c.lookup? key d.name = none →
      (c.perform (.addRule key d)).1 = .added c.rules.length) ∧
    (∀ key, (ops.zip (performAll {} ops).1).countP (Begins key) ≤ 1) ∧
    (∀ earlier later, ops = earlier ++ later → (performAll {} earlier).2.Precedes c) ∧
    ∀ set, c.freeze = .ok set → set.rules = c.rules ∧
      ∀ key name i, set.lookup? key name = some i ↔
        ∃ r, set.rules[i]? = some r ∧ r.package = key ∧ r.name = name := by
  intro c
  have hc : c.Coherent := coherent_empty.performAll ops
  refine ⟨?numbered, ?found, hc.listed, ?once, ?taken, ?free, ?begun, ?forward, ?frozen⟩
  case numbered => exact fun i r hr => id_eq_of_map_id hc.ids hr
  case found => exact fun key name i => hc.lookup?_iff_rule
  case once =>
    intro i hi
    have hr : c.rules[i]? = some c.rules[i] := List.getElem?_eq_getElem hi
    refine ⟨(c.rules[i].package, c.rules[i].name), hc.lookup?_iff_rule.2 ⟨_, hr, rfl, rfl⟩, ?_⟩
    rintro ⟨key, name⟩ hlookup
    obtain ⟨r, hr', rfl, rfl⟩ := hc.lookup?_iff_rule.1 hlookup
    rw [Option.some.inj (hr.symm.trans hr')]
  case taken =>
    rintro key d ⟨i, hi⟩
    exact ⟨addRule_of_lookup? hi, perform_of_lookup? hi⟩
  case free =>
    intro key d hfree
    simp only [perform, addRule_of_lookup?_eq_none hfree]
  case begun => exact fun key => (countP_begins_le {} ops key).trans (Bool.toNat_le _)
  case forward =>
    rintro earlier later rfl
    have hsplit : c = ((performAll {} earlier).2.performAll later).2 :=
      performAll_append earlier later
    rw [hsplit]
    exact precedes_performAll _ later
  case frozen =>
    intro set hset
    obtain ⟨-, rfl⟩ := freeze_eq_ok_iff.1 hset
    refine ⟨rfl, fun key name i => ?_⟩
    rw [lookup?_frozen]
    exact hc.lookup?_iff_rule

/-- A library without sources. -/
def base : Declaration where
  type := .ccLibrary
  name := "base"
  version := "DEFAULT"
  deps := []
  attributes := .cc {}

/-- A package that declares the library twice, and is begun twice. -/
def declaredTwice : List Operation :=
  [.visit "lib", .begin "lib" ⟨"lib/BUILD"⟩, .addRule "lib" base, .begin "lib" ⟨"lib/BUILD"⟩,
    .addRule "lib" base, .finish "lib"]

/-- The library is the only rule, and stays the one that is found. -/
theorem declaredTwice_finds_first :
    (performAll {} declaredTwice).2.rules.length = 1 ∧
      (performAll {} declaredTwice).2.lookup? "lib" "base" = some 0 ∧
      (performAll {} declaredTwice).2.addRule "lib" base =
        .error (.duplicateRule "lib" "base") ∧
      ∃ set, (performAll {} declaredTwice).2.freeze = .ok set ∧
        set.lookup? "lib" "base" = some 0 := by
  obtain ⟨-, hfound, -, -, htaken, -, -, -, hfrozen⟩ := packages_list_rules declaredTwice
  have hrule : (performAll {} declaredTwice).2.rules[0]? = some ⟨0, "lib", base⟩ := rfl
  have hlookup : (performAll {} declaredTwice).2.lookup? "lib" "base" = some 0 :=
    (hfound "lib" "base" 0).2 ⟨_, hrule, rfl, rfl⟩
  obtain ⟨hrules, hset⟩ := hfrozen _ rfl
  refine ⟨rfl, hlookup, (htaken "lib" base ⟨0, hlookup⟩).1, _, rfl, ?_⟩
  exact (hset "lib" "base" 0).2 ⟨_, by rw [hrules]; exact hrule, rfl, rfl⟩

end Catalog

end Buildwright
