import Buildwright.Package.Catalog
import Mathlib.Data.List.Nodup
import Mathlib.Data.String.Basic

/-! # Catalogs, package by package

    A task of loading adds one package: it begins it, adds its rules one by
    one, and finishes it.  `Catalog.adopt` is the catalog with a package and
    its rules added at once.  The three steps are the same adoption with more
    and more of the declarations, and in a state further on. -/

namespace Buildwright

/-- What a declaration file gives: a package with its declarations in order. -/
structure Contents where
  key : String
  file : Path
  declarations : List Declaration := []
deriving DecidableEq, Repr

namespace Contents

/-- The names of the rules in order of declaration. -/
def names (p : Contents) : List String :=
  p.declarations.map Declaration.name

/-- The contents with one more declaration. -/
def declare (p : Contents) (d : Declaration) : Contents :=
  { p with declarations := p.declarations ++ [d] }

/-- The contents with more declarations. -/
def declareAll (p : Contents) (ds : List Declaration) : Contents :=
  { p with declarations := p.declarations ++ ds }

theorem names_declare (p : Contents) (d : Declaration) :
    (p.declare d).names = p.names ++ [d.name] := by
  simp [names, declare]

theorem names_declareAll (p : Contents) (ds : List Declaration) :
    (p.declareAll ds).names = p.names ++ ds.map Declaration.name := by
  simp [names, declareAll]

theorem declareAll_nil (p : Contents) : p.declareAll [] = p := by
  simp [declareAll]

theorem declareAll_cons (p : Contents) (d : Declaration) (ds : List Declaration) :
    p.declareAll (d :: ds) = (p.declare d).declareAll ds := by
  simp [declareAll, declare]

/-- The rules of the package, numbered from `n` on. -/
def rulesFrom (p : Contents) (n : Nat) : List Rule :=
  p.declarations.mapIdx fun i d => { id := n + i, package := p.key, declaration := d }

/-- The package with its rules numbered from `n` on. -/
def packageFrom (p : Contents) (n : Nat) (state : LoadState) : Package where
  key := p.key
  state := state
  file := some p.file
  rules := p.declarations.mapIdx fun i d => (d.name, n + i)

@[simp] theorem length_rulesFrom (p : Contents) (n : Nat) :
    (p.rulesFrom n).length = p.declarations.length := by
  simp [rulesFrom]

/-- The rules have the names of the declarations. -/
theorem map_rulesFrom (p : Contents) (n : Nat) :
    ((p.rulesFrom n).map fun rule => (rule.package, rule.name)) = p.names.map (Prod.mk p.key) := by
  refine List.ext_getElem (by simp [rulesFrom, names]) fun i hi _ => ?_
  simp [rulesFrom, names, Rule.name]

theorem rulesFrom_declare (p : Contents) (d : Declaration) (n : Nat) :
    (p.declare d).rulesFrom n =
      p.rulesFrom n ++ [⟨n + p.declarations.length, p.key, d⟩] := by
  simp [rulesFrom, declare, List.mapIdx_append]

theorem packageFrom_declare (p : Contents) (d : Declaration) (n : Nat) (state : LoadState) :
    (p.declare d).packageFrom n state =
      { p.packageFrom n state with
        rules := (p.packageFrom n state).rules ++ [(d.name, n + p.declarations.length)] } := by
  simp [packageFrom, declare, List.mapIdx_append]

/-- A name has a number in the package if it is declared. -/
theorem lookup_packageFrom_eq_none_iff (p : Contents) (n : Nat) (state : LoadState)
    (name : String) :
    (p.packageFrom n state).rules.lookup name = none ↔ name ∉ p.names := by
  rw [List.lookup_eq_none_iff]
  constructor
  · intro h hn
    obtain ⟨d, hd, rfl⟩ := List.mem_map.1 hn
    obtain ⟨i, hi, rfl⟩ := List.mem_iff_getElem.1 hd
    have hm : ((p.declarations[i]).name, n + i) ∈ (p.packageFrom n state).rules :=
      List.mem_mapIdx.2 ⟨i, hi, rfl⟩
    simpa using h _ hm
  · intro h e he
    obtain ⟨i, hi, rfl⟩ := List.mem_mapIdx.1 he
    have hne : name ≠ (p.declarations[i]).name := by
      rintro rfl
      exact h (List.mem_map.2 ⟨_, List.getElem_mem hi, rfl⟩)
    simpa using hne

end Contents

namespace Catalog

variable {c : Catalog} {p : Contents} {q : Package} {key : String} {state : LoadState}

/-- The catalog with a package and its rules under the next numbers. -/
def adopt (c : Catalog) (p : Contents) (state : LoadState := .done) : Catalog where
  packages := insertPackage (p.packageFrom c.rules.length state) c.packages
  rules := c.rules ++ p.rulesFrom c.rules.length

/-! ## Packages in order of keys -/

theorem contains_iff : c.contains key = true ↔ ∃ q ∈ c.packages, q.key = key := by
  simp [contains, List.any_eq_true]

theorem not_contains_iff : c.contains key = false ↔ ∀ q ∈ c.packages, q.key ≠ key := by
  simp [contains, List.any_eq_false]

theorem insertPackage_perm (q : Package) (l : List Package) :
    (insertPackage q l).Perm (q :: l) := by
  induction l with
  | nil => exact .refl _
  | cons r rest ih =>
      by_cases h : q.key < r.key
      · rw [insertPackage, if_pos h]
      · rw [insertPackage, if_neg h]
        exact (ih.cons r).trans (.swap q r rest)

theorem mem_insertPackage {r : Package} {l : List Package} :
    r ∈ insertPackage q l ↔ r = q ∨ r ∈ l := by
  rw [(insertPackage_perm q l).mem_iff, List.mem_cons]

/-- A change that keeps the keys can be made before the insertion. -/
theorem map_insertPackage {f : Package → Package} (hf : ∀ r, (f r).key = r.key)
    (q : Package) (l : List Package) :
    (insertPackage q l).map f = insertPackage (f q) (l.map f) := by
  induction l with
  | nil => rfl
  | cons r rest ih =>
      simp only [insertPackage, List.map_cons, hf]
      by_cases h : q.key < r.key
      · rw [if_pos h, if_pos h]
        rfl
      · rw [if_neg h, if_neg h, List.map_cons, ih]

/-- The package that was inserted is found by its key. -/
theorem find?_insertPackage_self {l : List Package} (h : ∀ r ∈ l, r.key ≠ q.key) :
    (insertPackage q l).find? (·.key = q.key) = some q := by
  induction l with
  | nil => simp [insertPackage]
  | cons r rest ih =>
      have hr : r.key ≠ q.key := h r (List.mem_cons_self ..)
      have hrest := ih fun x hx => h x (List.mem_cons_of_mem _ hx)
      by_cases hlt : q.key < r.key
      · rw [insertPackage, if_pos hlt]
        simp
      · rw [insertPackage, if_neg hlt, List.find?_cons_of_neg (by simpa using hr)]
        exact hrest

/-- Packages of other keys are found as before. -/
theorem find?_insertPackage_of_ne (h : q.key ≠ key) (l : List Package) :
    (insertPackage q l).find? (·.key = key) = l.find? (·.key = key) := by
  induction l with
  | nil => simp [insertPackage, h]
  | cons r rest ih =>
      by_cases hlt : q.key < r.key
      · rw [insertPackage, if_pos hlt, List.find?_cons_of_neg (by simpa using h)]
      · rw [insertPackage, if_neg hlt, List.find?_cons, List.find?_cons, ih]

/-- Packages of different keys can be inserted in either order. -/
theorem insertPackage_comm {r : Package} (h : q.key ≠ r.key) (l : List Package) :
    insertPackage q (insertPackage r l) = insertPackage r (insertPackage q l) := by
  induction l with
  | nil =>
      rcases lt_or_gt_of_ne h with hlt | hlt
      · simp [insertPackage, hlt, hlt.asymm]
      · simp [insertPackage, hlt, hlt.asymm]
  | cons x rest ih =>
      by_cases hq : q.key < x.key <;> by_cases hr : r.key < x.key
      · rcases lt_or_gt_of_ne h with hlt | hlt
        · simp [insertPackage, hq, hr, hlt, hlt.asymm]
        · simp [insertPackage, hq, hr, hlt, hlt.asymm]
      · have hqr : q.key < r.key := lt_of_lt_of_le hq (not_lt.1 hr)
        simp [insertPackage, hq, hr, hqr.asymm]
      · have hrq : r.key < q.key := lt_of_lt_of_le hr (not_lt.1 hq)
        simp [insertPackage, hq, hr, hrq.asymm]
      · simp [insertPackage, hq, hr, ih]

/-! ## The steps of a task -/

theorem contains_adopt :
    (c.adopt p state).contains key = true ↔ p.key = key ∨ c.contains key = true := by
  rw [contains_iff, contains_iff]
  simp only [adopt, mem_insertPackage]
  constructor
  · rintro ⟨r, rfl | hr, hk⟩
    · exact .inl hk
    · exact .inr ⟨r, hr, hk⟩
  · rintro (hk | ⟨r, hr, hk⟩)
    · exact ⟨_, .inl rfl, hk⟩
    · exact ⟨r, .inr hr, hk⟩

theorem visit_of_contains (h : c.contains key = true) : c.visit key = c := by
  rw [visit, if_pos h]

theorem visit_adopt : (c.adopt p state).visit p.key = c.adopt p state :=
  visit_of_contains (contains_adopt.2 (.inl rfl))

/-- A change of the package that was inserted last leaves the others alone. -/
theorem modify_insertPackage {f : Package → Package} (hf : ∀ r, (f r).key = r.key)
    {l : List Package} {rules : List Rule} (h : ∀ r ∈ l, r.key ≠ q.key) :
    Catalog.modify ⟨insertPackage q l, rules⟩ q.key f = ⟨insertPackage (f q) l, rules⟩ := by
  have hkey : ∀ r : Package, (if r.key = q.key then f r else r).key = r.key := by
    intro r
    split
    · exact hf r
    · rfl
  have hid : l.map (fun r => if r.key = q.key then f r else r) = l :=
    (List.map_congr_left fun r hr => if_neg (h r hr)).trans (List.map_id l)
  simp only [modify, map_insertPackage hkey, hid, if_true]

/-- A change of the package that was adopted last changes its adoption. -/
theorem modify_adopt {f : Package → Package} (hf : ∀ r, (f r).key = r.key)
    (h : c.contains p.key = false) :
    (c.adopt p state).modify p.key f =
      ⟨insertPackage (f (p.packageFrom c.rules.length state)) c.packages,
        c.rules ++ p.rulesFrom c.rules.length⟩ :=
  modify_insertPackage (q := p.packageFrom c.rules.length state) hf (not_contains_iff.1 h)

/-- A package begins without rules. -/
theorem begin_eq_adopt (file : Path) (h : c.contains key = false) :
    c.begin key file = c.adopt ⟨key, file, []⟩ .inProgress := by
  have hne : ∀ r ∈ c.packages, r.key ≠ ({ key } : Package).key := not_contains_iff.1 h
  rw [begin, visit, if_neg (by simp [h])]
  rw [show key = ({ key } : Package).key from rfl]
  rw [modify_insertPackage (fun r => by split <;> rfl) hne]
  simp [adopt, Contents.rulesFrom, Contents.packageFrom]

theorem package?_adopt_self (h : c.contains p.key = false) :
    (c.adopt p state).package? p.key = some (p.packageFrom c.rules.length state) :=
  find?_insertPackage_self (q := p.packageFrom c.rules.length state) (not_contains_iff.1 h)

theorem package?_adopt_of_ne (h : p.key ≠ key) :
    (c.adopt p state).package? key = c.package? key :=
  find?_insertPackage_of_ne (q := p.packageFrom c.rules.length state) h c.packages

/-- Adding a rule adopts one more declaration, unless its name is taken. -/
theorem addRule_adopt (h : c.contains p.key = false) (d : Declaration) :
    (c.adopt p state).addRule p.key d =
      if d.name ∈ p.names then .error (.duplicateRule p.key d.name)
      else .ok (c.rules.length + p.declarations.length, c.adopt (p.declare d) state) := by
  have hlookup : (c.adopt p state).lookup? p.key d.name =
      (p.packageFrom c.rules.length state).rules.lookup d.name := by
    rw [lookup?, package?_adopt_self h]
    rfl
  simp only [addRule, visit_adopt]
  by_cases hd : d.name ∈ p.names
  · rw [if_pos hd]
    cases hl : (c.adopt p state).lookup? p.key d.name with
    | some _ => rfl
    | none =>
        rw [hlookup, Contents.lookup_packageFrom_eq_none_iff] at hl
        exact absurd hd hl
  · rw [if_neg hd, hlookup, (Contents.lookup_packageFrom_eq_none_iff ..).2 hd]
    have hlen : (c.adopt p state).rules.length = c.rules.length + p.declarations.length := by
      simp [adopt]
    rw [hlen, modify_adopt ?_ h]
    · simp [adopt, Contents.packageFrom_declare, Contents.rulesFrom_declare]
    · exact fun _ => rfl

/-- Finishing a package changes its state alone. -/
theorem finish_adopt (h : c.contains p.key = false) :
    (c.adopt p state).finish p.key = c.adopt p := by
  rw [finish, visit_adopt, modify_adopt ?_ h]
  · rfl
  · exact fun _ => rfl

/-! ## Several packages -/

/-- The catalog with packages adopted one after the other. -/
def adoptAll (c : Catalog) (ps : List Contents) : Catalog :=
  ps.foldl (fun c p => c.adopt p) c

/-- Adoption only adds rules. -/
theorem rules_prefix_adoptAll (ps : List Contents) : c.rules <+: (c.adoptAll ps).rules := by
  induction ps generalizing c with
  | nil => exact List.prefix_rfl
  | cons p rest ih =>
      have hp : c.rules <+: (c.adopt p).rules := List.prefix_append ..
      exact hp.trans ih

theorem length_le_adoptAll (ps : List Contents) :
    c.rules.length ≤ (c.adoptAll ps).rules.length :=
  (rules_prefix_adoptAll ps).length_le

theorem contains_adoptAll {ps : List Contents} :
    (c.adoptAll ps).contains key = true ↔
      key ∈ ps.map Contents.key ∨ c.contains key = true := by
  induction ps generalizing c with
  | nil => simp [adoptAll]
  | cons p rest ih =>
      rw [show c.adoptAll (p :: rest) = (c.adopt p).adoptAll rest from rfl, ih,
        contains_adopt, List.map_cons, List.mem_cons]
      constructor
      · rintro (h | rfl | h)
        · exact .inl (.inr h)
        · exact .inl (.inl rfl)
        · exact .inr h
      · rintro ((rfl | h) | h)
        · exact .inr (.inl rfl)
        · exact .inl h
        · exact .inr (.inr h)

theorem contains_adoptAll_empty {ps : List Contents} :
    (adoptAll {} ps).contains key = true ↔ key ∈ ps.map Contents.key := by
  rw [contains_adoptAll]
  exact or_iff_left nofun

theorem adoptAll_concat (ps : List Contents) (p : Contents) :
    c.adoptAll (ps ++ [p]) = (c.adoptAll ps).adopt p := by
  rw [adoptAll, List.foldl_append]
  rfl

/-- There is one package for each of the contents. -/
theorem length_packages_adoptAll (ps : List Contents) :
    (c.adoptAll ps).packages.length = c.packages.length + ps.length := by
  induction ps generalizing c with
  | nil => rfl
  | cons p rest ih =>
      rw [show c.adoptAll (p :: rest) = (c.adopt p).adoptAll rest from rfl, ih]
      have hlen := (insertPackage_perm (p.packageFrom c.rules.length .done) c.packages).length_eq
      rw [List.length_cons] at hlen
      simp only [adopt, hlen, List.length_cons]
      omega

/-- Packages that were adopted are done. -/
theorem state_adoptAll {ps : List Contents} (h : q ∈ (c.adoptAll ps).packages) :
    q ∈ c.packages ∨ q.state = .done := by
  induction ps generalizing c with
  | nil => exact .inl h
  | cons p rest ih =>
      rcases ih h with hq | hq
      · rcases mem_insertPackage.1 hq with rfl | hq
        · exact .inr rfl
        · exact .inl hq
      · exact .inr hq

/-- The rules of packages with different keys are told by package and name. -/
theorem nodup_names_adoptAll {ps : List Contents} (hkeys : (ps.map Contents.key).Nodup)
    (hnames : ∀ p ∈ ps, p.names.Nodup)
    (hrules : (c.rules.map fun rule => (rule.package, rule.name)).Nodup)
    (hnew : ∀ rule ∈ c.rules, rule.package ∉ ps.map Contents.key) :
    ((c.adoptAll ps).rules.map fun rule => (rule.package, rule.name)).Nodup := by
  induction ps generalizing c with
  | nil => exact hrules
  | cons p rest ih =>
      obtain ⟨hkey, hrest⟩ := List.nodup_cons.1 hkeys
      have hadopt : ((c.adopt p).rules.map fun rule => (rule.package, rule.name)) =
          c.rules.map (fun rule => (rule.package, rule.name)) ++ p.names.map (Prod.mk p.key) := by
        rw [adopt, List.map_append, Contents.map_rulesFrom]
      refine ih hrest (fun q hq => hnames q (List.mem_cons_of_mem _ hq)) ?_ ?_
      · rw [hadopt]
        refine hrules.append ((hnames p (List.mem_cons_self ..)).map (Prod.mk_right_injective _)) ?_
        intro name hname hname'
        obtain ⟨rule, hrule, rfl⟩ := List.mem_map.1 hname
        obtain ⟨name', -, hsame⟩ := List.mem_map.1 hname'
        exact hnew rule hrule (List.mem_cons.2 (.inl (Prod.mk.inj hsame).1.symm))
      · intro rule hrule
        rcases List.mem_append.1 hrule with hrule | hrule
        · exact fun hmem => hnew rule hrule (List.mem_cons_of_mem _ hmem)
        · obtain ⟨i, hi, rfl⟩ := List.mem_mapIdx.1 hrule
          exact hkey

/-- Whether the catalog holds the contents: the package is done, and has exactly the
    declared rules, in order of declaration. -/
def HasLoaded (c : Catalog) (p : Contents) : Prop :=
  ∃ n, c.package? p.key = some (p.packageFrom n .done) ∧ p.rulesFrom n <+: c.rules.drop n

theorem hasLoaded_adopt (h : c.contains p.key = false) : (c.adopt p).HasLoaded p := by
  refine ⟨c.rules.length, package?_adopt_self h, ?_⟩
  simp [adopt]

/-- Adopting other packages keeps what the catalog holds. -/
theorem HasLoaded.adopt {p' : Contents} (h : c.HasLoaded p) (hkey : p'.key ≠ p.key) :
    (c.adopt p').HasLoaded p := by
  obtain ⟨n, hpackage, hrules⟩ := h
  refine ⟨n, (package?_adopt_of_ne hkey).trans hpackage, hrules.trans ?_⟩
  simp [Catalog.adopt, List.drop_append]

theorem HasLoaded.adoptAll {ps : List Contents} (h : c.HasLoaded p)
    (hkey : p.key ∉ ps.map Contents.key) : (c.adoptAll ps).HasLoaded p := by
  induction ps generalizing c with
  | nil => exact h
  | cons p' rest ih =>
      rw [List.map_cons, List.mem_cons, not_or] at hkey
      exact ih (h.adopt (Ne.symm hkey.1)) hkey.2

/-- All contents that were adopted are held. -/
theorem hasLoaded_adoptAll {ps : List Contents} (hkeys : (ps.map Contents.key).Nodup)
    (hnew : ∀ p ∈ ps, c.contains p.key = false) (hp : p ∈ ps) : (c.adoptAll ps).HasLoaded p := by
  induction ps generalizing c with
  | nil => exact absurd hp List.not_mem_nil
  | cons p' rest ih =>
      obtain ⟨hkey, hkeys⟩ := List.nodup_cons.1 hkeys
      rcases List.mem_cons.1 hp with rfl | hp
      · exact (hasLoaded_adopt (hnew p (List.mem_cons_self ..))).adoptAll hkey
      · refine ih hkeys (fun r hr => ?_) hp
        rw [← Bool.not_eq_true, contains_adopt, not_or, Bool.not_eq_true]
        refine ⟨fun heq => hkey ?_, hnew r (List.mem_cons_of_mem _ hr)⟩
        exact List.mem_map.2 ⟨r, hr, heq.symm⟩

end Catalog

end Buildwright
