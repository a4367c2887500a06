import Buildwright.Proofs.Package.Contents
import Buildwright.Proofs.Moved
import Buildwright.Proofs.Package.Numbering

/-! # Renumbering

    Numbers are given out in the order of loading.  Two catalogs that differ
    only there are related by a permutation of the numbers, which moves every
    rule to the place of its new number.

    * `Catalog.Renumbers`, `RuleSet.Renumbers` — the relation for a catalog and for a
      frozen catalog;
    * `Catalog.renumbers_adoptAll` — packages that are adopted in two orders
      give catalogs that differ by a renumbering. -/

namespace Buildwright

/-- The rule under another number. -/
def Rule.renumber (σ : RuleId → RuleId) (r : Rule) : Rule :=
  { r with id := σ r.id }

/-- The package with its rules under other numbers. -/
def Package.renumber (σ : RuleId → RuleId) (p : Package) : Package :=
  { p with rules := p.rules.map fun e => (e.1, σ e.2) }

/-- The loaded package with its rules under other numbers. -/
def LoadedPackage.renumber (σ : RuleId → RuleId) (p : LoadedPackage) : LoadedPackage :=
  { p with rules := p.rules.map fun e => (e.1, σ e.2) }

/-- Whether two catalogs differ only by the permutation of the numbers. -/
structure Catalog.Renumbers (σ : Equiv.Perm RuleId) (c c' : Catalog) : Prop where
  packages : c'.packages = c.packages.map (Package.renumber σ)
  rules : Moved σ (Rule.renumber σ) c.rules c'.rules

/-- Whether two sets of rules differ only by the permutation of the numbers. -/
structure RuleSet.Renumbers (σ : Equiv.Perm RuleId) (s t : RuleSet) : Prop where
  packages : t.packages = s.packages.map (LoadedPackage.renumber σ)
  rules : Moved σ (Rule.renumber σ) s.rules t.rules

/-! ## Two blocks that change places -/

/-- The permutation that exchanges `a` numbers from `n` on with the `b` numbers
    behind them. -/
def exchange (n a b : Nat) : Equiv.Perm Nat where
  toFun i := if i < n then i else if i < n + a then i + b else if i < n + a + b then i - a else i
  invFun i := if i < n then i else if i < n + b then i + a else if i < n + b + a then i - b else i
  left_inv i := by
    dsimp only
    split_ifs <;> omega
  right_inv i := by
    dsimp only
    split_ifs <;> omega

section exchange

variable {n a b i : Nat}

theorem exchange_before (h : i < n) : exchange n a b i = i :=
  if_pos h

theorem exchange_left (h : i < a) : exchange n a b (n + i) = n + b + i := by
  have hi : ¬ n + i < n := Nat.not_lt.2 (Nat.le_add_right ..)
  have hi' : n + i < n + a := Nat.add_lt_add_left h n
  rw [show exchange n a b (n + i) = n + i + b from (if_neg hi).trans (if_pos hi'),
    Nat.add_right_comm]

theorem exchange_right (h : i < b) : exchange n a b (n + a + i) = n + i := by
  have hi : ¬ n + a + i < n := by omega
  have hi' : ¬ n + a + i < n + a := by omega
  have hi'' : n + a + i < n + a + b := by omega
  rw [show exchange n a b (n + a + i) = n + a + i - a from
    (if_neg hi).trans ((if_neg hi').trans (if_pos hi''))]
  omega

theorem exchange_after (h : n + a + b ≤ i) : exchange n a b i = i := by
  have hi : ¬ i < n := by omega
  have hi' : ¬ i < n + a := by omega
  have hi'' : ¬ i < n + a + b := by omega
  exact (if_neg hi).trans ((if_neg hi').trans (if_neg hi''))

end exchange

/-- Two blocks of rules behind the others change places. -/
theorem moved_exchange {α : Type} {f : α → α} {rules ps qs : List α} {a b : Nat}
    (ha : ps.length = a) (hb : qs.length = b)
    (h : Moved (exchange rules.length a b) f rules rules) :
    Moved (exchange rules.length a b) f (rules ++ ps ++ qs)
      (rules ++ qs.map f ++ ps.map f) := by
  subst ha hb
  intro (i : Nat)
  have hsplit : i < rules.length ∨ (∃ j < ps.length, i = rules.length + j) ∨
      (∃ j < qs.length, i = rules.length + ps.length + j) ∨
      rules.length + ps.length + qs.length ≤ i := by
    by_cases h₁ : i < rules.length
    · exact .inl h₁
    by_cases h₂ : i < rules.length + ps.length
    · exact .inr (.inl ⟨i - rules.length, by omega, by omega⟩)
    by_cases h₃ : i < rules.length + ps.length + qs.length
    · exact .inr (.inr (.inl ⟨i - (rules.length + ps.length), by omega, by omega⟩))
    · exact .inr (.inr (.inr (not_lt.1 h₃)))
  -- before the blocks, in the first, in the second, or behind them
  rcases hsplit with hi | ⟨j, hj, rfl⟩ | ⟨j, hj, rfl⟩ | hi
  · have hself := h i
    rw [exchange_before hi] at hself ⊢
    rw [List.append_assoc, List.append_assoc, List.getElem?_append_left hi,
      List.getElem?_append_left hi]
    exact hself
  · rw [exchange_left hj, List.append_assoc rules ps,
      List.getElem?_append_right (by simp),
      List.getElem?_append_right (Nat.le_add_right ..),
      List.getElem?_append_left (by omega), List.getElem?_map]
    simp
  · rw [exchange_right hj, List.append_assoc rules (qs.map _),
      List.getElem?_append_right (Nat.le_add_right ..),
      List.getElem?_append_left (by simpa using hj),
      List.getElem?_append_right (by simp), List.getElem?_map]
    simp
  · rw [exchange_after hi, List.getElem?_eq_none (by simp; omega),
      List.getElem?_eq_none (by simp; omega)]
    rfl

namespace Contents

variable {σ : Equiv.Perm RuleId} {n m : Nat}

/-- Rules of which no number is moved stay the rules they are. -/
theorem renumber_rulesFrom (p : Contents)
    (h : ∀ i, i < p.declarations.length → σ (n + i) = m + i) :
    (p.rulesFrom n).map (Rule.renumber σ) = p.rulesFrom m := by
  refine List.ext_getElem (by simp) fun i hi _ => ?_
  have hi' : i < p.declarations.length := by simpa using hi
  simp [rulesFrom, Rule.renumber, h i hi']

theorem renumber_packageFrom (p : Contents) (state : LoadState)
    (h : ∀ i, i < p.declarations.length → σ (n + i) = m + i) :
    (p.packageFrom n state).renumber σ = p.packageFrom m state := by
  have hrules : (p.packageFrom n state).rules.map (fun e => (e.1, σ e.2)) =
      (p.packageFrom m state).rules := by
    refine List.ext_getElem (by simp [packageFrom]) fun i hi _ => ?_
    have hi' : i < p.declarations.length := by simpa [packageFrom] using hi
    simp [packageFrom, h i hi']
  rw [Package.renumber, hrules]
  rfl

end Contents

namespace Catalog

variable {σ : Equiv.Perm RuleId} {c c' : Catalog} {p q : Contents}

/-- Whether every rule stands at the place of its number, and packages have
    numbers of rules only. -/
structure Numbered (c : Catalog) : Prop where
  rules : c.rules.map Rule.id = List.range c.rules.length
  packages : ∀ p ∈ c.packages, ∀ e ∈ p.rules, e.2 < c.rules.length

theorem numbered_empty : Numbered {} :=
  ⟨rfl, fun _ h => absurd h List.not_mem_nil⟩

theorem Numbered.adopt (h : c.Numbered) (p : Contents) : (c.adopt p).Numbered := by
  have hlen : (c.adopt p).rules.length = c.rules.length + p.declarations.length := by
    simp [Catalog.adopt]
  constructor
  · have hnew : (p.rulesFrom c.rules.length).map Rule.id =
        (List.range p.declarations.length).map (c.rules.length + ·) := by
      refine List.ext_getElem (by simp) fun i _ _ => ?_
      simp [Contents.rulesFrom]
    rw [hlen, List.range_add, ← h.rules, ← hnew]
    exact List.map_append
  · intro q hq e he
    rw [hlen]
    rcases mem_insertPackage.1 hq with rfl | hq
    · obtain ⟨i, hi, rfl⟩ := List.mem_mapIdx.1 he
      exact Nat.add_lt_add_left hi _
    · exact Nat.lt_add_right _ (h.packages q hq e he)

theorem Numbered.adoptAll (h : c.Numbered) (ps : List Contents) : (c.adoptAll ps).Numbered := by
  induction ps generalizing c with
  | nil => exact h
  | cons p rest ih => exact ih (h.adopt p)

/-- A permutation that keeps the numbers in use keeps the catalog. -/
theorem Numbered.renumbers_self (h : c.Numbered) (hσ : ∀ i, i < c.rules.length → σ i = i) :
    c.Renumbers σ c := by
  constructor
  · refine ((List.map_congr_left fun q hq => ?_).trans (List.map_id _)).symm
    have hrules : q.rules.map (fun e => (e.1, σ e.2)) = q.rules := by
      refine (List.map_congr_left fun e he => ?_).trans (List.map_id _)
      rw [hσ _ (h.packages q hq e he)]
      rfl
    rw [Package.renumber, hrules]
    rfl
  · intro i
    by_cases hi : i < c.rules.length
    · have hid : (c.rules[i]).id = i := id_eq_of_map_id h.rules (List.getElem?_eq_getElem hi)
      have hfix : (c.rules[i]).renumber σ = c.rules[i] := by
        rw [Rule.renumber, hid, hσ i hi]
        nth_rewrite 1 [← hid]
        rfl
      rw [hσ i hi, List.getElem?_eq_getElem hi, Option.map_some, hfix]
    · have hnot : ¬ σ i < c.rules.length := by
        intro hlt
        have hfix := hσ (σ i) hlt
        rw [σ.injective hfix] at hlt
        exact hi hlt
      rw [List.getElem?_eq_none (not_lt.1 hi), List.getElem?_eq_none (not_lt.1 hnot)]
      rfl

theorem Renumbers.trans {c'' : Catalog} {τ : Equiv.Perm RuleId} (h : c.Renumbers σ c')
    (h' : c'.Renumbers τ c'') : c.Renumbers (σ.trans τ) c'' := by
  refine ⟨?_, h.rules.trans h'.rules fun _ => rfl⟩
  rw [h'.packages, h.packages, List.map_map]
  refine List.map_congr_left fun p _ => ?_
  simp [Package.renumber]

/-- Catalogs that differ by a renumbering of the numbers in use still do after the
    same package has been adopted to both. -/
theorem Renumbers.adopt (h : c.Renumbers σ c') (hσ : ∀ i, c.rules.length ≤ i → σ i = i)
    (p : Contents) : (c.adopt p).Renumbers σ (c'.adopt p) := by
  have hlen : c'.rules.length = c.rules.length := h.rules.length_eq
  have hfix : ∀ i, i < p.declarations.length →
      σ (c.rules.length + i) = c'.rules.length + i := by
    intro i _
    rw [hlen]
    exact hσ _ (Nat.le_add_right ..)
  constructor
  · simp only [Catalog.adopt]
    rw [map_insertPackage, ← h.packages, Contents.renumber_packageFrom p _ hfix]
    exact fun _ => rfl
  · intro i
    simp only [Catalog.adopt]
    by_cases hi : i < c.rules.length
    · rw [List.getElem?_append_left hi, List.getElem?_append_left (h.rules.lt_iff.2 hi),
        h.rules i]
    · have hle : c.rules.length ≤ i := not_lt.1 hi
      rw [hσ i hle, List.getElem?_append_right hle,
        List.getElem?_append_right (by rw [hlen]; exact hle),
        ← Contents.renumber_rulesFrom p hfix, List.getElem?_map, hlen]

/-- Two packages can be adopted in either order, up to the numbers of their rules. -/
theorem Numbered.renumbers_exchange (h : c.Numbered) (hkey : p.key ≠ q.key) :
    ((c.adopt p).adopt q).Renumbers
      (exchange c.rules.length p.declarations.length q.declarations.length)
      ((c.adopt q).adopt p) := by
  have hlen : ∀ p : Contents,
      (c.adopt p).rules.length = c.rules.length + p.declarations.length := by
    intro p
    simp [Catalog.adopt]
  have hself := h.renumbers_self fun i hi =>
    exchange_before (a := p.declarations.length) (b := q.declarations.length) hi
  have hp : ∀ i, i < p.declarations.length →
      exchange c.rules.length p.declarations.length q.declarations.length
        (c.rules.length + i) = (c.adopt q).rules.length + i := by
    intro i hi
    rw [hlen]
    exact exchange_left hi
  have hq : ∀ i, i < q.declarations.length →
      exchange c.rules.length p.declarations.length q.declarations.length
        ((c.adopt p).rules.length + i) = c.rules.length + i := by
    intro i hi
    rw [hlen]
    exact exchange_right hi
  constructor
  · -- packages are kept in order of keys, so they only have to be renumbered
    have hpq : ((c.adopt p).adopt q).packages =
        insertPackage (q.packageFrom (c.adopt p).rules.length .done)
          (insertPackage (p.packageFrom c.rules.length .done) c.packages) := rfl
    have hqp : ((c.adopt q).adopt p).packages =
        insertPackage (p.packageFrom (c.adopt q).rules.length .done)
          (insertPackage (q.packageFrom c.rules.length .done) c.packages) := rfl
    rw [hpq, hqp, map_insertPackage, map_insertPackage, ← hself.packages,
      Contents.renumber_packageFrom q _ hq, Contents.renumber_packageFrom p _ hp]
    · exact insertPackage_comm hkey c.packages
    · exact fun _ => rfl
    · exact fun _ => rfl
  · have hpq : ((c.adopt p).adopt q).rules =
        c.rules ++ p.rulesFrom c.rules.length ++ q.rulesFrom (c.adopt p).rules.length := rfl
    have hqp : ((c.adopt q).adopt p).rules =
        c.rules ++ q.rulesFrom c.rules.length ++ p.rulesFrom (c.adopt q).rules.length := rfl
    rw [hpq, hqp, ← Contents.renumber_rulesFrom q hq, ← Contents.renumber_rulesFrom p hp]
    exact moved_exchange (by simp) (by simp) hself.rules

theorem Renumbers.adoptAll (h : c.Renumbers σ c')
    (hσ : ∀ i, c.rules.length ≤ i → σ i = i) (ps : List Contents) :
    (c.adoptAll ps).Renumbers σ (c'.adoptAll ps) := by
  induction ps generalizing c c' with
  | nil => exact h
  | cons p rest ih =>
      refine ih (h.adopt hσ p) fun i hi => hσ i (le_trans ?_ hi)
      simp [Catalog.adopt]

/-- Packages that are adopted in two orders give catalogs that differ by a
    renumbering. -/
theorem renumbers_adoptAll {ps qs : List Contents} (hperm : ps.Perm qs)
    (hkeys : (ps.map Contents.key).Nodup) (h : c.Numbered) :
    ∃ σ, (c.adoptAll ps).Renumbers σ (c.adoptAll qs) := by
  suffices hfix : ∃ σ, (c.adoptAll ps).Renumbers σ (c.adoptAll qs) ∧
      ∀ i, (c.adoptAll ps).rules.length ≤ i → σ i = i by
    obtain ⟨σ, hσ, -⟩ := hfix
    exact ⟨σ, hσ⟩
  induction hperm generalizing c with
  | nil => exact ⟨1, h.renumbers_self fun _ _ => rfl, fun _ _ => rfl⟩
  | cons p _ ih => exact ih (List.nodup_cons.1 hkeys).2 (h.adopt p)
  | swap p q l =>
      have hkey : q.key ≠ p.key := by
        intro heq
        exact (List.nodup_cons.1 hkeys).1 (heq ▸ List.mem_cons_self ..)
      have hlen : ((c.adopt q).adopt p).rules.length =
          c.rules.length + q.declarations.length + p.declarations.length := by
        simp [Catalog.adopt, Nat.add_assoc]
      refine ⟨_, (h.renumbers_exchange hkey).adoptAll (fun i hi => ?_) l, fun i hi => ?_⟩
      · exact exchange_after (hlen ▸ hi)
      · exact exchange_after (le_trans (hlen ▸ length_le_adoptAll l) hi)
  | trans h₁ _ ih₁ ih₂ =>
      obtain ⟨σ, hσ, hfix⟩ := ih₁ hkeys h
      obtain ⟨τ, hτ, hfix'⟩ := ih₂ ((h₁.map Contents.key).nodup_iff.1 hkeys) h
      refine ⟨σ.trans τ, hσ.trans hτ, fun i hi => ?_⟩
      rw [Equiv.trans_apply, hfix i hi, hfix' i (by rwa [hσ.rules.length_eq])]

end Catalog

end Buildwright
