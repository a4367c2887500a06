import Buildwright.Fault
import Mathlib.Data.List.Forall2

/-! # Outcomes

    What a list of outcomes gives is read off element by element.  Two
    computations are compared by `Agrees`: both succeed with related results, or
    both fail with related errors. -/

namespace Buildwright

variable {ε ε' α β γ : Type}

/-- All elements of a list have a result if the first and the others have. -/
theorem mapM_cons_eq_ok_iff {f : α → Except ε β} {a : α} {l : List α} {bs : List β} :
    (a :: l).mapM f = .ok bs ↔
      ∃ b rest, f a = .ok b ∧ l.mapM f = .ok rest ∧ bs = b :: rest := by
  rw [List.mapM_cons]
  cases hf : f a with
  | error e =>
      constructor
      · intro h
        cases h
      · rintro ⟨b, rest, hb, -, -⟩
        cases hb
  | ok b =>
      cases hl : l.mapM f with
      | error e =>
          constructor
          · intro h
            cases h
          · rintro ⟨b', rest, -, hrest, -⟩
            cases hrest
      | ok rest =>
          constructor
          · intro h
            cases h
            exact ⟨b, rest, rfl, rfl, rfl⟩
          · rintro ⟨b', rest', hb, hrest, rfl⟩
            cases hb
            cases hrest
            rfl

/-- All elements have a result if each of them has. -/
theorem exists_mapM_eq_ok {f : α → Except ε β} {l : List α} (h : ∀ a ∈ l, ∃ b, f a = .ok b) :
    ∃ bs, l.mapM f = .ok bs := by
  induction l with
  | nil => exact ⟨[], rfl⟩
  | cons a l ih =>
      obtain ⟨b, hb⟩ := h a (List.mem_cons_self ..)
      obtain ⟨bs, hbs⟩ := ih fun a ha => h a (List.mem_cons_of_mem _ ha)
      exact ⟨b :: bs, mapM_cons_eq_ok_iff.2 ⟨b, bs, hb, hbs, rfl⟩⟩

theorem length_of_mapM {f : α → Except ε β} {l : List α} {bs : List β}
    (h : l.mapM f = .ok bs) : bs.length = l.length := by
  induction l generalizing bs with
  | nil =>
      cases h
      rfl
  | cons a l ih =>
      obtain ⟨b, rest, -, hrest, rfl⟩ := mapM_cons_eq_ok_iff.1 h
      rw [List.length_cons, List.length_cons, ih hrest]

/-- Every result comes from an element. -/
theorem exists_of_mem_mapM {f : α → Except ε β} {l : List α} {bs : List β}
    (h : l.mapM f = .ok bs) {b : β} (hb : b ∈ bs) : ∃ a ∈ l, f a = .ok b := by
  induction l generalizing bs with
  | nil =>
      cases h
      exact absurd hb List.not_mem_nil
  | cons a l ih =>
      obtain ⟨b', rest, ha, hrest, rfl⟩ := mapM_cons_eq_ok_iff.1 h
      rcases List.mem_cons.1 hb with rfl | hb
      · exact ⟨a, List.mem_cons_self .., ha⟩
      · obtain ⟨a', ha', hf⟩ := ih hrest hb
        exact ⟨a', List.mem_cons_of_mem _ ha', hf⟩

/-- Every element has a result. -/
theorem exists_mem_of_mapM {f : α → Except ε β} {l : List α} {bs : List β}
    (h : l.mapM f = .ok bs) {a : α} (ha : a ∈ l) : ∃ b ∈ bs, f a = .ok b := by
  induction l generalizing bs with
  | nil => exact absurd ha List.not_mem_nil
  | cons a' l ih =>
      obtain ⟨b, rest, hb, hrest, rfl⟩ := mapM_cons_eq_ok_iff.1 h
      rcases List.mem_cons.1 ha with rfl | ha
      · exact ⟨b, List.mem_cons_self .., hb⟩
      · obtain ⟨b', hb', hf⟩ := ih hrest ha
        exact ⟨b', List.mem_cons_of_mem _ hb', hf⟩

/-- The results of a list are those of its elements, one by one. -/
theorem mapM_eq_ok_iff_forall₂ {f : α → Except ε β} {l : List α} {bs : List β} :
    l.mapM f = .ok bs ↔ List.Forall₂ (fun a b => f a = .ok b) l bs := by
  induction l generalizing bs with
  | nil =>
      rw [List.forall₂_nil_left_iff]
      exact ⟨fun h => (Except.ok.inj h).symm, fun h => h ▸ rfl⟩
  | cons a l ih =>
      rw [mapM_cons_eq_ok_iff, List.forall₂_cons_left_iff]
      simp only [ih]

/-- The error of a list is that of the first element that has one. -/
theorem mapM_eq_error_iff {f : α → Except ε β} {l : List α} {e : ε} :
    l.mapM f = .error e ↔ ∃ front a back, l = front ++ a :: back ∧
      (∀ b ∈ front, ∃ c, f b = .ok c) ∧ f a = .error e := by
  induction l with
  | nil =>
      refine iff_of_false nofun ?_
      rintro ⟨front, a, back, hsplit, -⟩
      exact List.append_ne_nil_of_right_ne_nil _ (List.cons_ne_nil _ _) hsplit.symm
  | cons a l ih =>
      rw [List.mapM_cons]
      cases hf : f a with
      | error e' =>
          constructor
          · intro h
            obtain rfl : e' = e := Except.error.inj h
            exact ⟨[], a, l, rfl, List.forall_mem_nil _, hf⟩
          · rintro ⟨front, b, back, hsplit, hfront, hb⟩
            cases front with
            | nil =>
                obtain ⟨rfl, -⟩ := List.cons.inj hsplit
                exact congrArg Except.error (Except.error.inj (hf.symm.trans hb))
            | cons a' front =>
                obtain ⟨rfl, -⟩ := List.cons.inj hsplit
                obtain ⟨c, hc⟩ := hfront a (List.mem_cons_self ..)
                exact absurd (hf.symm.trans hc) nofun
      | ok c =>
          have hrest : (do let b ← Except.ok c; let bs ← l.mapM f; pure (b :: bs)) =
              (Except.error e : Except ε (List β)) ↔ l.mapM f = .error e := by
            cases l.mapM f with
            | error e' => exact Iff.rfl
            | ok bs => exact iff_of_false nofun nofun
          rw [hrest, ih]
          constructor
          · rintro ⟨front, b, back, rfl, hfront, hb⟩
            exact ⟨a :: front, b, back, rfl, List.forall_mem_cons.2 ⟨⟨c, hf⟩, hfront⟩, hb⟩
          · rintro ⟨front, b, back, hsplit, hfront, hb⟩
            cases front with
            | nil =>
                obtain ⟨rfl, -⟩ := List.cons.inj hsplit
                exact absurd (hf.symm.trans hb) nofun
            | cons a' front =>
                obtain ⟨rfl, rfl⟩ := List.cons.inj hsplit
                exact ⟨front, b, back, rfl, (List.forall_mem_cons.1 hfront).2, hb⟩

/-- What the list gives is what its elements give. -/
theorem eq_map_of_mapM {f : α → Except ε β} {l : List α} {bs : List β} (h : l.mapM f = .ok bs)
    (d : β) : bs = l.map fun a => (f a).toOption.getD d := by
  induction l generalizing bs with
  | nil =>
      cases h
      rfl
  | cons a l ih =>
      obtain ⟨b, rest, hb, hrest, rfl⟩ := mapM_cons_eq_ok_iff.1 h
      rw [List.map_cons, ← ih hrest, hb]
      rfl

/-- What succeeds after something else has a result of it to go on with. -/
theorem exists_of_bind_eq_ok {x : Except ε α} {f : α → Except ε β} {b : β}
    (h : x >>= f = .ok b) : ∃ a, x = .ok a ∧ f a = .ok b := by
  cases x with
  | error e => cases h
  | ok a => exact ⟨a, rfl, h⟩

/-- Elements that all succeed are mapped one by one. -/
theorem mapM_eq_ok_map {f : α → Except ε β} {g : α → β} {l : List α}
    (h : ∀ a ∈ l, f a = .ok (g a)) : l.mapM f = .ok (l.map g) := by
  induction l with
  | nil => rfl
  | cons a l ih =>
      obtain ⟨ha, hl⟩ := List.forall_mem_cons.1 h
      exact mapM_cons_eq_ok_iff.2 ⟨g a, l.map g, ha, ih hl, rfl⟩

/-- Only what is done with elements of the list counts. -/
theorem mapM_congr {f g : α → Except ε β} {l : List α} (h : ∀ a ∈ l, f a = g a) :
    l.mapM f = l.mapM g := by
  induction l with
  | nil => rfl
  | cons a l ih =>
      rw [List.mapM_cons, List.mapM_cons, h a (List.mem_cons_self ..),
        ih fun b hb => h b (List.mem_cons_of_mem _ hb)]

/-- Results can be changed one by one or all together. -/
theorem mapM_except_map (f : α → Except ε β) (g : β → γ) (l : List α) :
    l.mapM (fun a => (f a).map g) = (l.mapM f).map (List.map g) := by
  induction l with
  | nil => rfl
  | cons a l ih =>
      rw [List.mapM_cons, List.mapM_cons, ih]
      cases f a with
      | error e => rfl
      | ok b =>
          cases l.mapM f with
          | error e => rfl
          | ok bs => rfl

/-! ## Agreement -/

/-- Whether two outcomes are results or errors that are related. -/
inductive Agrees (E : ε → ε' → Prop) (R : α → β → Prop) : Except ε α → Except ε' β → Prop where
  | ok {a : α} {b : β} (h : R a b) : Agrees E R (.ok a) (.ok b)
  | error {e : ε} {e' : ε'} (h : E e e') : Agrees E R (.error e) (.error e')

namespace Agrees

variable {δ : Type} {E : ε → ε' → Prop} {R : α → β → Prop} {S : γ → δ → Prop}
  {x : Except ε α} {y : Except ε' β}

/-- Agreement is kept by what follows. -/
theorem bind {f : α → Except ε γ} {g : β → Except ε' δ} (h : Agrees E R x y)
    (hfg : ∀ a b, R a b → Agrees E S (f a) (g b)) : Agrees E S (x >>= f) (y >>= g) := by
  cases h with
  | ok h => exact hfg _ _ h
  | error h => exact .error h

/-- Agreement is kept when errors are reported as others. -/
theorem mapError {η η' : Type} {F : η → η' → Prop} {f : ε → η} {g : ε' → η'}
    (h : Agrees E R x y) (hfg : ∀ e e', E e e' → F (f e) (g e')) :
    Agrees F R (x.mapError f) (y.mapError g) := by
  cases h with
  | ok h => exact .ok h
  | error h => exact .error (hfg _ _ h)

/-- Agreement is kept when a value stands in for an error. -/
theorem getD {a : α} {b : β} (h : Agrees E R x y) (hab : R a b) :
    R (x.toOption.getD a) (y.toOption.getD b) := by
  cases h with
  | ok h => exact h
  | error _ => exact hab

/-- What is related may be related in weaker ways. -/
theorem mono {F : ε → ε' → Prop} {R' : α → β → Prop} (h : Agrees E R x y)
    (hE : ∀ e e', E e e' → F e e') (hR : ∀ a b, R a b → R' a b) : Agrees F R' x y := by
  cases h with
  | ok h => exact .ok (hR _ _ h)
  | error h => exact .error (hE _ _ h)

end Agrees

end Buildwright
