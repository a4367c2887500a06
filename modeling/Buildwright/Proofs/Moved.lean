import Mathlib.Algebra.Group.End
import Mathlib.Data.Finset.Card
import Mathlib.Data.List.Nodup
import Mathlib.Data.List.Perm.Basic

/-! # Elements in new places

    Rules, their dependencies and what is known of them are kept in lists, at
    the places of their numbers.  `Moved σ f l l'` says that the permutation `σ`
    of the numbers takes one list to the other, with every element changed by
    `f`. -/

namespace Buildwright

variable {α β γ : Type} {σ τ : Equiv.Perm Nat} {f : α → β} {l : List α} {l' : List β}

/-- Whether every element of `l` stands in `l'`, changed by `f`, where the permutation
    takes its place. -/
def Moved (σ : Equiv.Perm Nat) (f : α → β) (l : List α) (l' : List β) : Prop :=
  ∀ i, l'[σ i]? = l[i]?.map f

namespace Moved

theorem lt_iff (h : Moved σ f l l') {i : Nat} : σ i < l'.length ↔ i < l.length := by
  have hi := h i
  constructor
  · intro hlt
    rw [List.getElem?_eq_getElem hlt] at hi
    obtain ⟨a, ha, -⟩ := Option.map_eq_some_iff.1 hi.symm
    exact (List.getElem?_eq_some_iff.1 ha).1
  · intro hlt
    rw [List.getElem?_eq_getElem hlt] at hi
    exact (List.getElem?_eq_some_iff.1 hi).1

/-- The places up to the length of one list are taken to those up to the length of the
    other. -/
theorem range_perm (h : Moved σ f l l') :
    ((List.range l.length).map σ).Perm (List.range l'.length) := by
  refine (List.perm_ext_iff_of_nodup (List.nodup_range.map σ.injective)
    List.nodup_range).2 fun j => ?_
  rw [List.mem_map, List.mem_range]
  constructor
  · rintro ⟨i, hi, rfl⟩
    exact h.lt_iff.2 (List.mem_range.1 hi)
  · intro hj
    refine ⟨σ.symm j, List.mem_range.2 (h.lt_iff.1 ?_), σ.apply_symm_apply j⟩
    rwa [σ.apply_symm_apply]

theorem length_eq (h : Moved σ f l l') : l'.length = l.length := by
  have hlen := h.range_perm.length_eq
  rw [List.length_map, List.length_range, List.length_range] at hlen
  exact hlen.symm

theorem trans {g : β → γ} {k : α → γ} {l'' : List γ} (h : Moved σ f l l') (h' : Moved τ g l' l'')
    (hk : ∀ a, g (f a) = k a) : Moved (σ.trans τ) k l l'' := by
  intro i
  rw [Equiv.trans_apply, h' (σ i), h i, Option.map_map]
  exact congrArg (Option.map · l[i]?) (funext hk)

/-- The elements are the same, up to their places. -/
theorem perm (h : Moved σ f l l') : l'.Perm (l.map f) := by
  have hsome : ∀ l : List β, l.map some = (List.range l.length).map (l[·]?) := by
    intro l
    refine List.ext_getElem (by simp) fun i hi _ => ?_
    simp only [List.getElem_map, List.getElem_range]
    exact (List.getElem?_eq_getElem (by simpa using hi)).symm
  have hmoved : (l.map f).map some = ((List.range l.length).map σ).map (l'[·]?) := by
    rw [hsome, List.length_map, List.map_map]
    refine List.map_congr_left fun i _ => ?_
    rw [List.getElem?_map, Function.comp_apply, h i]
  rw [← List.map_perm_map_iff (Option.some_injective β), hmoved, hsome l']
  exact (h.range_perm.map _).symm

/-- What is made of the elements is moved like them. -/
theorem map {γ' : Type} {g : α → γ} {g' : β → γ'} {k : γ → γ'} (h : Moved σ f l l')
    (hg : ∀ a ∈ l, g' (f a) = k (g a)) : Moved σ k (l.map g) (l'.map g') := by
  intro i
  rw [List.getElem?_map, List.getElem?_map, h i]
  cases hi : l[i]? with
  | none => rfl
  | some a => exact congrArg some (hg a (List.mem_of_getElem? hi))

theorem getD (h : Moved σ f l l') (i : Nat) {a : α} {b : β} (hd : b = f a) :
    l'.getD (σ i) b = f (l.getD i a) := by
  rw [List.getD_eq_getElem?_getD, List.getD_eq_getElem?_getD, h i, hd]
  cases l[i]? with
  | none => rfl
  | some a => rfl

end Moved

end Buildwright
