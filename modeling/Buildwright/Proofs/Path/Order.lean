import Buildwright.Path.Basic
import Mathlib.Data.List.Lex
import Mathlib.Data.Prod.Lex
import Mathlib.Data.String.Basic

/-! # The order of paths

    Paths are ordered as the lists of what their components are by kind and by text, and two
    paths with the same list are the same path.  So of two paths that are not the same, one
    comes first.

    * `Component.lt_iff`, `Component.key_injective` — components by kind and by text;
    * `Path.lt_iff`, `Path.same_iff` — paths as lists;
    * `Path.lt_of_not_lt` — of two paths that are not the same, one comes first. -/

namespace Buildwright

namespace Component

variable {a b : Component} {as bs : List Component}

/-- What components are compared by: first the kind, then the text. -/
def key (a : Component) : Nat ×ₗ String :=
  toLex (a.rank, a.text)

theorem key_injective : Function.Injective key := by
  intro a b h
  obtain ⟨hrank, htext⟩ := Prod.mk.inj (toLex.injective h)
  cases a with
  | name s =>
      cases b with
      | name t => exact congrArg name htext
      | _ => cases hrank
  | _ => cases b <;> first | rfl | cases hrank

theorem lt_iff : a.lt b = true ↔ a.key < b.key := by
  rw [key, key, Prod.Lex.toLex_lt_toLex]
  cases a <;> cases b <;> simp [lt, rank, text]

theorem listLt_iff : listLt as bs = true ↔ as.map key < bs.map key := by
  induction as generalizing bs with
  | nil => cases bs <;> simp [listLt]
  | cons a as ih =>
      cases bs with
      | nil => simp [listLt]
      | cons b bs =>
          rw [listLt, List.map_cons, List.map_cons, List.cons_lt_cons_iff]
          by_cases hab : a = b
          · rw [if_pos hab, ih, hab]
            simp
          · rw [if_neg hab, lt_iff]
            simp [key_injective.ne hab]

end Component

namespace Path

variable {p q r : Path}

/-- What paths are compared by. -/
def key (p : Path) : List (Nat ×ₗ String) :=
  p.components.map Component.key

theorem lt_iff : p.lt q = true ↔ p.key < q.key :=
  Component.listLt_iff

theorem same_iff : p.Same q ↔ p.key = q.key :=
  (List.map_injective_iff.2 Component.key_injective).eq_iff.symm

theorem lt_trans (hpq : p.lt q = true) (hqr : q.lt r = true) : p.lt r = true :=
  lt_iff.2 ((lt_iff.1 hpq).trans (lt_iff.1 hqr))

theorem not_same_of_lt (h : p.lt q = true) : ¬ p.Same q := fun hsame =>
  (lt_iff.1 h).ne (same_iff.1 hsame)

/-- Of two paths that are not the same, one comes first. -/
theorem lt_of_not_lt (hlt : ¬ p.lt q = true) (hsame : ¬ q.Same p) : q.lt p = true := by
  rw [lt_iff] at hlt ⊢
  exact lt_of_le_of_ne (not_lt.1 hlt) (hsame ∘ same_iff.2)

end Path

end Buildwright
