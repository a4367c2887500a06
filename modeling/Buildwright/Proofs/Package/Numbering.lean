import Buildwright.Package.Catalog
import Mathlib.Data.List.Basic

/-! # Numbers of rules

    A rule is added under the next number, so it stands at the place of its
    number.  `RuleSet.Numbered` says so of a frozen catalog; the order of names
    is then an order of all numbers. -/

namespace Buildwright

/-- In a list of rules in the order of their numbers, the number is the place. -/
theorem id_eq_of_map_id {rules : List Rule} (h : rules.map Rule.id = List.range rules.length)
    {i : Nat} {r : Rule} (hr : rules[i]? = some r) : r.id = i := by
  have hi : i < rules.length := (List.getElem?_eq_some_iff.1 hr).1
  have hid : (rules.map Rule.id)[i]? = some r.id := by
    rw [List.getElem?_map, hr]
    rfl
  rw [h, List.getElem?_range hi] at hid
  exact (Option.some.inj hid).symm

namespace RuleSet

variable {s : RuleSet}

/-- Whether every rule stands at the place of its number. -/
def Numbered (s : RuleSet) : Prop :=
  s.rules.map Rule.id = List.range s.rules.length

instance (s : RuleSet) : Decidable s.Numbered :=
  inferInstanceAs (Decidable (_ = _))

/-- The rules in order of names are all rules. -/
theorem byName_perm (s : RuleSet) : s.byName.Perm s.rules :=
  List.mergeSort_perm ..

/-- The order of names is an order of all numbers. -/
theorem Numbered.idsByName_perm (h : s.Numbered) :
    s.idsByName.Perm (List.range s.rules.length) := by
  rw [idsByName, ← h]
  exact s.byName_perm.map _

theorem Numbered.mem_idsByName_iff (h : s.Numbered) {i : Nat} :
    i ∈ s.idsByName ↔ i < s.rules.length := by
  rw [h.idsByName_perm.mem_iff, List.mem_range]

/-- Rules that are declared in the order of names stay in it. -/
theorem idsByName_of_pairwise (h : s.rules.Pairwise fun a b => a.fullName ≤ b.fullName) :
    s.idsByName = s.rules.map Rule.id := by
  rw [idsByName, byName, List.mergeSort_of_pairwise (h.imp fun hab => decide_eq_true hab)]

end RuleSet

end Buildwright
