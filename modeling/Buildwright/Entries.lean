/-!
# Named values in order

Arguments, maps of a document and maps of settings are lists of named values, in the order
in which the names were first mentioned.

## Contents

* `setEntry` — give a name its value;
* `map_fst_setEntry` — which names there are afterwards;
* `notMem_keys_of_lookup_eq_none` — what has no value is not there.
-/

namespace Buildwright

/-- Set the value of a name: in its place if the name is there, else at the end. -/
def setEntry {α : Type} (name : String) (value : α) :
    List (String × α) → List (String × α)
  | [] => [(name, value)]
  | (n, v) :: rest => if n = name then (n, value) :: rest else (n, v) :: setEntry name value rest

/-- Setting a name keeps the names, or adds the one at the end. -/
theorem map_fst_setEntry {α : Type} (name : String) (value : α) (l : List (String × α)) :
    (setEntry name value l).map Prod.fst =
      if name ∈ l.map Prod.fst then l.map Prod.fst else l.map Prod.fst ++ [name] := by
  induction l with
  | nil => simp [setEntry]
  | cons e rest ih =>
    obtain ⟨n, v⟩ := e
    by_cases h : n = name
    · simp [setEntry, h]
    · have h' : ¬ name = n := fun e => h e.symm
      by_cases hm : name ∈ rest.map Prod.fst
      · simp only [setEntry, h, if_false, List.map_cons, ih, hm, if_true, List.mem_cons, or_true]
      · simp only [setEntry, h, if_false, List.map_cons, ih, hm, List.mem_cons, h', or_self,
          List.cons_append]

/-- A key without a value is no key of the list. -/
theorem notMem_keys_of_lookup_eq_none {κ α : Type} [DecidableEq κ] {l : List (κ × α)} {k : κ}
    (h : l.lookup k = none) : k ∉ l.map Prod.fst := by
  intro hm
  obtain ⟨e, he, rfl⟩ := List.mem_map.1 hm
  have hne := List.lookup_eq_none_iff.1 h e he
  simp at hne

end Buildwright
