import Buildwright.Entries
import Mathlib.Data.List.Nodup

/-! # Lists of entries with keys

    Entry numbers, places, rule names and package keys are all kept as lists
    of pairs and read with `List.lookup`.  Where no key occurs twice, looking
    up and membership say the same, and both are unmoved by a renaming of keys
    that does not confuse them.  Setting entries one after another never makes
    a key occur twice. -/

namespace Buildwright

variable {κ α : Type}

/-- Two entries of one key are the same entry. -/
theorem eq_of_mem_of_nodup_keys {l : List (κ × α)} (hl : (l.map Prod.fst).Nodup)
    {k : κ} {a b : α} (ha : (k, a) ∈ l) (hb : (k, b) ∈ l) : a = b :=
  congrArg Prod.snd (List.inj_on_of_nodup_map hl ha hb rfl)

variable [DecidableEq κ]

/-- What is looked up is an entry of the list. -/
theorem mem_of_lookup_eq_some {l : List (κ × α)} {k : κ} {a : α}
    (h : l.lookup k = some a) : (k, a) ∈ l := by
  obtain ⟨l₁, l₂, rfl, -⟩ := List.lookup_eq_some_iff.1 h
  exact List.mem_append_right _ (List.mem_cons_self ..)

/-- A key of the list has a value. -/
theorem exists_lookup_of_mem_keys {l : List (κ × α)} {k : κ}
    (h : k ∈ l.map Prod.fst) : ∃ a, l.lookup k = some a := by
  cases hl : l.lookup k with
  | none => exact absurd h (notMem_keys_of_lookup_eq_none hl)
  | some a => exact ⟨a, rfl⟩

/-- An entry is what its key looks up. -/
theorem lookup_eq_some_of_mem {l : List (κ × α)} (hl : (l.map Prod.fst).Nodup)
    {k : κ} {a : α} (h : (k, a) ∈ l) : l.lookup k = some a := by
  obtain ⟨b, hb⟩ := exists_lookup_of_mem_keys (List.mem_map.2 ⟨_, h, rfl⟩)
  rw [hb, eq_of_mem_of_nodup_keys hl (mem_of_lookup_eq_some hb) h]

theorem lookup_eq_some_iff_mem {l : List (κ × α)} (hl : (l.map Prod.fst).Nodup)
    {k : κ} {a : α} : l.lookup k = some a ↔ (k, a) ∈ l :=
  ⟨mem_of_lookup_eq_some, lookup_eq_some_of_mem hl⟩

/-- Entries are looked up in any order. -/
theorem lookup_eq_of_perm {l l' : List (κ × α)} (hl : (l.map Prod.fst).Nodup) (h : l.Perm l')
    (k : κ) : l.lookup k = l'.lookup k := by
  have hl' : (l'.map Prod.fst).Nodup := (h.map Prod.fst).nodup_iff.1 hl
  ext a
  rw [lookup_eq_some_iff_mem hl, lookup_eq_some_iff_mem hl', h.mem_iff]

/-- Renamed keys are looked up by their new names. -/
theorem lookup_map_keys {κ' : Type} [DecidableEq κ'] {f : κ → κ'} (hf : Function.Injective f)
    (l : List (κ × α)) (k : κ) : (l.map fun e => (f e.1, e.2)).lookup (f k) = l.lookup k := by
  induction l with
  | nil => rfl
  | cons e rest ih =>
      have heq : (f k == f e.1) = (k == e.1) := by
        rw [Bool.eq_iff_iff, beq_iff_eq, beq_iff_eq, hf.eq_iff]
      rw [List.map_cons, List.lookup_cons, List.lookup_cons, ih, heq]

/-- Changed values are looked up by the same keys. -/
theorem lookup_map_values {β : Type} (f : α → β) (l : List (κ × α)) (k : κ) :
    (l.map fun e => (e.1, f e.2)).lookup k = (l.lookup k).map f := by
  induction l with
  | nil => rfl
  | cons e rest ih =>
      rw [List.map_cons, List.lookup_cons, List.lookup_cons, ih]
      cases k == e.1 with
      | true => rfl
      | false => rfl

/-! ## Setting entries -/

section SetEntry

variable {name : String} {value : α} {e : String × α} {l es : List (String × α)}

theorem nodup_setEntry (h : (l.map Prod.fst).Nodup) :
    ((setEntry name value l).map Prod.fst).Nodup := by
  rw [map_fst_setEntry]
  by_cases hname : name ∈ l.map Prod.fst
  · rw [if_pos hname]
    exact h
  · rw [if_neg hname, ← List.concat_eq_append]
    exact List.Nodup.concat hname h

/-- What is there afterwards was there before, or has the value that was set. -/
theorem mem_setEntry (h : e ∈ setEntry name value l) : e ∈ l ∨ e.2 = value := by
  induction l with
  | nil => exact .inr (by rw [List.mem_singleton.1 h])
  | cons e' l ih =>
      rw [setEntry] at h
      split at h
      · rcases List.mem_cons.1 h with rfl | h
        · exact .inr rfl
        · exact .inl (List.mem_cons_of_mem _ h)
      · rcases List.mem_cons.1 h with rfl | h
        · exact .inl (List.mem_cons_self ..)
        · exact (ih h).imp_left (List.mem_cons_of_mem _)

theorem lookup_setEntry (k : String) :
    (setEntry name value l).lookup k = if k = name then some value else l.lookup k := by
  induction l with
  | nil =>
      rw [setEntry, List.lookup_cons]
      by_cases hk : k = name
      · rw [if_pos hk, beq_iff_eq.2 hk]
      · rw [if_neg hk, beq_false_of_ne hk]
  | cons e l ih =>
      rw [setEntry]
      by_cases hname : e.1 = name
      · rw [if_pos hname, List.lookup_cons, List.lookup_cons, hname]
        by_cases hk : k = name
        · rw [if_pos hk, beq_iff_eq.2 hk]
        · rw [if_neg hk, beq_false_of_ne hk]
      · rw [if_neg hname, List.lookup_cons, List.lookup_cons, ih]
        by_cases hk : k = e.1
        · simp [hk, hname]
        · rw [beq_false_of_ne hk]

/-- A name that is not there is set at the end. -/
theorem setEntry_of_notMem (h : name ∉ l.map Prod.fst) :
    setEntry name value l = l ++ [(name, value)] := by
  induction l with
  | nil => rfl
  | cons e l ih =>
      rw [List.map_cons, List.mem_cons, not_or] at h
      rw [setEntry, if_neg (Ne.symm h.1), ih h.2, List.cons_append]

/-- Entries set one after another keep their keys apart, and their values are among those
    that were set. -/
theorem foldl_setEntry (es : List (String × α)) (hl : (l.map Prod.fst).Nodup) :
    ((es.foldl (fun l e => setEntry e.1 e.2 l) l).map Prod.fst).Nodup ∧
      ∀ e ∈ es.foldl (fun l e => setEntry e.1 e.2 l) l, e ∈ l ∨ e.2 ∈ es.map Prod.snd := by
  induction es generalizing l with
  | nil => exact ⟨hl, fun e he => .inl he⟩
  | cons e' es ih =>
      obtain ⟨hnodup, hmem⟩ := ih (nodup_setEntry hl)
      refine ⟨hnodup, fun e he => ?_⟩
      rw [List.map_cons, List.mem_cons]
      rcases hmem e he with h | h
      · exact (mem_setEntry h).imp_right .inl
      · exact .inr (.inr h)

/-- Entries with different keys are set one behind the other. -/
theorem foldl_setEntry_of_nodup (h : ((l ++ es).map Prod.fst).Nodup) :
    es.foldl (fun l e => setEntry e.1 e.2 l) l = l ++ es := by
  induction es generalizing l with
  | nil => rw [List.foldl_nil, List.append_nil]
  | cons e es ih =>
      have hfresh : e.1 ∉ l.map Prod.fst := by
        rw [List.map_append, List.nodup_append] at h
        exact fun he => h.2.2 e.1 he e.1 (List.mem_cons_self ..) rfl
      rw [List.append_cons l e es] at h ⊢
      rw [List.foldl_cons, setEntry_of_notMem hfresh, ih h]

end SetEntry

end Buildwright
