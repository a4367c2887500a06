import Buildwright.Output.Files
import Mathlib.Data.List.Basic

/-! # Collected files

    A path can be used once, so a file that has been stored stays, and when all
    files of a run have been stored each of them is found under its path and no
    two of them have the same path.

    * `GeneratedFiles.get?_store` — what is found after one more file;
    * `GeneratedFiles.storeAll_eq_ok` — what is found after all of them;
    * `GeneratedFiles.exists_storeAll` — files that can be stored. -/

namespace Buildwright

namespace Path

theorem Same.refl (p : Path) : p.Same p :=
  Eq.refl p.components

theorem Same.symm {p q : Path} (h : p.Same q) : q.Same p :=
  Eq.symm h

theorem Same.trans {p q r : Path} (h : p.Same q) (h' : q.Same r) : p.Same r :=
  Eq.trans h h'

end Path

namespace GeneratedFiles

variable {g g' : GeneratedFiles} {path q : Path} {content : String}

theorem get?_eq_none_iff : g.get? path = none ↔ ∀ f ∈ g.files, ¬ f.1.Same path := by
  simp [get?, List.find?_eq_none]

/-- A file is found under any spelling of its path. -/
theorem get?_congr (h : path.Same q) : g.get? q = g.get? path := by
  have hsame : (fun f : Path × String => decide (f.1.Same q)) =
      fun f => decide (f.1.Same path) := by
    funext f
    exact decide_eq_decide.2 ⟨fun hf => hf.trans h.symm, fun hf => hf.trans h⟩
  rw [get?, get?, hsame]

/-- A file is found where it has been put, and the others are found as before. -/
theorem find?_insert {l : List (Path × String)} (h : ∀ f ∈ l, ¬ f.1.Same path) (q : Path) :
    (insert path content l).find? (fun f => f.1.Same q) =
      if path.Same q then some (path, content) else l.find? fun f => f.1.Same q := by
  have hfront : ∀ rest : List (Path × String),
      ((path, content) :: rest).find? (fun f => f.1.Same q) =
        if path.Same q then some (path, content) else rest.find? fun f => f.1.Same q := by
    intro rest
    by_cases hq : path.Same q
    · rw [if_pos hq, List.find?_cons_of_pos (by simpa using hq)]
    · rw [if_neg hq, List.find?_cons_of_neg (by simpa using hq)]
  induction l with
  | nil => exact hfront []
  | cons f rest ih =>
      by_cases hlt : path.lt f.1 = true
      · rw [insert, if_pos hlt]
        exact hfront (f :: rest)
      · have hrest := ih fun x hx => h x (List.mem_cons_of_mem _ hx)
        rw [insert, if_neg hlt]
        by_cases hf : f.1.Same q
        · -- `f` is met first, and `path` is another one
          have hne : ¬ path.Same q := fun hq =>
            h f (List.mem_cons_self ..) (hf.trans hq.symm)
          rw [List.find?_cons_of_pos (by simpa using hf), if_neg hne,
            List.find?_cons_of_pos (by simpa using hf)]
        · rw [List.find?_cons_of_neg (by simpa using hf), hrest,
            List.find?_cons_of_neg (by simpa using hf)]

theorem get?_of_store_eq_ok (h : g.store path content = .ok g') : g.get? path = none := by
  cases hpath : g.get? path with
  | none => rfl
  | some old =>
      rw [store, hpath] at h
      cases h

/-- After a file has been stored it is found, and the others are found as before. -/
theorem get?_store (h : g.store path content = .ok g') (q : Path) :
    g'.get? q = if path.Same q then some content else g.get? q := by
  have hnew := get?_of_store_eq_ok h
  rw [store, hnew] at h
  obtain rfl := Except.ok.inj h
  rw [get?, find?_insert (get?_eq_none_iff.1 hnew)]
  by_cases hq : path.Same q
  · rw [if_pos hq, if_pos hq]
    rfl
  · rw [if_neg hq, if_neg hq]
    rfl

/-- When files have been stored without a fault, each is found under its path, no two of them
    have the same path, and what was found before is still found. -/
theorem storeAll_eq_ok {items : List (Outcome (Path × String))}
    (h : g.storeAll items = (g', .ok ())) :
    ∃ files : List (Path × String), items = files.map .ok ∧
      files.Pairwise (fun f f' => ¬ f.1.Same f'.1) ∧
      (∀ f ∈ files, g.get? f.1 = none ∧ g'.get? f.1 = some f.2) ∧
      ∀ q old, g.get? q = some old → g'.get? q = some old := by
  induction items generalizing g with
  | nil =>
      obtain rfl : g = g' := congrArg Prod.fst h
      exact ⟨[], rfl, .nil, fun _ hf => absurd hf List.not_mem_nil, fun _ _ hq => hq⟩
  | cons item rest ih =>
      cases item with
      | error fault => cases h
      | ok file =>
          obtain ⟨path, content⟩ := file
          rw [storeAll] at h
          cases hstore : g.store path content with
          | error fault =>
              rw [hstore] at h
              cases h
          | ok g₁ =>
              rw [hstore] at h
              obtain ⟨files, rfl, hpaths, hfound, hold⟩ := ih h
              have hget := get?_store hstore
              have hself : g₁.get? path = some content := by rw [hget, if_pos (.refl path)]
              -- a later file has another path, since that of this one is taken
              have hother : ∀ f ∈ files, ¬ path.Same f.1 := by
                intro f hf hsame
                have hnone := (hfound f hf).1
                rw [hget, if_pos hsame] at hnone
                cases hnone
              refine ⟨(path, content) :: files, rfl, .cons hother hpaths,
                List.forall_mem_cons.2 ⟨⟨get?_of_store_eq_ok hstore, hold _ _ hself⟩, ?_⟩, ?_⟩
              · intro f hf
                obtain ⟨hnone, hsome⟩ := hfound f hf
                rw [hget, if_neg (hother f hf)] at hnone
                exact ⟨hnone, hsome⟩
              · intro q old hq
                have hne : ¬ path.Same q := by
                  intro hsame
                  rw [get?_congr hsame, get?_of_store_eq_ok hstore] at hq
                  cases hq
                refine hold q old ?_
                rw [hget, if_neg hne]
                exact hq

/-- Files can be stored if no two of them have the same path. -/
theorem exists_storeAll {files : List (Path × String)}
    (hpaths : (files.map fun f => f.1.components).Nodup) (hnew : ∀ f ∈ files, g.get? f.1 = none) :
    ∃ g', g.storeAll (files.map .ok) = (g', .ok ()) := by
  induction files generalizing g with
  | nil => exact ⟨g, rfl⟩
  | cons f rest ih =>
      obtain ⟨path, content⟩ := f
      obtain ⟨hother, hrest⟩ := List.nodup_cons.1 hpaths
      have hstore : g.store path content = .ok ⟨insert path content g.files⟩ := by
        rw [store, hnew _ (List.mem_cons_self ..)]
        rfl
      have hnew' : ∀ f ∈ rest,
          (⟨insert path content g.files⟩ : GeneratedFiles).get? f.1 = none := by
        intro f hf
        have hne : ¬ path.Same f.1 := fun hsame => hother (List.mem_map.2 ⟨f, hf, hsame.symm⟩)
        rw [get?_store hstore, if_neg hne]
        exact hnew f (List.mem_cons_of_mem _ hf)
      obtain ⟨g', hg'⟩ := ih hrest hnew'
      refine ⟨g', ?_⟩
      rw [List.map_cons, storeAll, hstore]
      exact hg'

/-- Files cannot be stored only because of a path that is used twice. -/
theorem exists_of_storeAll_eq_error {files : List (Path × String)} {fault : Fault}
    (h : g.storeAll (files.map .ok) = (g', .error fault)) :
    ∃ f ∈ files, fault = .internal (f.1.text ++ " was generated more than once") := by
  induction files generalizing g with
  | nil => cases h
  | cons f rest ih =>
      obtain ⟨path, content⟩ := f
      rw [List.map_cons, storeAll] at h
      cases hstore : g.store path content with
      | ok stored =>
          rw [hstore] at h
          obtain ⟨f, hf, hfault⟩ := ih h
          exact ⟨f, List.mem_cons_of_mem _ hf, hfault⟩
      | error refused =>
          rw [hstore] at h
          refine ⟨(path, content), List.mem_cons_self .., ?_⟩
          obtain rfl : refused = fault := Except.error.inj (Prod.mk.inj h).2
          rw [store] at hstore
          split at hstore
          · exact (Except.error.inj hstore).symm
          · cases hstore

/-- Items that all have a path are files. -/
theorem exists_files {items : List (Outcome (Path × String))} {paths : List Path}
    (h : items.map (Except.map Prod.fst) = paths.map .ok) :
    ∃ files : List (Path × String), items = files.map .ok ∧ files.map Prod.fst = paths := by
  induction items generalizing paths with
  | nil =>
      cases paths with
      | nil => exact ⟨[], rfl, rfl⟩
      | cons _ _ => cases h
  | cons item rest ih =>
      cases paths with
      | nil => cases h
      | cons path paths =>
          obtain ⟨hitem, hrest⟩ := List.cons.inj h
          obtain ⟨files, rfl, rfl⟩ := ih hrest
          cases item with
          | error fault => cases hitem
          | ok f =>
              obtain rfl := Except.ok.inj hitem
              exact ⟨f :: files, rfl, rfl⟩

end GeneratedFiles

end Buildwright
