import Buildwright.Proofs.FileTree.Packages

/-! # Files that are not there

    There are many ways in which a path can lead to no file: nothing is there, or a
    directory is, or a file stands where a directory would have to be.  Only of the first
    does a disk say that it has found nothing.

    * `Disk.ComesToNothing` — paths that lead to nothing, or nowhere on the way;
    * `Disk.readText_eq_notFound_iff` — for them a disk says so, and for no others. -/

namespace Buildwright.Disk

variable {d : Disk} {p : Path} {t : FileTree} {place : Place} {names : List String}

/-- Whether a path leads to nothing: it is empty, or there is nothing at a place that it comes
    to, be it the last one or another. -/
def ComesToNothing (d : Disk) (p : Path) : Prop :=
  p.text = "" ∨ ('\x00' ∉ p.text.toList ∧ p.text.utf8ByteSize ≤ pathLimit ∧
    ∃ front rest place, p.steps = front ++ rest ∧
      walk d.tree (if p.isAbsolute then [] else d.current) front = .ok place ∧
      d.tree.find? place = none)

/-- A walk comes to a place where there is nothing, at its end or before. -/
theorem walk_notFound_iff :
    (walk t place names = .error .notFound ∨
      ∃ last, walk t place names = .ok last ∧ t.find? last = none) ↔
    ∃ front rest last, names = front ++ rest ∧ walk t place front = .ok last ∧
      t.find? last = none := by
  induction names generalizing place with
  | nil =>
      constructor
      · rintro (h | ⟨last, hlast, hnone⟩)
        · cases h
        · exact ⟨[], [], last, rfl, hlast, hnone⟩
      · rintro ⟨front, rest, last, hnames, hlast, hnone⟩
        obtain ⟨rfl, rfl⟩ := List.append_eq_nil_iff.1 hnames.symm
        exact .inr ⟨last, hlast, hnone⟩
  | cons name names ih =>
      cases hnode : t.find? place with
      | none =>
          refine iff_of_true (.inl ?_) ⟨[], name :: names, place, rfl, rfl, hnode⟩
          rw [walk, hnode]
      | some node =>
          -- where something is, the walk has to go on
          have hfront : (∃ front rest last, name :: names = front ++ rest ∧
              walk t place front = .ok last ∧ t.find? last = none) ↔
              (node = .directory ∧ name.utf8ByteSize ≤ nameLimit) ∧
              ∃ front rest last, names = front ++ rest ∧
                walk t (follow place [name]) front = .ok last ∧ t.find? last = none := by
            constructor
            · rintro ⟨front, rest, last, hnames, hlast, hnone⟩
              cases front with
              | nil =>
                  obtain rfl : place = last := Except.ok.inj hlast
                  rw [hnode] at hnone
                  cases hnone
              | cons first front =>
                  obtain ⟨rfl, htail⟩ := List.cons.inj hnames
                  obtain ⟨hdir, hshort, hrest⟩ := walk_cons_eq_ok_iff.1 hlast
                  exact ⟨⟨Option.some.inj (hnode.symm.trans hdir), hshort⟩,
                    front, rest, last, htail, hrest, hnone⟩
            · rintro ⟨⟨rfl, hshort⟩, front, rest, last, rfl, hlast, hnone⟩
              exact ⟨name :: front, rest, last, rfl,
                walk_cons_eq_ok_iff.2 ⟨hnode, hshort, hlast⟩, hnone⟩
          rw [hfront, ← ih]
          cases node with
          | file content =>
              rw [walk, hnode]
              exact iff_of_false (by simp) (by simp)
          | directory =>
              by_cases hshort : name.utf8ByteSize ≤ nameLimit
              · have hwalk : walk t place (name :: names) = walk t (follow place [name]) names := by
                  rw [walk, hnode]
                  exact if_neg (Nat.not_lt.2 hshort)
                rw [hwalk]
                exact (and_iff_right ⟨rfl, hshort⟩).symm
              · have hwalk : walk t place (name :: names) = .error .invalidName := by
                  rw [walk, hnode]
                  exact if_pos (Nat.not_le.1 hshort)
                rw [hwalk]
                exact iff_of_false (by simp) fun h => hshort h.1.2

/-- A disk finds nothing if the path leads to nothing. -/
theorem entry_eq_notFound_iff : d.entry p = .error .notFound ↔
    d.locate p = .error .notFound ∨
      ∃ place, d.locate p = .ok place ∧ d.tree.find? place = none := by
  cases hplace : d.locate p with
  | error refusal => simp [entry, hplace, bind, Except.bind]
  | ok place =>
      cases hnode : d.tree.find? place with
      | none => simp [entry, hplace, bind, Except.bind, hnode]
      | some node =>
          cases node with
          | directory => simp [entry, hplace, bind, Except.bind, hnode]
          | file content =>
              cases hwants : wantsDirectory p <;>
                simp [entry, hplace, bind, Except.bind, hnode, hwants]

theorem comesToNothing_iff : d.ComesToNothing p ↔ d.entry p = .error .notFound := by
  rw [entry_eq_notFound_iff, ComesToNothing, ← walk_notFound_iff]
  by_cases hempty : p.text = ""
  · have hplace : d.locate p = .error .notFound := by rw [locate, if_pos (by rw [hempty]; rfl)]
    exact iff_of_true (.inl hempty) (.inl hplace)
  rw [or_iff_right hempty]
  by_cases hnul : '\x00' ∈ p.text.toList
  · have hplace : d.locate p = .error .invalidInput := by
      rw [locate, if_neg (by simpa using hempty), if_pos (by simpa using hnul)]
    rw [hplace]
    exact iff_of_false (fun h => h.1 hnul) (by simp)
  by_cases hlong : p.text.utf8ByteSize ≤ pathLimit
  · rw [locate_eq_walk hempty hnul hlong]
    exact (and_iff_right hnul).trans (and_iff_right hlong)
  · have hplace : d.locate p = .error .invalidName := by
      rw [locate, if_neg (by simpa using hempty), if_neg (by simpa using hnul),
        if_pos (Nat.not_le.1 hlong)]
    rw [hplace]
    exact iff_of_false (fun h => hlong h.2.1) (by simp)

/-- Reading finds nothing if the path leads to nothing. -/
theorem readText_eq_notFound_iff : d.readText p = .error .notFound ↔ d.ComesToNothing p := by
  rw [comesToNothing_iff, readText, read]
  cases d.entry p with
  | error refusal => exact ⟨fun h => congrArg _ (Except.error.inj h),
      fun h => congrArg _ (Except.error.inj h)⟩
  | ok found =>
      obtain ⟨place, node⟩ := found
      cases node with
      | directory => exact iff_of_false (by simp [bind, Except.bind]) (by simp)
      | file content =>
          refine iff_of_false ?_ (by simp)
          simp only [bind, Except.bind]
          split <;> simp

/-- What is no file cannot be read. -/
theorem exists_refusal (h : d.isFile p = false) : ∃ refusal, d.readText p = .error refusal := by
  rw [isFile] at h
  rw [readText, read]
  cases hentry : d.entry p with
  | error refusal => exact ⟨refusal, rfl⟩
  | ok found =>
      obtain ⟨place, node⟩ := found
      rw [hentry] at h
      cases node with
      | directory => exact ⟨.isADirectory, rfl⟩
      | file content => cases h

/-- What is evaluated is a file. -/
theorem isFile_of_evaluate {calls : List Call} (h : d.evaluate p = .ok calls) :
    d.isFile p = true := by
  obtain ⟨text, htext, -⟩ := evaluate_eq_ok_iff.1 h
  by_contra hfile
  obtain ⟨refusal, hrefused⟩ := exists_refusal (Bool.not_eq_true _ ▸ hfile)
  rw [htext] at hrefused
  cases hrefused

end Buildwright.Disk
