import Buildwright.Proofs.FileTree.Changes
import Buildwright.Proofs.Path.Normal

/-! # What can still be read

    A file that stays can still be read, as long as directories stay.  The other
    way round a file that lies at a place could be read there before, because
    every node of a tree lies in a directory; only a `..` may have been in the way,
    if it leaves a directory that is not there.

    * `FileTree.Rooted` — trees whose nodes lie in directories;
    * `Disk.walk_of_rooted` — ways through such a tree;
    * `Disk.Grounded` — paths whose `..` are not in the way;
    * `Disk.read_of_grows`, `Disk.read_of_rooted` — what can be read. -/

namespace Buildwright

namespace FileTree

variable {t : FileTree} {place : Place}

/-- Whether every node lies in a directory. -/
def Rooted (t : FileTree) : Prop :=
  ∀ place name, t.find? (place ++ [name]) ≠ none → t.find? place = some .directory

/-- It is enough to look at the nodes that are listed. -/
theorem rooted_of_nodes (h : ∀ n ∈ t.nodes, t.find? n.1.dropLast = some .directory) :
    t.Rooted := by
  intro place name hfound
  obtain ⟨node, hnode⟩ := Option.ne_none_iff_exists'.1 hfound
  obtain ⟨n, hn, hplace⟩ := List.mem_map.1 (mem_places hnode (by simp))
  have hdirectory := h n hn
  rwa [hplace, List.dropLast_concat] at hdirectory

/-- A tree stays one with a new node in a directory, unless it takes the place of another. -/
theorem Rooted.put (h : t.Rooted) (node : Node)
    (haround : t.find? place.dropLast = some .directory)
    (hnot : t.find? place ≠ some .directory) : (t.put place node).Rooted := by
  intro q name hq
  by_cases hnew : q ++ [name] = place
  · subst hnew
    rw [List.dropLast_concat] at haround
    rwa [find?_put_of_ne t node (by simp)]
  · rw [find?_put_of_ne t node hnew] at hq
    have hdirectory := h q name hq
    have hne : q ≠ place := by
      rintro rfl
      exact hnot hdirectory
    rwa [find?_put_of_ne t node hne]

end FileTree

/-- A path without a step up does not lead along `..`. -/
theorem Path.dots_notMem_steps {p : Path} (h : Component.parent ∉ p.components) :
    ".." ∉ p.steps := by
  rw [steps_eq_components, List.mem_filterMap]
  rintro ⟨c, hc, hstep⟩
  cases c with
  | root | current => cases hstep
  | parent => exact h hc
  | name n =>
      obtain rfl := Option.some.inj hstep
      exact (proper_of_mem_components hc nofun nofun).2.1 rfl

namespace Disk

variable {d d' : Disk} {p q : Path} {t : FileTree} {start place : Place}
  {names names' : List String} {bytes : ByteArray} {D : Place → Prop}

theorem Made.grows (h : Made D d d') : d.tree.Grows d'.tree := by
  induction h with
  | refl => exact .refl _
  | put _ _ hnone _ ih => exact ih.trans (.put _ (by rw [hnone]; nofun))

/-- New directories leave all files as they are. -/
theorem Made.find?_file_iff (h : Made D d d') :
    d'.tree.find? place = some (.file bytes) ↔ d.tree.find? place = some (.file bytes) := by
  induction h with
  | refl => exact Iff.rfl
  | @put e new _ _ hnone haround ih =>
      rw [← ih]
      by_cases hnew : place = new
      · subst hnew
        have hne : place ≠ [] := by
          rintro rfl
          cases hnone
        rw [FileTree.find?_put_self _ _ hne, hnone]
        exact iff_of_false nofun nofun
      · rw [FileTree.find?_put_of_ne _ _ hnew]

theorem Made.rooted (h : Made D d d') (hrooted : d.tree.Rooted) : d'.tree.Rooted := by
  induction h with
  | refl => exact hrooted
  | put _ _ hnone haround ih => exact ih.put _ haround (by rw [hnone]; nofun)

/-! ## Ways -/

/-- A walk goes through all places on its way. -/
theorem walk_append_eq_ok_iff : walk t start (names ++ names') = .ok place ↔
    walk t start names = .ok (follow start names) ∧
      walk t (follow start names) names' = .ok place := by
  induction names generalizing start with
  | nil => exact (and_iff_right rfl).symm
  | cons name names ih =>
      rw [List.cons_append, walk_cons_eq_ok_iff, walk_cons_eq_ok_iff, ih]
      show _ ↔ (_ ∧ _ ∧ _ = Except.ok (follow (follow start [name]) names)) ∧
        walk t (follow (follow start [name]) names) names' = _
      tauto

theorem length_le_of_walk (h : walk t start names = .ok place) :
    ∀ name ∈ names, name.utf8ByteSize ≤ nameLimit := by
  induction names generalizing start with
  | nil => exact List.forall_mem_nil _
  | cons name names ih =>
      obtain ⟨-, hname, hrest⟩ := walk_cons_eq_ok_iff.1 h
      exact List.forall_mem_cons.2 ⟨hname, ih hrest⟩

/-- What is in a tree can be reached by names, unless a `..` is in the way. -/
theorem walk_of_rooted (ht : t.Rooted) (hfound : t.find? (follow start names) ≠ none)
    (hlength : ∀ name ∈ names, name.utf8ByteSize ≤ nameLimit)
    (hup : ∀ before, before ++ [".."] <+: names →
      ∃ place, walk t start (before ++ [".."]) = .ok place) :
    walk t start names = .ok (follow start names) := by
  -- from the last name back to the first one: a name is one of the directory before it
  induction names using List.reverseRecOn with
  | nil => rfl
  | append_singleton names name ih =>
      by_cases hname : name = ".."
      · subst hname
        obtain ⟨place, hplace⟩ := hup names List.prefix_rfl
        rw [← walk_eq_ok hplace]
        exact hplace
      · obtain ⟨hfirst, hlast⟩ := List.forall_mem_append.1 hlength
        have hstep : follow start (names ++ [name]) = follow start names ++ [name] := by
          rw [follow_append]
          exact if_neg hname
        rw [hstep] at hfound ⊢
        have hdirectory := ht _ _ hfound
        have hwalk := ih (by rw [hdirectory]; nofun) hfirst fun before hbefore =>
          hup before (hbefore.trans (List.prefix_append ..))
        refine walk_append_eq_ok_iff.2 ⟨hwalk, walk_cons_eq_ok_iff.2
          ⟨hdirectory, hlast name (List.mem_singleton_self _), ?_⟩⟩
        rw [← hstep, follow_append]
        rfl

/-! ## Steps up -/

/-- Whether every `..` of a path leaves a directory that is there. -/
def Grounded (d : Disk) (p : Path) : Prop :=
  ∀ before, before ++ [".."] <+: p.steps →
    ∃ place, walk d.tree (if p.isAbsolute then [] else d.current) (before ++ [".."]) = .ok place

/-- A path without `..` is grounded. -/
theorem grounded_of_notMem (h : ".." ∉ p.steps) : d.Grounded p :=
  fun _ hbefore => absurd (hbefore.subset (List.mem_append_right _ (List.mem_singleton_self _))) h

/-- A path that leads somewhere is grounded. -/
theorem grounded_of_locate (h : d.locate p = .ok place) : d.Grounded p := by
  rintro before ⟨rest, hsteps⟩
  have hwalk := (locate_eq_ok_iff.1 h).2.2.2
  rw [← hsteps] at hwalk
  exact ⟨_, (walk_append_eq_ok_iff.1 hwalk).1⟩

/-- Names without `..` behind a path leave it grounded. -/
theorem Grounded.join (h : d.Grounded p) (habsolute : q.isAbsolute = false)
    (hup : ".." ∉ q.steps) : d.Grounded (p.join q) := by
  intro before hbefore
  rw [Path.isAbsolute_join, habsolute, Bool.false_or]
  rw [Path.steps_join p habsolute] at hbefore
  rcases List.prefix_or_prefix_of_prefix hbefore (List.prefix_append ..) with hp | ⟨rest, hrest⟩
  · exact h before hp
  rcases List.eq_nil_or_concat rest with rfl | ⟨rest, name, rfl⟩
  · exact h before ⟨[], by rw [← hrest, List.append_nil, List.append_nil]⟩
  · -- the last name is one of those behind the path
    rw [List.concat_eq_append, ← List.append_assoc] at hrest
    obtain rfl : name = ".." := List.singleton_inj.1 (List.append_inj_right' hrest rfl)
    rw [← hrest, List.append_assoc, List.prefix_append_right_inj] at hbefore
    exact absurd (hbefore.subset (List.mem_append_right _ (List.mem_singleton_self _))) hup

theorem Grounded.grows (h : d.Grounded p) (ht : d.tree.Grows d'.tree)
    (hcurrent : d'.current = d.current) : d'.Grounded p := by
  intro before hbefore
  obtain ⟨place, hplace⟩ := h before hbefore
  exact ⟨place, hcurrent ▸ walk_of_grows ht hplace⟩

/-! ## Files -/

/-- What can be read is a file at the place where a path leads, if it ends in a name. -/
theorem read_eq_ok_iff : d.read p = .ok bytes ↔ d.locate p = .ok (d.placeOf p) ∧
    d.tree.find? (d.placeOf p) = some (.file bytes) ∧ wantsDirectory p = false := by
  rw [read, entry]
  cases hplace : d.locate p with
  | error refusal => simp [bind, Except.bind]
  | ok place =>
      obtain rfl := locate_eq_ok hplace
      cases hnode : d.tree.find? (d.placeOf p) with
      | none => simp [bind, Except.bind, hnode]
      | some node =>
          cases node with
          | directory => simp [bind, Except.bind, hnode]
          | file content =>
              cases hwants : wantsDirectory p <;> simp [bind, Except.bind, hnode]

theorem placeOf_congr (hcurrent : d'.current = d.current) (p : Path) :
    d'.placeOf p = d.placeOf p := by
  rw [placeOf, placeOf, hcurrent]

/-- A file that stays where it is can still be read. -/
theorem read_of_grows (ht : d.tree.Grows d'.tree) (hcurrent : d'.current = d.current)
    (hfile : d.tree.find? (d.placeOf p) = some (.file bytes) →
      d'.tree.find? (d.placeOf p) = some (.file bytes))
    (h : d.read p = .ok bytes) : d'.read p = .ok bytes := by
  obtain ⟨hplace, hnode, hwants⟩ := read_eq_ok_iff.1 h
  rw [read_eq_ok_iff, placeOf_congr hcurrent]
  exact ⟨locate_of_grows ht hcurrent hplace, hfile hnode, hwants⟩

/-- A file that was there before could be read before. -/
theorem read_of_rooted (ht : d.tree.Rooted) (hp : d.Grounded p) (hcurrent : d'.current = d.current)
    (hfile : d'.tree.find? (d.placeOf p) = some (.file bytes) →
      d.tree.find? (d.placeOf p) = some (.file bytes))
    (h : d'.read p = .ok bytes) : d.read p = .ok bytes := by
  rw [read_eq_ok_iff, placeOf_congr hcurrent] at h
  obtain ⟨hplace, hnode, hwants⟩ := h
  obtain ⟨htext, hnul, hlength, hwalk⟩ := locate_eq_ok_iff.1 hplace
  refine read_eq_ok_iff.2 ⟨locate_eq_ok_iff.2 ⟨htext, hnul, hlength, ?_⟩, hfile hnode, hwants⟩
  refine walk_of_rooted ht ?_ (length_le_of_walk hwalk) hp
  exact Option.ne_none_iff_exists'.2 ⟨_, hfile hnode⟩

end Disk

end Buildwright
