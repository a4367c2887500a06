import Buildwright.Proofs.Loading.Again
import Buildwright.Proofs.Loading.Mentions

/-! # Loading breadth first

    One worker takes the tasks in the order in which they were queued.  Then packages are
    evaluated in the order in which they are mentioned first: by the root files, and after
    that by the packages themselves, one after the other.  The queue is shorter than what is
    mentioned, since a package that is known or waits already gets no further task; but the
    first task of a package that is not known yet is the same in both.

    * `order` — the first task of every package that is mentioned;
    * `Ordered`, `Ordered.turn`, `ordered_turns` — what one turn preserves, and all turns;
    * `exists_turns_load` — on a disk the turns of `load` lead to their end;
    * `InOrder`, `load_breadth_first` — all of it together. -/

namespace Buildwright

/-! ## Numbers of rules -/

/-- The rules of contents under consecutive numbers. -/
def Contents.numbered (ps : List Contents) (n : Nat) : List Rule :=
  (ps.flatMap fun p => p.declarations.map fun d => (p.key, d)).mapIdx fun i e =>
    { id := n + i, package := e.1, declaration := e.2 }

theorem Contents.numbered_cons (p : Contents) (ps : List Contents) (n : Nat) :
    numbered (p :: ps) n = p.rulesFrom n ++ numbered ps (n + p.declarations.length) := by
  have hp : (p.declarations.map fun d => (p.key, d)).mapIdx (fun i e =>
      ({ id := n + i, package := e.1, declaration := e.2 } : Rule)) = p.rulesFrom n := by
    refine List.ext_getElem (by simp) fun i _ _ => ?_
    simp [rulesFrom]
  have hshift : ∀ i, n + (i + p.declarations.length) = n + p.declarations.length + i := by
    intro i
    omega
  rw [numbered, List.flatMap_cons, List.mapIdx_append, hp, List.length_map, numbered]
  simp only [hshift]

/-- Adopted contents have their rules numbered one after the other. -/
theorem Catalog.rules_adoptAll (c : Catalog) (ps : List Contents) :
    (c.adoptAll ps).rules = c.rules ++ Contents.numbered ps c.rules.length := by
  induction ps generalizing c with
  | nil => exact (List.append_nil _).symm
  | cons p rest ih =>
      have hlen : (c.adopt p).rules.length = c.rules.length + p.declarations.length := by
        simp [adopt]
      rw [show c.adoptAll (p :: rest) = (c.adopt p).adoptAll rest from rfl, ih, hlen,
        Contents.numbered_cons, ← List.append_assoc]
      rfl

/-- The package of some contents and the file that gives them. -/
def Contents.source (p : Contents) : String × Path := (p.key, p.file)

/-- The package of a task and the file that is to be evaluated for it. -/
def LoadTask.source (task : LoadTask) : String × Path := (task.key, task.file)

namespace Loading

variable {layout : Layout} {w : Workspace} {roots : List Path} {tasks : List LoadTask}
  {ps : List Contents} {p : Contents} {s t : Progress} {task : LoadTask}

/-! ## First mentions -/

/-- The tasks that are the first of their packages. -/
def firsts : List LoadTask → List LoadTask
  | [] => []
  | task :: rest => task :: (firsts rest).filter fun t => t.key ≠ task.key

theorem firsts_append (l l' : List LoadTask) :
    firsts (l ++ l') = firsts l ++ (firsts l').filter fun t => t.key ∉ l.map LoadTask.key := by
  induction l with
  | nil => simp [firsts]
  | cons task rest ih =>
      rw [List.cons_append, firsts, firsts, ih, List.filter_append, List.filter_filter,
        List.cons_append]
      simp [not_or, Bool.decide_and]

theorem nodup_firsts (l : List LoadTask) : ((firsts l).map LoadTask.key).Nodup := by
  induction l with
  | nil => exact List.nodup_nil
  | cons task rest ih =>
      rw [firsts, List.map_cons, List.nodup_cons]
      refine ⟨fun hmem => ?_, ih.sublist (List.filter_sublist.map _)⟩
      obtain ⟨t, ht, hkey⟩ := List.mem_map.1 hmem
      simpa [hkey] using (List.mem_filter.1 ht).2

/-- The first task of an unknown package is the first of its package. -/
theorem firstOutside_firsts (known : List String) (l : List LoadTask) :
    firstOutside known (firsts l) = firstOutside known l := by
  induction l with
  | nil => rfl
  | cons task rest ih =>
      rw [firsts]
      by_cases hkey : task.key ∈ known
      · -- what was left out for `task` is known
        rw [firstOutside_cons_of_mem hkey, firstOutside_cons_of_mem hkey, ← ih, firstOutside,
          firstOutside, List.find?_filter]
        congr 1
        funext t
        by_cases ht : t.key ∈ known
        · simp [ht]
        · have hne : t.key ≠ task.key := fun heq => ht (heq ▸ hkey)
          simp [ht, hne]
      · rw [firstOutside_cons_of_notMem hkey, firstOutside_cons_of_notMem hkey]

/-- All that is mentioned by the tasks of the root files and by contents, in order. -/
def mentioned (layout : Layout) (tasks : List LoadTask) (ps : List Contents) : List LoadTask :=
  tasks ++ ps.flatMap (Contents.mentions layout)

/-- The first task of every package that is mentioned, in order. -/
def order (layout : Layout) (tasks : List LoadTask) (ps : List Contents) : List LoadTask :=
  firsts (mentioned layout tasks ps)

theorem mentioned_concat (ps : List Contents) (p : Contents) :
    mentioned layout tasks (ps ++ [p]) = mentioned layout tasks ps ++ p.mentions layout := by
  simp [mentioned]

/-- Further contents add to the end of the order. -/
theorem order_prefix_concat (layout : Layout) (tasks : List LoadTask) (ps : List Contents)
    (p : Contents) : order layout tasks ps <+: order layout tasks (ps ++ [p]) := by
  rw [order, order, mentioned_concat, firsts_append]
  exact List.prefix_append _ _

theorem getElem?_order_concat {i : Nat} (h : (order layout tasks ps)[i]? = some task) :
    (order layout tasks (ps ++ [p]))[i]? = some task := by
  obtain ⟨more, hmore⟩ := order_prefix_concat layout tasks ps p
  rw [← hmore, List.getElem?_append_left (List.getElem?_eq_some_iff.1 h).1, h]

/-- Of tasks of different packages the first one outside a front is the one after it. -/
theorem firstOutside_front {front rest : List LoadTask}
    (h : ((front ++ rest).map LoadTask.key).Nodup) :
    firstOutside (front.map LoadTask.key) (front ++ rest) = rest.head? := by
  have hnone : firstOutside (front.map LoadTask.key) front = none := by
    refine List.find?_eq_none.2 fun t ht => ?_
    simpa using ⟨t, ht, rfl⟩
  rw [firstOutside_append, hnone, Option.none_or]
  cases rest with
  | nil => rfl
  | cons task rest =>
      refine firstOutside_cons_of_notMem (fun hmem => ?_) rest
      rw [List.map_append, List.nodup_append] at h
      exact h.2.2 _ hmem _ (List.mem_cons_self ..) rfl

/-- When the packages at the front of the order are known, the next one is that of the first
    task of an unknown package. -/
theorem firstOutside_mentioned
    (h : ps.map Contents.source <+: (order layout tasks ps).map LoadTask.source) :
    firstOutside (ps.map Contents.key) (mentioned layout tasks ps) =
      (order layout tasks ps)[ps.length]? := by
  have hkeys : ps.map Contents.key = ((order layout tasks ps).take ps.length).map LoadTask.key := by
    have htake := List.prefix_iff_eq_take.1 h
    rw [List.length_map, ← List.map_take] at htake
    have hfst := congrArg (List.map Prod.fst) htake
    rwa [List.map_map, List.map_map] at hfst
  have hsplit := List.take_append_drop ps.length (order layout tasks ps)
  have hnodup := nodup_firsts (mentioned layout tasks ps)
  rw [← order, ← hsplit] at hnodup
  calc firstOutside (ps.map Contents.key) (mentioned layout tasks ps)
      = firstOutside (ps.map Contents.key) (order layout tasks ps) := (firstOutside_firsts ..).symm
    _ = ((order layout tasks ps).drop ps.length).head? := by
        rw [hkeys, ← firstOutside_front hnodup, hsplit]
    _ = (order layout tasks ps)[ps.length]? := List.head?_drop

/-! ## What every turn preserves -/

/-- What holds when the contents `ps` have been adopted, in this order. -/
structure Ordered (layout : Layout) (w : Workspace) (roots : List Path) (tasks : List LoadTask)
    (ps : List Contents) (s : Progress) : Prop extends Filled layout w roots ps s where
  queued : s.roots = []
  sources : ps.map Contents.source <+: (order layout tasks ps).map LoadTask.source
  loads : ∀ i < ps.length, ∃ task more, (order layout tasks ps)[i]? = some task ∧
    loadPackage layout w (Catalog.adoptAll {} (ps.take i)) task =
      .ok (Catalog.adoptAll {} (ps.take (i + 1)), more)
  goes : s.fault = none → s.evaluated = ps.map Contents.key ∧
    SameFront (ps.map Contents.key) s.queue (mentioned layout tasks ps)
  fails : ∀ fault, s.fault = some fault → ∃ task, (order layout tasks ps)[ps.length]? = some task ∧
    loadPackage layout w (Catalog.adoptAll {} ps) task = .error fault ∧
    s.evaluated = ps.map Contents.key ++ [task.key]

namespace Ordered

/-- A task of a package that is new is the next one in the order. -/
theorem next (h : Ordered layout w roots tasks ps s) (hnone : s.fault = none)
    {rest : List LoadTask} (hqueue : s.queue = task :: rest)
    (hnew : task.key ∉ ps.map Contents.key) : (order layout tasks ps)[ps.length]? = some task := by
  rw [← firstOutside_mentioned h.sources, ← (h.goes hnone).2 _ (List.Subset.refl _), hqueue]
  exact firstOutside_cons_of_notMem hnew rest

/-- Skipping the task of a package that is adopted, or skipping after a fault. -/
theorem skip (h : Ordered layout w roots tasks ps s) {rest : List LoadTask}
    (hqueue : s.queue = task :: rest) (hskip : s.fault = none → task.key ∈ ps.map Contents.key) :
    Ordered layout w roots tasks ps { s with queue := rest } where
  toFilled := filled_skip h.toFilled (show s.queue = [] ++ task :: rest from hqueue) hskip
  queued := h.queued
  sources := h.sources
  loads := h.loads
  goes := by
    intro hnone
    obtain ⟨heval, hfront⟩ := h.goes hnone
    rw [hqueue] at hfront
    exact ⟨heval, hfront.of_cons (hskip hnone)⟩
  fails := h.fails

/-- A task that fails is the next one in the order, and the last that is run. -/
theorem fail (h : Ordered layout w roots tasks ps s) (hnone : s.fault = none)
    {rest : List LoadTask} (hqueue : s.queue = task :: rest)
    (hnew : task.key ∉ ps.map Contents.key) {fault : Fault}
    (herr : loadPackage layout w s.catalog task = .error fault) :
    Ordered layout w roots tasks ps { s with
      queue := rest, evaluated := s.evaluated ++ [task.key], fault := some fault } where
  toFilled := filled_skip (filled_fail h.toFilled fault _)
    (show s.queue = [] ++ task :: rest from hqueue)
    fun hnone' => absurd hnone' (Option.some_ne_none _)
  queued := h.queued
  sources := h.sources
  loads := h.loads
  goes hnone' := absurd hnone' (Option.some_ne_none _)
  fails := by
    rintro _ ⟨⟩
    rw [h.catalog] at herr
    exact ⟨task, h.next hnone hqueue hnew, herr, by rw [(h.goes hnone).1]⟩

/-- A task that succeeds is the next one in the order, and its package mentions what comes
    after all that has been mentioned before. -/
theorem adopt (h : Ordered layout w roots tasks ps s) (hnone : s.fault = none)
    {rest more : List LoadTask} (hqueue : s.queue = task :: rest) (hkey : p.key = task.key)
    (hfile : p.file = task.file) (hp : p.Sound w) (hnew : task.key ∉ ps.map Contents.key)
    (hcov : ∀ target ∈ p.targets,
      (s.catalog.adopt p).contains target = true ∨ ∃ t ∈ more, t.key = target)
    (hmore : ∀ t ∈ more, t.key ∈ p.targets ∧ layout.fileOf? t.key = some t.file)
    (hok : loadPackage layout w s.catalog task = .ok (s.catalog.adopt p, more)) :
    Ordered layout w roots tasks (ps ++ [p]) { s with
      queue := rest ++ more
      catalog := s.catalog.adopt p
      evaluated := s.evaluated ++ [task.key] } where
  toFilled := filled_adopt h.toFilled hnone (show s.queue = [] ++ task :: rest from hqueue)
    hkey hfile hp hnew hcov hmore
  queued := h.queued
  sources := by
    have hnext := h.next hnone hqueue hnew
    have hfront := List.prefix_iff_eq_take.1 h.sources
    have hsource : p.source = task.source := by rw [Contents.source, LoadTask.source, hkey, hfile]
    refine List.IsPrefix.trans ?_ ((order_prefix_concat layout tasks ps p).map LoadTask.source)
    refine List.prefix_iff_eq_take.2 ?_
    rw [List.length_map, List.length_append, List.length_singleton, List.take_add_one,
      List.getElem?_map, hnext, List.map_append, hfront, List.length_map, List.map_singleton,
      hsource]
    rfl
  loads := by
    intro i hi
    rw [List.length_append, List.length_singleton] at hi
    rcases Nat.lt_succ_iff_lt_or_eq.1 hi with hi | rfl
    · obtain ⟨t, more', ht, hload⟩ := h.loads i hi
      rw [List.take_append_of_le_length hi.le, List.take_append_of_le_length hi]
      exact ⟨t, more', getElem?_order_concat ht, hload⟩
    · rw [h.catalog, ← Catalog.adoptAll_concat] at hok
      rw [List.take_left, List.take_of_length_le (by simp)]
      exact ⟨task, more, getElem?_order_concat (h.next hnone hqueue hnew), hok⟩
  goes := by
    intro _
    obtain ⟨heval, hfront⟩ := h.goes hnone
    have hsub : ps.map Contents.key ⊆ (ps ++ [p]).map Contents.key := fun key hmem =>
      mem_keys_concat.2 (.inl hmem)
    refine ⟨by rw [heval, List.map_append, List.map_singleton, hkey], ?_⟩
    -- the rest of the queue matches what was mentioned before, and the new tasks what `p` mentions
    rw [mentioned_concat]
    rw [hqueue] at hfront
    refine ((hfront.mono hsub).of_cons (mem_keys_concat.2 (.inr hkey.symm))).append ?_
    refine sameFront_loadPackage ?_ hkey hfile hp (fun key hmem => ?_) hok
    · rw [← Bool.not_eq_true, h.contains_iff]
      exact hnew
    · rw [Catalog.contains_adopt, h.contains_iff] at hmem
      exact mem_keys_concat.2 (hmem.symm.imp_right Eq.symm)
  fails fault hfault := by
    rw [show s.fault = some fault from hfault] at hnone
    cases hnone

/-- Every turn preserves what holds of the contents that have been adopted. -/
theorem turn (h : Ordered layout w roots tasks ps s) (hturn : Turn layout w s t) :
    ∃ qs, Ordered layout w roots tasks qs t := by
  cases hturn with
  | @take task rest hqueue =>
      -- skipped, adopted, or at fault
      rcases perform_cases layout w { s with queue := rest } task with
        ⟨heq, hknown⟩ | ⟨hnone, hnew, p, more, hkey, hfile, hp, hcov, hmore, hok, heq⟩ |
          ⟨hnone, hnew, fault, -, herr, heq⟩
      · rw [heq]
        exact ⟨ps, h.skip hqueue fun hnone => h.contains_iff.1 (hknown hnone)⟩
      · rw [heq]
        exact ⟨ps ++ [p], h.adopt hnone hqueue hkey hfile hp (h.notMem_keys hnew) hcov hmore hok⟩
      · rw [heq]
        exact ⟨ps, h.fail hnone hqueue (h.notMem_keys hnew) herr⟩

/-- No package is evaluated twice. -/
theorem nodup_evaluated (h : Ordered layout w roots tasks ps s) : s.evaluated.Nodup := by
  cases hfault : s.fault with
  | none =>
      rw [(h.goes hfault).1]
      exact h.nodup
  | some fault =>
      obtain ⟨task, hnext, -, heval⟩ := h.fails fault hfault
      rw [heval]
      refine List.nodup_append_comm.2 (List.nodup_cons.2 ⟨fun hmem => ?_, h.nodup⟩)
      -- the task that failed is not in the front, since it is outside of it
      rw [← firstOutside_mentioned h.sources] at hnext
      have hout := List.find?_some hnext
      exact absurd hmem (of_decide_eq_true hout)

/-- When nothing waits and nothing failed, all packages of the order have been adopted. -/
theorem sources_eq (h : Ordered layout w roots tasks ps s) (hnone : s.fault = none)
    (hdone : s.Complete) :
    ps.map Contents.source = (order layout tasks ps).map LoadTask.source := by
  -- nothing waits, so no package that was mentioned is unknown
  refine h.sources.eq_of_length_le ?_
  have hfront := (h.goes hnone).2 _ (List.Subset.refl _)
  rw [hdone.2, firstOutside_mentioned h.sources] at hfront
  rw [List.length_map, List.length_map]
  exact List.getElem?_eq_none_iff.1 hfront.symm

end Ordered

/-- Nothing is adopted before the first turn. -/
theorem ordered_start (htasks : roots.mapM (rootTask layout) = .ok tasks) :
    Ordered layout w roots tasks [] { roots := [], queue := tasks } := by
  have hqueued : Reachable layout w roots { roots := [], queue := tasks } := steps_roots htasks []
  obtain ⟨ps, h⟩ := filled_reachable hqueued
  have hlen : ps.length = 0 := by
    have hcatalog := Catalog.length_packages_adoptAll (c := {}) ps
    rw [← h.catalog] at hcatalog
    exact (Nat.zero_add _).symm.trans hcatalog.symm
  obtain rfl := List.length_eq_zero_iff.1 hlen
  exact {
    toFilled := h
    queued := rfl
    sources := List.nil_prefix
    loads := fun i hi => absurd hi (Nat.not_lt_zero i)
    goes := fun _ => ⟨rfl, by rw [mentioned, List.flatMap_nil, List.append_nil]; exact .refl _ _⟩
    fails := fun _ hfault => absurd hfault.symm (Option.some_ne_none _) }

/-- All turns preserve what holds of the contents that have been adopted. -/
theorem ordered_turns (htasks : roots.mapM (rootTask layout) = .ok tasks)
    (h : Turns layout w { roots := [], queue := tasks } s) :
    ∃ ps, Ordered layout w roots tasks ps s := by
  induction h with
  | refl => exact ⟨[], ordered_start htasks⟩
  | tail _ hturn ih =>
      obtain ⟨ps, hps⟩ := ih
      exact hps.turn hturn

/-! ## Room on a disk -/

/-- There is room for the packages of a disk: they are those of root files and those that are
    found by their keys. -/
theorem length_le_nodes_add_roots {d : Disk} {sources : List (String × Path)}
    (hnodup : (sources.map Prod.fst).Nodup) (hslash : '/' ∉ layout.buildFile.toList)
    (h : ∀ e ∈ sources, Package.Key.Formed e.1 ∧ StandsFor layout roots e.1 e.2 ∧
      ∃ calls, d.evaluate e.2 = .ok calls) :
    sources.length ≤ 5 * d.tree.nodes.length + roots.length := by
  have hfound : ((sources.filter fun e => layout.fileOf? e.1 = some e.2).map Prod.fst).length ≤
      5 * d.tree.nodes.length := by
    refine Disk.length_le_nodes (hnodup.sublist (List.filter_sublist.map _)) hslash ?_
    intro key hkey
    obtain ⟨e, he, rfl⟩ := List.mem_map.1 hkey
    obtain ⟨he, hfile⟩ := List.mem_filter.1 he
    obtain ⟨hformed, -, calls, hcalls⟩ := h e he
    exact ⟨hformed, e.2, calls, of_decide_eq_true hfile, hcalls⟩
  have hsub : (sources.filter fun e => !decide (layout.fileOf? e.1 = some e.2)).map Prod.fst ⊆
      roots.filterMap fun root => (layout.packageOf root).toOption.map Prod.fst := by
    intro key hkey
    obtain ⟨e, he, rfl⟩ := List.mem_map.1 hkey
    obtain ⟨he, hfile⟩ := List.mem_filter.1 he
    obtain ⟨root, hroot, hpackage⟩ := (h e he).2.1.resolve_right (by simpa using hfile)
    exact List.mem_filterMap.2 ⟨root, hroot, by rw [hpackage]; rfl⟩
  have hsubperm := List.subperm_of_subset (hnodup.sublist (List.filter_sublist.map _)) hsub
  have hroot := hsubperm.length_le.trans (List.length_filterMap_le _ roots)
  rw [List.length_map] at hfound hroot
  have hsplit := List.length_eq_length_filter_add (l := sources)
    fun e => decide (layout.fileOf? e.1 = some e.2)
  omega

/-- There is room on a disk for what is adopted. -/
theorem Filled.length_le_nodes {d : Disk} (h : Filled layout d.workspace roots ps s)
    (hslash : '/' ∉ layout.buildFile.toList) :
    ps.length ≤ 5 * d.tree.nodes.length + roots.length := by
  have hnodup : ((ps.map Contents.source).map Prod.fst).Nodup := by
    rw [List.map_map]
    exact h.nodup
  have hroom := length_le_nodes_add_roots (d := d) hnodup hslash fun e he => by
    obtain ⟨p, hp, rfl⟩ := List.mem_map.1 he
    obtain ⟨calls, hcalls, -⟩ := (h.sound p hp).calls
    exact ⟨h.formed p hp, h.files p hp, calls, hcalls⟩
  rwa [List.length_map] at hroom

/-- On a disk the turns of `load` lead to their end. -/
theorem exists_turns_load {d : Disk} (htasks : roots.mapM (rootTask layout) = .ok tasks)
    (hslash : '/' ∉ layout.buildFile.toList) :
    ∃ s, Turns layout d.workspace { roots := [], queue := tasks } s ∧ s.Complete ∧
      s.outcome = load layout d.workspace roots := by
  rcases turns_load htasks with hrun | ⟨t, ht, hmore⟩
  · exact hrun
  · -- a run that has used up the fuel would have adopted more packages than the disk has
    obtain ⟨ps, h⟩ := ordered_turns htasks ht
    have hroom := h.length_le_nodes hslash
    rw [← length_of_mapM htasks] at hroom
    have hlen := hmore.evaluated
    rw [(h.goes hmore.fault).1, List.length_map] at hlen
    have hcapacity : d.workspace.capacity = 5 * (d.tree.nodes.length + 1) := rfl
    omega

/-! ## Breadth first -/

/-- Whether a run of turns has gone through the packages in the order of first mentions, as far
    as the contents `ps`. -/
structure InOrder (layout : Layout) (w : Workspace) (tasks : List LoadTask) (ps : List Contents)
    (s : Progress) : Prop where
  /-- The contents are those at the front of the order, from the files that were mentioned. -/
  sources : ps.map Contents.source <+: (order layout tasks ps).map LoadTask.source
  /-- Each of them was loaded into what those before it had given. -/
  loads : ∀ i < ps.length, ∃ task more, (order layout tasks ps)[i]? = some task ∧
    loadPackage layout w (Catalog.adoptAll {} (ps.take i)) task =
      .ok (Catalog.adoptAll {} (ps.take (i + 1)), more)
  sound : ∀ p ∈ ps, p.Sound w
  once : s.evaluated.Nodup
  /-- Without a fault, they and no others were evaluated, and their rules are numbered one after
      the other.  At the end they are the whole order. -/
  goes : s.fault = none → s.evaluated = ps.map Contents.key ∧
    s.catalog = Catalog.adoptAll {} ps ∧ s.catalog.rules = Contents.numbered ps 0 ∧
    (s.Complete → ps.map Contents.source = (order layout tasks ps).map LoadTask.source)
  /-- A fault is that of the next package in the order, after which none was evaluated. -/
  fails : ∀ fault, s.fault = some fault → ∃ task, (order layout tasks ps)[ps.length]? = some task ∧
    loadPackage layout w (Catalog.adoptAll {} ps) task = .error fault ∧
    s.evaluated = ps.map Contents.key ++ [task.key]

theorem Ordered.inOrder (h : Ordered layout w roots tasks ps s) : InOrder layout w tasks ps s where
  sources := h.sources
  loads := h.loads
  sound := h.sound
  once := h.nodup_evaluated
  goes hnone := by
    refine ⟨(h.goes hnone).1, h.catalog, ?_, h.sources_eq hnone⟩
    rw [h.catalog, Catalog.rules_adoptAll]
    exact List.nil_append _
  fails := h.fails

/-- One worker that takes the tasks first in, first out goes through the packages in the order
    in which they are mentioned first, each once, and up to the first that fails.  This is how
    `load` goes, if there is room for the packages; and on a disk there is. -/
theorem load_breadth_first (layout : Layout) (w : Workspace) (roots : List Path)
    (tasks : List LoadTask) (htasks : roots.mapM (rootTask layout) = .ok tasks) :
    (∀ s, Turns layout w { roots := [], queue := tasks } s →
      Reachable layout w roots s ∧ ∃ ps, InOrder layout w tasks ps s) ∧
    (∀ s, Turns layout w { roots := [], queue := tasks } s → s.Complete →
      s.evaluated.length ≤ w.capacity + tasks.length → load layout w roots = s.outcome) ∧
    (∀ d : Disk, w = d.workspace → '/' ∉ layout.buildFile.toList →
      ∃ s, Turns layout w { roots := [], queue := tasks } s ∧ s.Complete ∧
        s.outcome = load layout w roots) := by
  refine ⟨fun s hs => ?_, fun s hs hdone hroom => ?_, fun d hd hslash => ?_⟩
  · obtain ⟨ps, h⟩ := ordered_turns htasks hs
    exact ⟨reachable_of_turns htasks hs, ps, h.inOrder⟩
  · rcases turns_load htasks with ⟨t, ht, hdone', hout⟩ | ⟨t, ht, hmore⟩
    · rw [← hout, eq_of_turns (turns_to_complete ht hs hdone) hdone']
    · exact absurd (hmore.lt_of_turns (turns_to_complete ht hs hdone) hdone) (not_lt.2 hroom)
  · subst hd
    exact exists_turns_load htasks hslash

/-- The two packages are loaded one after the other. -/
theorem twoPackages_in_order :
    [(⟨"BUILD"⟩ : Path)].mapM (rootTask plainLayout) = .ok [⟨"", ⟨"/proj/BUILD"⟩, none⟩] ∧
    ∃ c, load plainLayout twoPackages [⟨"BUILD"⟩] = .ok c ∧
      c.rules = [⟨0, "", library "app" ["//lib:base"]⟩, ⟨1, "lib", library "base" []⟩] := by
  have htasks : [(⟨"BUILD"⟩ : Path)].mapM (rootTask plainLayout) =
      .ok [⟨"", ⟨"/proj/BUILD"⟩, none⟩] := rfl
  have hturns : Turns plainLayout twoPackages
      { roots := [], queue := [⟨"", ⟨"/proj/BUILD"⟩, none⟩] } _ :=
    .tail (.tail .refl (.take rfl)) (.take rfl)
  have hload := (load_breadth_first _ _ _ _ htasks).2.1 _ hturns ⟨rfl, rfl⟩ (by decide)
  exact ⟨htasks, _, hload, rfl⟩

end Loading

end Buildwright
