import Buildwright.Proofs.Loading.Order
import Buildwright.Proofs.Loading.Pooled

/-! # Loading in steps is loading on a pool

    A task that runs on its own, errand by errand, does to the catalog what
    `Loading.loadPackage` does at once, and schedules the same tasks.  So a run of loading
    that takes whole tasks in any order is a run on a pool that is not stopped, and it comes
    to the same end.

    * `Leads` — what steps of a pool lead to, task by task;
    * `leads_load` — a task from its start to its end;
    * `Matches`, `matches_step` — runs that take whole tasks;
    * `no_task_lost` — the count of the tasks, and what follows from it. -/

namespace Buildwright

/-- Following a dependency adds tasks behind those that a package has made before. -/
theorem PackageRun.follow_cases (run : PackageRun) (layout : Layout) (key : String) (id : RuleId)
    (raw : String) :
    (∃ seen more, run.follow layout key id raw =
        .ok { run with seen, tasks := run.tasks ++ more } ∧
      follow layout key id raw { catalog := run.catalog, seen := run.seen } =
        .ok { catalog := run.catalog, seen, tasks := more }) ∨
    (∃ fault, run.follow layout key id raw = .error fault ∧
      follow layout key id raw { catalog := run.catalog, seen := run.seen } = .error fault) := by
  rw [follow, follow]
  cases hparse : Reference.parse raw with
  | error fault => exact .inr ⟨fault, rfl, rfl⟩
  | ok reference =>
      simp only [bind, Except.bind]
      by_cases hself : reference.position = .this ∨ reference.resolve key = key
      · rw [if_pos hself, if_pos hself]
        exact .inl ⟨run.seen, [], by rw [List.append_nil]; rfl, rfl⟩
      -- what was referred to before does not depend on the tasks made of it
      rw [if_neg hself, if_neg hself, refer, refer]
      by_cases hseen : reference.resolve key ∈ run.seen
      · rw [if_pos hseen, if_pos hseen]
        exact .inl ⟨run.seen, [], by rw [List.append_nil], rfl⟩
      rw [if_neg hseen, if_neg hseen]
      by_cases hknown : run.catalog.contains (reference.resolve key) = true
      · rw [if_pos hknown, if_pos hknown]
        exact .inl ⟨_, [], by rw [List.append_nil], rfl⟩
      rw [if_neg hknown, if_neg hknown]
      cases hfile : layout.fileOf? (reference.resolve key) with
      | none => exact .inr ⟨_, rfl, rfl⟩
      | some file => exact .inl ⟨_, _, rfl, rfl⟩

/-- A package that has just been entered is new, and beginning it enters it no second time. -/
theorem Catalog.begin_visit {c : Catalog} {key : String} (h : c.contains key = false)
    (file : Path) :
    (c.visit key).isFresh key = true ∧ (c.visit key).begin key file = c.begin key file := by
  have hvisit : c.visit key = { c with packages := insertPackage { key } c.packages } := by
    rw [visit, if_neg (by rw [h]; exact Bool.false_ne_true)]
  constructor
  · have hfound := find?_insertPackage_self (q := { key }) (not_contains_iff.1 h)
    rw [isFresh, package?, hvisit]
    simp only [hfound]
    rfl
  · have hknown : (c.visit key).contains key = true := by
      rw [hvisit, contains_iff]
      exact ⟨_, mem_insertPackage.2 (.inl rfl), rfl⟩
    rw [begin, visit_of_contains hknown, begin]

namespace Loading

variable {layout : Layout} {w : Workspace} {roots : List Path} {task : LoadTask}

/-! ## What steps lead to -/

/-- The steps on a pool one after the other. -/
abbrev Pooled.Steps (layout : Layout) (w : Workspace) : Pooled → Pooled → Prop :=
  Relation.ReflTransGen (Pooled.Step layout w)

/-- Whether loading is under way, with this to work on and these tasks. -/
structure UnderWay (c : Shared) (roots : List Path) (tickets : List Ticket) (s : Pooled) :
    Prop where
  shared : s.toShared = c
  roots : s.roots = roots
  stopped : s.stopped = false
  result : s.result = none
  tickets : s.tickets = tickets

/-- Whether steps lead from one such state to another. -/
def Leads (layout : Layout) (w : Workspace) (roots : List Path) (c : Shared)
    (tickets : List Ticket) (c' : Shared) (tickets' : List Ticket) : Prop :=
  ∀ s, UnderWay c roots tickets s →
    ∃ t, Pooled.Steps layout w s t ∧ UnderWay c' roots tickets' t

/-- Tasks that wait. -/
def queuedTickets (tasks : List LoadTask) : List Ticket :=
  tasks.map fun task => ⟨task, .queued⟩

section
variable {c c' c'' : Shared} {ts ts' ts'' front back : List Ticket} {stage : Stage}
  {errand : Errand} {more : List LoadTask}

theorem Leads.refl (c : Shared) (ts : List Ticket) : Leads layout w roots c ts c ts :=
  fun s h => ⟨s, .refl, h⟩

theorem Leads.trans (h : Leads layout w roots c ts c' ts')
    (h' : Leads layout w roots c' ts' c'' ts'') : Leads layout w roots c ts c'' ts'' := by
  intro s hs
  obtain ⟨t, hst, ht⟩ := h s hs
  obtain ⟨u, htu, hu⟩ := h' t ht
  exact ⟨u, hst.trans htu, hu⟩

/-- A pool that is not stopped queues what is scheduled. -/
theorem UnderWay.scheduleAll {s : Pooled} (h : UnderWay c roots ts s) (admitted : Bool)
    (more : List LoadTask) :
    UnderWay c roots (ts ++ queuedTickets more) (s.scheduleAll admitted more) := by
  induction more generalizing s ts with
  | nil =>
      rw [queuedTickets, List.map_nil, List.append_nil]
      exact h
  | cons task rest ih =>
      have hone : UnderWay c roots (ts ++ [⟨task, .queued⟩]) (s.schedule admitted task) := by
        refine ⟨h.shared, h.roots, h.stopped, h.result, ?_⟩
        rw [Pooled.schedule, h.stopped, h.tickets]
        rfl
      rw [queuedTickets, List.map_cons, List.append_cons]
      exact ih hone

theorem leads_take :
    Leads layout w roots c (front ++ ⟨task, .queued⟩ :: back) c
      (front ++ ⟨task, .running .start⟩ :: back) :=
  fun _ hs => ⟨_, .single (.take hs.tickets hs.stopped),
    hs.shared, hs.roots, hs.stopped, hs.result, rfl⟩

theorem leads_advance (h : errand.next layout w task c = (c', stage, more)) :
    Leads layout w roots c (front ++ ⟨task, .running errand⟩ :: back) c'
      (front ++ ⟨task, stage⟩ :: (back ++ queuedTickets more)) := by
  intro s hs
  refine ⟨_, .single (.advance true hs.tickets), ?_⟩
  rw [hs.shared, h, ← List.cons_append, ← List.append_assoc]
  have hready : UnderWay c' roots (front ++ ⟨task, stage⟩ :: back)
      { s with toShared := c', tickets := front ++ ⟨task, stage⟩ :: back } :=
    ⟨rfl, hs.roots, hs.stopped, hs.result, rfl⟩
  exact hready.scheduleAll true more

theorem leads_mark : Leads layout w roots c (front ++ ⟨task, .broken⟩ :: back)
    { c with cancelled := true } (front ++ ⟨task, .marked⟩ :: back) :=
  fun _ hs => ⟨_, .single (.drop (.mark hs.tickets)),
    by rw [← hs.shared], hs.roots, hs.stopped, hs.result, rfl⟩

theorem leads_record : Leads layout w roots c (front ++ ⟨task, .marked⟩ :: back)
    (c.record (incomplete task.key)) (front ++ ⟨task, .leaving false⟩ :: back) :=
  fun _ hs => ⟨_, .single (.drop (.record hs.tickets)),
    by rw [← hs.shared], hs.roots, hs.stopped, hs.result, rfl⟩

theorem leads_release {completed : Bool} :
    Leads layout w roots c (front ++ ⟨task, .leaving completed⟩ :: back) c
      (front ++ ⟨task, .returned completed⟩ :: back) :=
  fun _ hs => ⟨_, .single (.drop (.release hs.tickets)),
    hs.shared, hs.roots, hs.stopped, hs.result, rfl⟩

theorem queuedTickets_nil : queuedTickets [] = [] :=
  rfl

theorem append_queuedTickets (back : List Ticket) (more more' : List LoadTask) :
    back ++ queuedTickets more ++ queuedTickets more' = back ++ queuedTickets (more ++ more') := by
  rw [queuedTickets, queuedTickets, queuedTickets, List.map_append, List.append_assoc]

/-- An errand that schedules nothing. -/
theorem leads_errand (h : errand.next layout w task c = (c', stage, [])) :
    Leads layout w roots c (front ++ ⟨task, .running errand⟩ :: back) c'
      (front ++ ⟨task, stage⟩ :: back) := by
  have hleads : Leads layout w roots c (front ++ ⟨task, .running errand⟩ :: back) c'
      (front ++ ⟨task, stage⟩ :: (back ++ queuedTickets [])) := leads_advance h
  rwa [queuedTickets_nil, List.append_nil] at hleads

/-! ## A task from its start to its end -/

/-- Following the dependencies of a rule, or as many as there are before a fault. -/
theorem leads_follow (id : RuleId) (deps : List String) (calls : List Call) (run : PackageRun)
    (back : List Ticket) :
    (∃ run' more, deps.foldlM (fun run raw => run.follow layout task.key id raw) run = .ok run' ∧
      run'.catalog = run.catalog ∧ run'.tasks = run.tasks ++ more ∧
      Leads layout w roots { catalog := run.catalog }
        (front ++ ⟨task, .running (.follow id deps calls run.seen)⟩ :: back)
        { catalog := run.catalog }
        (front ++ ⟨task, .running (.declare calls run'.seen)⟩ :: (back ++ queuedTickets more))) ∨
    (∃ fault more, deps.foldlM (fun run raw => run.follow layout task.key id raw) run =
        .error fault ∧
      Leads layout w roots { catalog := run.catalog }
        (front ++ ⟨task, .running (.follow id deps calls run.seen)⟩ :: back)
        { catalog := run.catalog }
        (front ++ ⟨task, .running (.cancel (blame task.referrer fault))⟩ ::
          (back ++ queuedTickets more))) := by
  induction deps generalizing run back with
  | nil =>
      refine .inl ⟨run, [], rfl, rfl, (List.append_nil _).symm, ?_⟩
      rw [queuedTickets_nil, List.append_nil]
      exact leads_errand rfl
  | cons raw rest ih =>
      rw [List.foldlM_cons]
      rcases run.follow_cases layout task.key id raw with
        ⟨seen, made, hok, halone⟩ | ⟨fault, herr, halone⟩
      · have hfirst : Leads layout w roots { catalog := run.catalog }
            (front ++ ⟨task, .running (.follow id (raw :: rest) calls run.seen)⟩ :: back)
            { catalog := run.catalog }
            (front ++ ⟨task, .running (.follow id rest calls seen)⟩ ::
              (back ++ queuedTickets made)) := by
          refine leads_advance ?_
          rw [Errand.next]
          simp only [halone]
        rw [hok]
        rcases ih { run with seen, tasks := run.tasks ++ made } (back ++ queuedTickets made) with
          ⟨run', more, hok', hcatalog, htasks, hrest⟩ | ⟨fault, more, herr, hrest⟩
        · refine .inl ⟨run', made ++ more, hok', hcatalog, ?_, ?_⟩
          · rw [htasks, List.append_assoc]
          · rw [← append_queuedTickets]
            exact hfirst.trans hrest
        · refine .inr ⟨fault, made ++ more, herr, ?_⟩
          rw [← append_queuedTickets]
          exact hfirst.trans hrest
      · rw [herr]
        refine .inr ⟨fault, [], rfl, ?_⟩
        rw [queuedTickets_nil, List.append_nil]
        refine leads_errand ?_
        rw [Errand.next]
        simp only [halone]

/-- Adding the rules of calls, or of as many as there are before a fault. -/
theorem leads_declare (calls : List Call) (run : PackageRun) (back : List Ticket) :
    (∃ run' more, calls.foldlM (PackageRun.addCall layout task.key task.file) run = .ok run' ∧
      run'.tasks = run.tasks ++ more ∧
      Leads layout w roots { catalog := run.catalog }
        (front ++ ⟨task, .running (.declare calls run.seen)⟩ :: back)
        { catalog := run'.catalog.finish task.key }
        (front ++ ⟨task, .leaving true⟩ :: (back ++ queuedTickets more))) ∨
    (∃ fault more catalog, calls.foldlM (PackageRun.addCall layout task.key task.file) run =
        .error fault ∧
      Leads layout w roots { catalog := run.catalog }
        (front ++ ⟨task, .running (.declare calls run.seen)⟩ :: back)
        { catalog }
        (front ++ ⟨task, .running (.cancel (blame task.referrer fault))⟩ ::
          (back ++ queuedTickets more))) := by
  induction calls generalizing run back with
  | nil =>
      refine .inl ⟨run, [], rfl, (List.append_nil _).symm, ?_⟩
      rw [queuedTickets_nil, List.append_nil]
      exact leads_errand rfl
  | cons call rest ih =>
      rw [List.foldlM_cons, PackageRun.addCall]
      cases hd : Declaration.ofCall call task.file with
      | error fault =>
          refine .inr ⟨fault, [], run.catalog, rfl, ?_⟩
          rw [queuedTickets_nil, List.append_nil]
          refine leads_errand ?_
          rw [Errand.next]
          simp only [hd]
      | ok d =>
          cases hadd : run.catalog.addRule task.key d with
          | error fault =>
              refine .inr ⟨fault, [], run.catalog, ?_, ?_⟩
              · simp only [bind, Except.bind, hadd]
              · rw [queuedTickets_nil, List.append_nil]
                refine leads_errand ?_
                rw [Errand.next]
                simp only [hd, hadd]
          | ok added =>
              -- the rule is added, and its dependencies are followed before the next call
              have hadded : Leads layout w roots { catalog := run.catalog }
                  (front ++ ⟨task, .running (.declare (call :: rest) run.seen)⟩ :: back)
                  { catalog := added.2 }
                  (front ++ ⟨task, .running (.follow added.1 d.deps rest run.seen)⟩ :: back) := by
                refine leads_errand ?_
                rw [Errand.next]
                simp only [hd, hadd]
              simp only [bind, Except.bind, hadd]
              rcases @leads_follow layout w roots task front added.1 d.deps rest
                { run with catalog := added.2 } back with
                ⟨run₁, made, hok, hcatalog, htasks, hfollow⟩ | ⟨fault, more, herr, hfollow⟩
              · simp only [hok]
                rw [show added.2 = run₁.catalog from hcatalog.symm] at hadded hfollow
                rcases ih run₁ (back ++ queuedTickets made) with
                  ⟨run₂, more, hok₂, htasks₂, hrest⟩ | ⟨fault, more, catalog, herr, hrest⟩
                · refine .inl ⟨run₂, made ++ more, hok₂, ?_, ?_⟩
                  · rw [htasks₂, htasks, List.append_assoc]
                  · rw [← append_queuedTickets]
                    exact (hadded.trans hfollow).trans hrest
                · refine .inr ⟨fault, made ++ more, catalog, herr, ?_⟩
                  rw [← append_queuedTickets]
                  exact (hadded.trans hfollow).trans hrest
              · simp only [herr]
                exact .inr ⟨fault, more, added.2, rfl, hadded.trans hfollow⟩

/-- A task that is kept from starting, or whose package is there, ends at once. -/
theorem leads_skip (h : c.cancelled = true ∨ c.catalog.contains task.key = true) :
    Leads layout w roots c (front ++ ⟨task, .queued⟩ :: back) c
      (front ++ ⟨task, .returned true⟩ :: back) := by
  refine leads_take.trans (Leads.trans ?_ leads_release)
  cases hcancelled : c.cancelled with
  | true =>
      have hstart : Errand.start.next layout w task c = (c, .leaving true, []) := by
        rw [Errand.next, hcancelled, if_pos rfl]
      exact leads_errand hstart
  | false =>
      have hknown := h.resolve_left (by rw [hcancelled]; exact Bool.false_ne_true)
      have hstart : Errand.start.next layout w task c = (c, .running .visit, []) := by
        rw [Errand.next, hcancelled, if_neg Bool.false_ne_true]
      have hvisit : Errand.visit.next layout w task c = (c, .leaving true, []) := by
        rw [Errand.next, if_pos hknown]
      exact (leads_errand hstart).trans (leads_errand hvisit)

section
variable {catalog : Catalog}

/-- A task whose package is new begins it. -/
theorem leads_begin (hnew : catalog.contains task.key = false) :
    Leads layout w roots { catalog } (front ++ ⟨task, .queued⟩ :: back)
      { catalog := catalog.begin task.key task.file }
      (front ++ ⟨task, .running .evaluate⟩ :: back) := by
  obtain ⟨hfresh, hbegin⟩ := Catalog.begin_visit hnew task.file
  have hstart : Errand.start.next layout w task { catalog } = ({ catalog }, .running .visit, []) :=
    rfl
  have hvisit : Errand.visit.next layout w task { catalog } =
      ({ catalog := catalog.visit task.key }, .running .begin, []) := by
    rw [Errand.next]
    exact if_neg (by rw [hnew]; exact Bool.false_ne_true)
  have hbegun : Errand.begin.next layout w task { catalog := catalog.visit task.key } =
      ({ catalog := catalog.begin task.key task.file }, .running .evaluate, []) := by
    rw [Errand.next, ← hbegin]
    exact if_pos hfresh
  exact leads_take.trans ((leads_errand hstart).trans ((leads_errand hvisit).trans
    (leads_errand hbegun)))

/-- A fault is recorded by its task. -/
theorem leads_cancel (fault : Fault) :
    Leads layout w roots { catalog } (front ++ ⟨task, .running (.cancel fault)⟩ :: back)
      { catalog, cancelled := true, fault := some fault }
      (front ++ ⟨task, .returned true⟩ :: back) := by
  have hcancel : (Errand.cancel fault).next layout w task { catalog } =
      ({ catalog, cancelled := true }, .running (.record fault), []) := rfl
  have hrecord : (Errand.record fault).next layout w task { catalog, cancelled := true } =
      ({ catalog, cancelled := true, fault := some fault }, .leaving true, []) := rfl
  exact (leads_errand hcancel).trans ((leads_errand hrecord).trans leads_release)

/-- A task that breaks off is made a fault by whoever drops it. -/
theorem leads_broken :
    Leads layout w roots { catalog } (front ++ ⟨task, .broken⟩ :: back)
      { catalog, cancelled := true, fault := some (incomplete task.key) }
      (front ++ ⟨task, .returned false⟩ :: back) :=
  leads_mark.trans (leads_record.trans leads_release)

/-- A task whose package is new, from its start to its end. -/
theorem leads_load (hnew : catalog.contains task.key = false) (front back : List Ticket) :
    (∃ catalog' more, loadPackage layout w catalog task = .ok (catalog', more) ∧
      Leads layout w roots { catalog } (front ++ ⟨task, .queued⟩ :: back) { catalog := catalog' }
        (front ++ ⟨task, .returned true⟩ :: (back ++ queuedTickets more))) ∨
    (∃ fault more catalog' completed, loadPackage layout w catalog task = .error fault ∧
      Leads layout w roots { catalog } (front ++ ⟨task, .queued⟩ :: back)
        { catalog := catalog', cancelled := true, fault := some fault }
        (front ++ ⟨task, .returned completed⟩ :: (back ++ queuedTickets more))) := by
  have hbegun := @leads_begin layout w roots task front back catalog hnew
  rw [loadPackage]
  cases heval : w.evaluate task.file with
  | error failure =>
      cases failure with
      | panicked message =>
          have hbreak : Errand.evaluate.next layout w task
              { catalog := catalog.begin task.key task.file } =
              ({ catalog := catalog.begin task.key task.file }, .broken, []) := by
            rw [Errand.next]
            simp only [heval]
          refine .inr ⟨_, [], catalog.begin task.key task.file, false, rfl, ?_⟩
          rw [queuedTickets_nil, List.append_nil]
          exact hbegun.trans ((leads_errand hbreak).trans leads_broken)
      | fault fault =>
          have hfail : Errand.evaluate.next layout w task
              { catalog := catalog.begin task.key task.file } =
              ({ catalog := catalog.begin task.key task.file },
                .running (.cancel (blame task.referrer fault)), []) := by
            rw [Errand.next]
            simp only [heval]
          refine .inr ⟨_, [], catalog.begin task.key task.file, true, rfl, ?_⟩
          rw [queuedTickets_nil, List.append_nil]
          exact hbegun.trans ((leads_errand hfail).trans (leads_cancel _))
  | ok calls =>
      have hread : Errand.evaluate.next layout w task
          { catalog := catalog.begin task.key task.file } =
          ({ catalog := catalog.begin task.key task.file }, .running (.declare calls []), []) := by
        rw [Errand.next]
        simp only [heval]
      have hstart := hbegun.trans (leads_errand hread)
      rcases @leads_declare layout w roots task front calls
        { catalog := catalog.begin task.key task.file } back with
        ⟨run, more, hok, htasks, hleads⟩ | ⟨fault, more, catalog', herr, hleads⟩
      · refine .inl ⟨run.catalog.finish task.key, run.tasks, by simp only [hok], ?_⟩
        rw [htasks, List.nil_append]
        exact hstart.trans (hleads.trans leads_release)
      · refine .inr ⟨blame task.referrer fault, more, catalog', true, by simp only [herr], ?_⟩
        exact hstart.trans (hleads.trans (leads_cancel _))

end

end

/-! ## Runs that take whole tasks -/

/-- The task of a ticket, if it waits. -/
def Ticket.waiting? (t : Ticket) : Option LoadTask :=
  match t.stage with
  | .queued => some t.task
  | _ => none

/-- Whether the tasks of some tickets are those that wait, and the others have ended. -/
structure Settled (ts : List Ticket) (queue : List LoadTask) : Prop where
  waiting : ts.filterMap Ticket.waiting? = queue
  stages : ∀ t ∈ ts, t.stage = .queued ∨ ∃ completed, t.stage = .returned completed

variable {ts front back : List Ticket} {queue before after more : List LoadTask}

theorem settled_nil : Settled [] [] :=
  ⟨rfl, fun _ ht => absurd ht List.not_mem_nil⟩

theorem Settled.append {ts' : List Ticket} {queue' : List LoadTask} (h : Settled ts queue)
    (h' : Settled ts' queue') : Settled (ts ++ ts') (queue ++ queue') where
  waiting := by rw [List.filterMap_append, h.waiting, h'.waiting]
  stages t ht := (List.mem_append.1 ht).elim (h.stages t) (h'.stages t)

theorem settled_queuedTickets (more : List LoadTask) : Settled (queuedTickets more) more where
  waiting := by
    rw [queuedTickets, List.filterMap_map]
    exact List.filterMap_some
  stages := by
    intro t ht
    obtain ⟨task, -, rfl⟩ := List.mem_map.1 ht
    exact .inl rfl

/-- A task that waits has its ticket between those of the tasks before and after it. -/
theorem Settled.exists_ticket (h : Settled ts (before ++ task :: after)) :
    ∃ front back, ts = front ++ ⟨task, .queued⟩ :: back ∧ Settled front before ∧
      Settled back after := by
  obtain ⟨front, rest, rfl, hfront, hrest⟩ := List.filterMap_eq_append_iff.1 h.waiting
  obtain ⟨skipped, ⟨task', stage⟩, back, rfl, hskipped, htask, hback⟩ :=
    List.filterMap_eq_cons_iff.1 hrest
  obtain ⟨rfl, rfl⟩ : task' = task ∧ stage = .queued := by
    cases stage with
    | queued => exact ⟨Option.some.inj htask, rfl⟩
    | _ => cases htask
  refine ⟨front ++ skipped, back, by rw [List.append_assoc], ⟨?_, fun t ht => ?_⟩, hback, ?_⟩
  · rw [List.filterMap_append, hfront, List.filterMap_eq_nil_iff.2 hskipped, List.append_nil]
  · refine h.stages t ?_
    rw [← List.append_assoc]
    exact List.mem_append_left _ ht
  · intro t ht
    refine h.stages t ?_
    rw [← List.append_assoc]
    exact List.mem_append_right _ (List.mem_cons_of_mem _ ht)

/-- A task that has ended waits no longer. -/
theorem Settled.returned (hfront : Settled front before) (hback : Settled back after)
    (task : LoadTask) (completed : Bool) :
    Settled (front ++ ⟨task, .returned completed⟩ :: back) (before ++ after) := by
  refine hfront.append ⟨hback.waiting, fun t ht => ?_⟩
  rcases List.mem_cons.1 ht with rfl | ht
  · exact .inr ⟨completed, rfl⟩
  · exact hback.stages t ht

/-- Tasks that are kept from starting end one after the other. -/
theorem leads_skipAll {c : Shared} (h : Settled ts queue) (hcancelled : c.cancelled = true) :
    ∃ ts', Settled ts' [] ∧ Leads layout w roots c ts c ts' := by
  induction queue generalizing ts with
  | nil => exact ⟨ts, h, .refl c ts⟩
  | cons task rest ih =>
      have hwaits : Settled ts ([] ++ task :: rest) := h
      obtain ⟨front, back, rfl, hfront, hback⟩ := hwaits.exists_ticket
      obtain ⟨ts', hts', hleads⟩ := ih (hfront.returned hback task true)
      exact ⟨ts', hts', (leads_skip (.inl hcancelled)).trans hleads⟩

/-- Whether a pool is where a run that takes whole tasks is.  After a fault more tasks may wait
    on the pool, those that the failed task had scheduled. -/
inductive Matches (p : Progress) (s : Pooled) : Prop
  | going {ts : List Ticket} (hnone : p.fault = none) (hts : Settled ts p.queue)
      (hs : UnderWay { catalog := p.catalog } p.roots ts s)
  | failing {ts : List Ticket} {queue : List LoadTask} {catalog : Catalog} {fault : Fault}
      (hfault : p.fault = some fault) (hts : Settled ts queue)
      (hs : UnderWay { catalog, cancelled := true, fault := some fault } p.roots ts s)
  | refused {fault : Fault} (hfault : p.fault = some fault) (hdone : p.Complete)
      (hresult : s.result = some (.error fault))

variable {p q : Progress} {s : Pooled}

/-- The task of the next root file is scheduled. -/
theorem UnderWay.root {c : Shared} {file : Path} {rest : List Path}
    (hs : UnderWay c (file :: rest) ts s) (htask : rootTask layout file = .ok task) :
    ∃ t, Pooled.Steps layout w s t ∧ UnderWay c rest (ts ++ queuedTickets [task]) t := by
  have hrest : UnderWay c rest ts { s with roots := rest } :=
    ⟨hs.shared, rfl, hs.stopped, hs.result, hs.tickets⟩
  exact ⟨_, .single (.root true hs.roots htask), hrest.scheduleAll true [task]⟩

/-- A step of a run that takes whole tasks. -/
theorem matches_step (h : Matches p s) (hstep : Step layout w p q) :
    ∃ t, Pooled.Steps layout w s t ∧ Matches q t := by
  cases hstep with
  | root hroots htask =>
      cases h with
      | going hnone hts hs =>
          rw [hroots] at hs
          obtain ⟨t, hsteps, ht⟩ := hs.root htask
          exact ⟨t, hsteps, .going hnone (hts.append (settled_queuedTickets _)) ht⟩
      | failing hfault hts hs =>
          rw [hroots] at hs
          obtain ⟨t, hsteps, ht⟩ := hs.root htask
          exact ⟨t, hsteps, .failing hfault (hts.append (settled_queuedTickets _)) ht⟩
      | refused hfault hdone hresult => exact absurd (hroots.symm.trans hdone.1) nofun
  | refuse hroots htask =>
      cases h with
      | going hnone hts hs =>
          exact ⟨_, .single (.refuse (hs.roots.trans hroots) htask), .refused rfl ⟨rfl, rfl⟩ rfl⟩
      | failing hfault hts hs =>
          exact ⟨_, .single (.refuse (hs.roots.trans hroots) htask), .refused rfl ⟨rfl, rfl⟩ rfl⟩
      | refused hfault hdone hresult => exact absurd (hroots.symm.trans hdone.1) nofun
  | @task before after task hqueue =>
      cases h with
      | going hnone hts hs =>
          rw [hqueue] at hts
          obtain ⟨front, back, rfl, hfront, hback⟩ := hts.exists_ticket
          cases hknown : p.catalog.contains task.key with
          | true =>
              obtain ⟨t, hsteps, ht⟩ := leads_skip (.inr hknown) s hs
              refine ⟨t, hsteps, ?_⟩
              rw [Progress.perform, if_pos (.inr hknown)]
              exact .going hnone (hfront.returned hback task true) ht
          | false =>
              have hrun : ¬ (p.fault.isSome ∨ p.catalog.contains task.key) := by
                rw [hnone, hknown]
                simp
              rw [Progress.perform, if_neg hrun]
              rcases @leads_load layout w p.roots task p.catalog hknown front back with
                ⟨catalog, more, hok, hleads⟩ | ⟨fault, more, catalog, completed, herr, hleads⟩
              · obtain ⟨t, hsteps, ht⟩ := hleads s hs
                have hts' := (hfront.returned hback task true).append (settled_queuedTickets more)
                simp only [hok]
                rw [List.append_assoc, List.cons_append] at hts'
                exact ⟨t, hsteps, .going hnone hts' ht⟩
              · obtain ⟨t, hsteps, ht⟩ := hleads s hs
                have hts' :=
                  (hfront.returned hback task completed).append (settled_queuedTickets more)
                simp only [herr]
                rw [List.append_assoc, List.cons_append] at hts'
                exact ⟨t, hsteps, .failing rfl hts' ht⟩
      | failing hfault hts hs =>
          -- the task is skipped, and on the pool it can wait
          refine ⟨s, .refl, ?_⟩
          rw [Progress.perform, if_pos (.inl (by rw [hfault]; rfl))]
          exact .failing hfault hts hs
      | refused hfault hdone hresult =>
          rw [hdone.2] at hqueue
          exact absurd hqueue.symm (by simp)

theorem matches_reachable (h : Reachable layout w roots p) :
    ∃ s, Pooled.Reachable layout w roots s ∧ Matches p s := by
  induction h with
  | refl => exact ⟨_, .refl, .going rfl settled_nil ⟨rfl, rfl, rfl, rfl, rfl⟩⟩
  | tail _ hstep ih =>
      obtain ⟨s, hs, hmatches⟩ := ih
      obtain ⟨t, hsteps, ht⟩ := matches_step hmatches hstep
      exact ⟨t, hs.trans hsteps, ht⟩

/-- When all tasks have ended, the caller takes what there is. -/
theorem exists_result {c : Shared} (hs : Pooled.Reachable layout w roots s)
    (h : UnderWay c [] ts s) (hts : Settled ts []) :
    ∃ t, Pooled.Reachable layout w roots t ∧ t.result = some c.outcome := by
  have hpending : s.pending = 0 := by
    rw [(Pooled.accounted_reachable hs).pending, h.tickets, List.countP_eq_zero]
    intro t ht
    rcases hts.stages t ht with hqueued | ⟨completed, hreturned⟩
    · have hwaits : t.task ∈ ts.filterMap Ticket.waiting? :=
        List.mem_filterMap.2 ⟨t, ht, by rw [Ticket.waiting?, hqueued]⟩
      rw [hts.waiting] at hwaits
      exact absurd hwaits List.not_mem_nil
    · rw [hreturned]
      exact Bool.false_ne_true
  exact ⟨_, hs.tail (.finish h.roots hpending h.result), by rw [h.shared]⟩

/-- Every complete run that takes whole tasks is a run on a pool, with the same result. -/
theorem exists_pooled (h : Reachable layout w roots p) (hdone : p.Complete) :
    ∃ s, Pooled.Reachable layout w roots s ∧ s.result = some p.outcome := by
  obtain ⟨s, hs, hmatches⟩ := matches_reachable h
  rw [Progress.outcome]
  cases hmatches with
  | going hnone hts hunder =>
      rw [hdone.1] at hunder
      rw [hdone.2] at hts
      rw [hnone]
      exact exists_result hs hunder hts
  | @failing ts queue catalog fault hfault hts hunder =>
      -- tasks that still wait are kept from starting
      have hcancelled : (⟨catalog, true, some fault⟩ : Shared).cancelled = true := rfl
      obtain ⟨ts', hts', hleads⟩ := leads_skipAll hts hcancelled
      obtain ⟨t, hsteps, ht⟩ := hleads s hunder
      rw [hdone.1] at ht
      rw [hfault]
      exact exists_result (hs.trans hsteps) ht hts'
  | refused hfault hdone hresult =>
      rw [hfault]
      exact ⟨s, hs, hresult⟩

/-! ## No task is lost -/

/-- In every run on a pool the count is that of the tickets that are out.  A ticket that is
    handed back was counted; when no task waits or runs, the tasks that are dropped bring the
    count to zero; and there is no good result if a task did not come to its end.  The runs
    that take whole tasks, and with them `load`, are among these runs. -/
theorem no_task_lost (layout : Layout) (w : Workspace) (roots : List Path) :
    (∀ s, Pooled.Reachable layout w roots s →
      s.pending = s.tickets.countP (fun t => t.stage.isLive) ∧
      (∀ t ∈ s.tickets, ∀ completed, t.stage = .leaving completed → 0 < s.pending) ∧
      (s.Idle →
        (¬ ∃ run : Nat → Pooled, run 0 = s ∧ ∀ n, Pooled.Drop (run n) (run (n + 1))) ∧
        ∀ t, Relation.ReflTransGen Pooled.Drop s t → (∃ u, Pooled.Drop t u) ∨ t.pending = 0) ∧
      (∀ r, s.result = some r → (∃ t ∈ s.tickets, t.stage ≠ .returned true) →
        ∃ fault, r = .error fault)) ∧
    (∀ p, Reachable layout w roots p → p.Complete →
      ∃ s, Pooled.Reachable layout w roots s ∧ s.result = some p.outcome) ∧
    (∀ c, load layout w roots = .ok c →
      ∃ s, Pooled.Reachable layout w roots s ∧ s.result = some (.ok c)) := by
  refine ⟨fun s hs => ?_, fun p hp hdone => exists_pooled hp hdone, fun c hload => ?_⟩
  · have hbooks := Pooled.accounted_reachable hs
    refine ⟨hbooks.pending, fun t ht completed hstage => ?_, fun hidle => hidle.drops hbooks,
      fun r hresult hlost => ?_⟩
    · obtain ⟨front, back, htickets⟩ := List.append_of_mem ht
      obtain ⟨task, stage⟩ := t
      exact hbooks.pending_pos htickets (by rw [show stage = _ from hstage]; rfl)
    · obtain ⟨t, ht, hstage⟩ := hlost
      cases r with
      | error fault => exact ⟨fault, rfl⟩
      | ok c => exact absurd ((hbooks.result c hresult).2 t ht) hstage
  · obtain ⟨p, hp, hdone, hout⟩ := exists_run_of_load hload
    rw [← hout]
    exact exists_pooled hp hdone

/-- A stopped pool with the task of the top package. -/
def topOnly (stage : Stage) (pending : Nat) (c : Shared) : Pooled :=
  { c with
    roots := []
    pending
    stopped := true
    tickets := [⟨⟨"", ⟨"/proj/BUILD"⟩, none⟩, stage⟩] }

/-- A pool is stopped before its one task is taken: the task is discarded, and the caller gets
    a fault. -/
theorem discarded_reported : ∃ s : Pooled,
    Pooled.Reachable plainLayout twoPackages [⟨"BUILD"⟩] s ∧
      (∃ t ∈ s.tickets, t.stage ≠ .returned true) ∧ ∃ fault, s.result = some (.error fault) := by
  have hqueued : Pooled.Reachable plainLayout twoPackages [⟨"BUILD"⟩] (topOnly .queued 1 {}) :=
    .tail (.tail .refl (.root true rfl rfl)) .stop
  have hbroken : Pooled.Step plainLayout twoPackages (topOnly .queued 1 {})
      (topOnly .broken 1 {}) :=
    .discard (show _ = [] ++ (⟨⟨"", ⟨"/proj/BUILD"⟩, none⟩, .queued⟩ : Ticket) :: [] from rfl) rfl
  have hmarked : Pooled.Drop (topOnly .broken 1 {}) (topOnly .marked 1 { cancelled := true }) :=
    .mark (show _ = [] ++ (⟨⟨"", ⟨"/proj/BUILD"⟩, none⟩, .broken⟩ : Ticket) :: [] from rfl)
  have hrecorded : Pooled.Drop (topOnly .marked 1 { cancelled := true })
      (topOnly (.leaving false) 1 { cancelled := true, fault := some (incomplete "") }) :=
    .record (show _ = [] ++ (⟨⟨"", ⟨"/proj/BUILD"⟩, none⟩, .marked⟩ : Ticket) :: [] from rfl)
  have hreleased : Pooled.Drop
      (topOnly (.leaving false) 1 { cancelled := true, fault := some (incomplete "") })
      (topOnly (.returned false) 0 { cancelled := true, fault := some (incomplete "") }) :=
    .release
      (show _ = [] ++ (⟨⟨"", ⟨"/proj/BUILD"⟩, none⟩, .leaving false⟩ : Ticket) :: [] from rfl)
  have hend := ((((hqueued.tail hbroken).tail (.drop hmarked)).tail (.drop hrecorded)).tail
    (.drop hreleased)).tail (.finish rfl rfl rfl)
  have hlost : ∃ t ∈ (topOnly (.returned false) 0 {}).tickets, t.stage ≠ .returned true :=
    ⟨_, List.mem_singleton_self _, nofun⟩
  obtain ⟨fault, hfault⟩ := ((no_task_lost _ _ _).1 _ hend).2.2.2 _ rfl hlost
  exact ⟨_, hend, hlost, fault, congrArg some hfault⟩

end Loading

end Buildwright
