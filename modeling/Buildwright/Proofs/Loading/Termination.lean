import Buildwright.Proofs.Loading.Tally

/-! # Loading ends

    The keys of packages are without number, and what is still to be done grows with every
    file that is evaluated.  But there is room on a disk for few files that can be evaluated,
    no package is evaluated twice, and between two evaluations steps use up what is to be
    done.

    * `Pooled.effort`, `Pooled.effort_step` — what steps use up;
    * `Pooled.acc_of_logged` — every run ends, if there is room for few files;
    * `Pooled.exists_step_of_result_eq_none` — and not before there is a result;
    * `loading_ends` — all of it together. -/

namespace Buildwright.Loading

variable {layout : Layout} {w : Workspace} {roots : List Path} {task : LoadTask}
  {log : List LoadTask}

namespace Pooled

variable {s t : Pooled} {front back : List Ticket} {stage stage' : Stage}

/-! ## Every run ends -/

/-- What is left to be done at most, as long as no file is evaluated. -/
def effort (s : Pooled) : Nat :=
  (s.tickets.map fun t => t.stage.effort t.task.file).sum + 11 * s.roots.length +
    (!s.stopped).toNat + s.result.isNone.toNat

/-- A change of one task. -/
theorem effort_change (htickets : s.tickets = front ++ ⟨task, stage⟩ :: back)
    (htickets' : t.tickets = front ++ ⟨task, stage'⟩ :: back) (hroots : t.roots = s.roots)
    (hstopped : t.stopped = s.stopped) (hresult : t.result = s.result) :
    t.effort + stage.effort task.file = s.effort + stage'.effort task.file := by
  rw [effort, effort, htickets, htickets', hroots, hstopped, hresult]
  simp only [List.map_append, List.map_cons, List.sum_append, List.sum_cons]
  omega

theorem effort_schedule_le (admitted : Bool) (s : Pooled) (task : LoadTask) :
    (s.schedule admitted task).effort ≤ s.effort + 10 := by
  have hstage :
      (if s.stopped && !admitted then Stage.broken else .queued).effort task.file ≤ 10 := by
    split
    · exact Nat.le_of_ble_eq_true rfl
    · exact le_refl _
  simp only [Pooled.schedule, effort, List.map_append, List.map_singleton, List.sum_append,
    List.sum_singleton]
  omega

theorem effort_scheduleAll_le (admitted : Bool) (more : List LoadTask) (s : Pooled) :
    (s.scheduleAll admitted more).effort ≤ s.effort + 10 * more.length := by
  induction more generalizing s with
  | nil => exact le_refl _
  | cons task rest ih =>
      have hone := effort_schedule_le admitted s task
      have hrest := ih (s.schedule admitted task)
      rw [List.length_cons]
      show ((s.schedule admitted task).scheduleAll admitted rest).effort ≤ _
      omega

/-- A change that takes a task further. -/
theorem effort_lt_of_change (htickets : s.tickets = front ++ ⟨task, stage⟩ :: back)
    (htickets' : t.tickets = front ++ ⟨task, stage'⟩ :: back) (hroots : t.roots = s.roots)
    (hstopped : t.stopped = s.stopped) (hresult : t.result = s.result)
    (hlt : stage'.effort task.file < stage.effort task.file) : t.effort < s.effort := by
  have hchange := effort_change htickets htickets' hroots hstopped hresult
  omega

theorem effort_drop (hdrop : Drop s t) : t.effort < s.effort := by
  cases hdrop with
  | mark htickets =>
      exact effort_lt_of_change htickets rfl rfl rfl rfl (by simp [Stage.toDrop])
  | record htickets =>
      exact effort_lt_of_change htickets rfl rfl rfl rfl (by simp [Stage.toDrop])
  | release htickets =>
      exact effort_lt_of_change htickets rfl rfl rfl rfl (by simp [Stage.toDrop])

/-- A task that runs can still be dropped. -/
theorem Errand.three_lt_effort (file : Path) (errand : Errand) : 3 < errand.effort file := by
  cases errand <;> simp <;> omega

/-- An errand that uses up more effort than its tasks take. -/
theorem effort_advance {errand : Errand} (admitted : Bool)
    (htickets : s.tickets = front ++ ⟨task, .running errand⟩ :: back)
    (heffort : (errand.next layout w task s.toShared).2.1.effort task.file +
      10 * (errand.next layout w task s.toShared).2.2.length < errand.effort task.file) :
    (scheduleAll admitted
      { s with
        toShared := (errand.next layout w task s.toShared).1
        tickets := front ++ ⟨task, (errand.next layout w task s.toShared).2.1⟩ :: back }
      (errand.next layout w task s.toShared).2.2).effort < s.effort := by
  have hle := effort_scheduleAll_le admitted (errand.next layout w task s.toShared).2.2
    { s with
      toShared := (errand.next layout w task s.toShared).1
      tickets := front ++ ⟨task, (errand.next layout w task s.toShared).2.1⟩ :: back }
  have hchange := effort_change
    (t := { s with
      toShared := (errand.next layout w task s.toShared).1
      tickets := front ++ ⟨task, (errand.next layout w task s.toShared).2.1⟩ :: back })
    htickets rfl rfl rfl rfl
  rw [Stage.effort] at hchange
  omega

/-- A step changes nothing, or uses up effort, or evaluates a file. -/
theorem effort_step (hstep : Step layout w s t) :
    t = s ∨ t.effort < s.effort ∨
      ∃ task calls, Evaluates layout w task s t ∧ w.evaluate task.file = .ok calls := by
  cases hstep with
  | @root file rest task admitted hroots htask =>
      have hle := effort_schedule_le admitted { s with roots := rest } task
      have hlt : ({ s with roots := rest } : Pooled).effort + 11 = s.effort := by
        rw [effort, effort, hroots, List.length_cons]
        simp only
        omega
      exact .inr (.inl (by omega))
  | refuse hroots htask =>
      refine .inr (.inl ?_)
      rw [effort, effort, hroots]
      simp only [List.length_nil, List.length_cons, Option.isNone_some, Bool.toNat_false]
      omega
  | take htickets hopen =>
      exact .inr (.inl (effort_lt_of_change htickets rfl rfl rfl rfl (by simp)))
  | @advance front back task errand admitted htickets =>
      rcases (errand.next_spends layout w task s.toShared).effort with heffort | ⟨rfl, calls, heval⟩
      · exact .inr (.inl (effort_advance admitted htickets heffort))
      · exact .inr (.inr ⟨task, calls, evaluates_advance admitted htickets, heval⟩)
  | @panic front back task errand htickets =>
      have hlt := Errand.three_lt_effort task.file errand
      exact .inr (.inl (effort_lt_of_change htickets rfl rfl rfl rfl hlt))
  | stop =>
      cases hstopped : s.stopped with
      | true =>
          refine .inl ?_
          obtain ⟨⟩ := s
          cases hstopped
          rfl
      | false =>
          refine .inr (.inl ?_)
          rw [effort, effort, hstopped]
          simp only [Bool.not_true, Bool.not_false, Bool.toNat_true, Bool.toNat_false]
          omega
  | discard htickets hstopped =>
      exact .inr (.inl (effort_lt_of_change htickets rfl rfl rfl rfl (by simp [Stage.toDrop])))
  | drop hdrop => exact .inr (.inl (effort_drop hdrop))
  | finish hroots hpending hresult =>
      refine .inr (.inl ?_)
      rw [effort, effort, hresult]
      simp only [Option.isNone_some, Option.isNone_none, Bool.toNat_true, Bool.toNat_false]
      omega

/-- How many of the tasks have a file that can be evaluated. -/
def readable (w : Workspace) (log : List LoadTask) : Nat :=
  log.countP fun t => (w.evaluate t.file).isOk

/-- If no run evaluates more than `n` files with success, every run ends. -/
theorem acc_of_logged {n : Nat}
    (hroom : ∀ log s, Logged layout w roots log s → readable w log ≤ n)
    (h : Logged layout w roots log s) :
    Acc (fun t s => Step layout w s t ∧ t ≠ s) s := by
  have hwf : WellFounded (InvImage (Prod.Lex (· < ·) (· < ·))
      fun x : List LoadTask × Pooled => (n - readable w x.1, x.2.effort)) :=
    InvImage.wf _ (Prod.lex Nat.lt_wfRel Nat.lt_wfRel).wf
  suffices hall : ∀ x : List LoadTask × Pooled, Logged layout w roots x.1 x.2 →
      Acc (fun t s => Step layout w s t ∧ t ≠ s) x.2 from hall (log, s) h
  intro x
  induction x using hwf.induction with
  | _ x ih =>
      obtain ⟨log, s⟩ := x
      refine fun h => .intro s ?_
      rintro t ⟨hstep, hne⟩
      -- a step that evaluates a file with success takes room, and others use up effort
      rcases effort_step hstep with heq | hlt | ⟨task, calls, heval, hcalls⟩
      · exact absurd heq hne
      · rcases h.step hstep with hlogged | ⟨task, -, hlogged⟩
        · exact ih (log, t) (.right _ hlt) hlogged
        · have hle : readable w log ≤ readable w (log ++ [task]) := by
            rw [readable, readable, List.countP_append]
            exact Nat.le_add_right _ _
          exact ih (log ++ [task], t) (.right' _ (Nat.sub_le_sub_left hle n) hlt) hlogged
      · have hlogged := h.evaluate heval
        have hmore : readable w (log ++ [task]) = readable w log + 1 := by
          rw [readable, List.countP_append, List.countP_singleton, hcalls]
          rfl
        have hle := hroom _ _ hlogged
        refine ih (log ++ [task], t) (.left _ _ ?_) hlogged
        simp only [hmore] at hle ⊢
        omega

/-- On a disk there is room for few files that can be evaluated. -/
theorem Logged.readable_le {d : Disk} (h : Logged layout d.workspace roots log s)
    (hslash : '/' ∉ layout.buildFile.toList) :
    readable d.workspace log ≤ 5 * d.tree.nodes.length + roots.length := by
  have htally := tallied_logged h
  have hsublist : (log.filter fun t => (d.evaluate t.file).isOk).Sublist log := List.filter_sublist
  have hnodup : (((log.filter fun t => (d.evaluate t.file).isOk).map LoadTask.source).map
      Prod.fst).Nodup := by
    rw [List.map_map]
    exact htally.nodup.sublist (hsublist.map _)
  have hroom : ((log.filter fun t => (d.evaluate t.file).isOk).map LoadTask.source).length ≤
      5 * d.tree.nodes.length + roots.length := by
    refine length_le_nodes_add_roots hnodup hslash fun e he => ?_
    obtain ⟨task, htask, rfl⟩ := List.mem_map.1 he
    obtain ⟨hmem, hok⟩ := List.mem_filter.1 htask
    obtain ⟨hformed, hfile⟩ := htally.logged task hmem
    refine ⟨hformed, hfile, ?_⟩
    cases hcalls : d.evaluate task.file with
    | ok calls => exact ⟨calls, hcalls⟩
    | error failure =>
        rw [hcalls] at hok
        cases hok
  rw [List.length_map, ← List.countP_eq_length_filter] at hroom
  exact hroom

/-- A task goes on when its file has been evaluated. -/
theorem Evaluates.ne (h : Evaluates layout w task s t) : t ≠ s := by
  cases h with
  | @mk front back htickets =>
      intro heq
      have hsame := congrArg Pooled.tickets heq
      rw [htickets, List.append_cancel_left_eq, List.cons.injEq, Ticket.mk.injEq] at hsame
      have hstage := hsame.1.2
      rw [Errand.next] at hstage
      cases heval : w.evaluate task.file with
      | error failure =>
          rw [heval] at hstage
          cases failure <;> cases hstage
      | ok calls =>
          rw [heval] at hstage
          cases hstage

/-- As long as a ticket is out, a step is left that changes something. -/
theorem exists_step_of_isLive {ticket : Ticket} (hmem : ticket ∈ s.tickets)
    (hlive : ticket.stage.isLive = true) : ∃ t, Step layout w s t ∧ t ≠ s := by
  have hne : ∀ {t : Pooled}, t.effort < s.effort → t ≠ s := fun hlt heq => hlt.ne (congrArg _ heq)
  obtain ⟨front, back, htickets⟩ := List.append_of_mem hmem
  obtain ⟨task, stage⟩ := ticket
  cases stage with
  | queued =>
      cases hstopped : s.stopped with
      | false =>
          exact ⟨_, .take htickets hstopped,
            hne (effort_lt_of_change htickets rfl rfl rfl rfl (by simp))⟩
      | true =>
          exact ⟨_, .discard htickets hstopped,
            hne (effort_lt_of_change htickets rfl rfl rfl rfl (by simp [Stage.toDrop]))⟩
  | running errand =>
      refine ⟨_, .advance true htickets, ?_⟩
      rcases (errand.next_spends layout w task s.toShared).effort with heffort | ⟨rfl, -, -⟩
      · exact hne (effort_advance true htickets heffort)
      · exact (evaluates_advance true htickets).ne
  | broken => exact ⟨_, .drop (.mark htickets), hne (effort_drop (.mark htickets))⟩
  | marked => exact ⟨_, .drop (.record htickets), hne (effort_drop (.record htickets))⟩
  | leaving completed => exact ⟨_, .drop (.release htickets), hne (effort_drop (.release htickets))⟩
  | returned completed => cases hlive

/-- As long as there is no result, a step is left that changes something. -/
theorem exists_step_of_result_eq_none (hs : Reachable layout w roots s)
    (hresult : s.result = none) : ∃ t, Step layout w s t ∧ t ≠ s := by
  cases hroots : s.roots with
  | cons file rest =>
      have hne : ∀ {t : Pooled}, t.roots.length < s.roots.length → t ≠ s :=
        fun hlt heq => hlt.ne (congrArg (fun s : Pooled => s.roots.length) heq)
      cases htask : rootTask layout file with
      | error fault =>
          refine ⟨_, .refuse hroots htask, hne ?_⟩
          rw [hroots]
          exact Nat.zero_lt_succ _
      | ok task =>
          refine ⟨_, .root true hroots htask, hne ?_⟩
          rw [hroots]
          exact Nat.lt_succ_self _
  | nil =>
      by_cases hpending : s.pending = 0
      · refine ⟨_, .finish hroots hpending hresult, fun heq => ?_⟩
        have hsame := congrArg Pooled.result heq
        rw [hresult] at hsame
        cases hsame
      · -- the count is that of the tickets that are out
        rw [(accounted_reachable hs).pending, List.countP_eq_zero] at hpending
        simp only [not_forall, not_not, exists_prop] at hpending
        obtain ⟨ticket, hmem, hlive⟩ := hpending
        exact exists_step_of_isLive hmem hlive

end Pooled

/-! ## First in, first out -/

/-- A root file outside the project is reached, and loading ends there. -/
theorem steps_refuse {fault : Fault} (h : roots.mapM (rootTask layout) = .error fault)
    (queue : List LoadTask) :
    ∃ p, Steps layout w { roots, queue } p ∧ p.Complete ∧ p.outcome = .error fault := by
  induction roots generalizing queue with
  | nil => cases h
  | cons file rest ih =>
      rw [List.mapM_cons] at h
      cases htask : rootTask layout file with
      | error fault' =>
          rw [htask] at h
          obtain rfl : fault' = fault := Except.error.inj h
          exact ⟨_, .single (.refuse rfl htask), ⟨rfl, rfl⟩, rfl⟩
      | ok task =>
          have hrest : rest.mapM (rootTask layout) = .error fault := by
            rw [htask] at h
            cases hmap : rest.mapM (rootTask layout) with
            | error fault' =>
                rw [hmap] at h
                exact congrArg _ (Except.error.inj h)
            | ok tasks =>
                rw [hmap] at h
                cases h
          obtain ⟨p, hsteps, hend⟩ := ih hrest (queue ++ [task])
          exact ⟨p, .head (.root rfl htask) hsteps, hend⟩

/-- Taking the tasks first in, first out is one of the runs on a pool. -/
theorem exists_pooled_load {d : Disk} (hslash : '/' ∉ layout.buildFile.toList) :
    ∃ s, Pooled.Reachable layout d.workspace roots s ∧
      s.result = some (load layout d.workspace roots) := by
  cases htasks : roots.mapM (rootTask layout) with
  | error fault =>
      obtain ⟨p, hsteps, hdone, hout⟩ := steps_refuse (w := d.workspace) htasks []
      have hload : load layout d.workspace roots = .error fault := by
        rw [load, htasks]
        rfl
      rw [hload, ← hout]
      exact exists_pooled hsteps hdone
  | ok tasks =>
      obtain ⟨p, hturns, hdone, hload⟩ := exists_turns_load (d := d) htasks hslash
      rw [← hload]
      exact exists_pooled (reachable_of_turns htasks hturns) hdone

/-- Every run on a pool has a log of the tasks whose files it evaluates, one for each package at
    most; and it schedules no more tasks than there are root files and dependency texts in these
    files.  As long as there is no result, the run can go on.  On a disk no run goes on forever,
    unless it repeats a step that changes nothing; and taking the tasks first in, first out is
    one of the runs. -/
theorem loading_ends (layout : Layout) (w : Workspace) (roots : List Path) :
    (∀ s, Pooled.Reachable layout w roots s ↔ ∃ log, Pooled.Logged layout w roots log s) ∧
    (∀ log s, Pooled.Logged layout w roots log s → (log.map LoadTask.key).Nodup ∧
      s.tickets.length ≤ roots.length + (log.flatMap fun task => w.deps task.file).length) ∧
    (∀ s, Pooled.Reachable layout w roots s → s.result = none →
      ∃ t, Pooled.Step layout w s t ∧ t ≠ s) ∧
    ∀ d : Disk, w = d.workspace → '/' ∉ layout.buildFile.toList →
      (¬ ∃ run : Nat → Pooled, run 0 = { roots } ∧
        ∀ n, Pooled.Step layout w (run n) (run (n + 1)) ∧ run (n + 1) ≠ run n) ∧
      ∃ s, Pooled.Reachable layout w roots s ∧ s.result = some (load layout w roots) := by
  refine ⟨fun s => ⟨Pooled.exists_logged, ?_⟩, fun log s h => ?_, fun s hs hresult => ?_, ?_⟩
  · rintro ⟨log, h⟩
    exact h.reachable
  · have htally := Pooled.tallied_logged h
    have htasks := htally.tasks
    exact ⟨htally.nodup, by omega⟩
  · exact Pooled.exists_step_of_result_eq_none hs hresult
  · rintro d rfl hslash
    refine ⟨?_, exists_pooled_load hslash⟩
    rintro ⟨run, hstart, hsteps⟩
    have hacc := Pooled.acc_of_logged
      (fun log s (h : Pooled.Logged layout d.workspace roots log s) => h.readable_le hslash) .start
    exact not_acc_iff_exists_descending_chain.2 ⟨run, hstart, hsteps⟩ hacc

/-- Two packages that refer to each other. -/
def circular : Disk where
  tree := ⟨[(["proj"], .directory),
    (["proj", "BUILD"], .file
      "- cc_library: \x7bname: app, deps: [\"//lib:base\"]\x7d\n".toUTF8),
    (["proj", "lib"], .directory),
    (["proj", "lib", "BUILD"], .file
      "- cc_library: \x7bname: base, deps: [\"//:app\"]\x7d\n".toUTF8)]⟩
  current := ["proj"]

/-- Loading goes from one package to the other, and does not come back. -/
theorem circular_ends : '/' ∉ plainLayout.buildFile.toList ∧
    circular.workspace.deps ⟨"/proj/BUILD"⟩ = ["//lib:base"] ∧
    circular.workspace.deps ⟨"/proj/lib/BUILD"⟩ = ["//:app"] ∧
    (¬ ∃ run : Nat → Pooled, run 0 = { roots := [⟨"BUILD"⟩] } ∧
      ∀ n, Pooled.Step plainLayout circular.workspace (run n) (run (n + 1)) ∧
        run (n + 1) ≠ run n) := by
  have hplace : circular.locate ⟨"/proj/BUILD"⟩ = .ok ["proj", "BUILD"] :=
    Disk.locate_eq_ok_iff.2 (by decide +kernel)
  have hplace' : circular.locate ⟨"/proj/lib/BUILD"⟩ = .ok ["proj", "lib", "BUILD"] :=
    Disk.locate_eq_ok_iff.2 (by decide +kernel)
  have htop : circular.workspace.evaluate ⟨"/proj/BUILD"⟩ =
      .ok [libraryCall "app" ["//lib:base"]] :=
    Disk.evaluate_of_find? hplace rfl (by decide +kernel) (by decide +kernel)
  have hlib : circular.workspace.evaluate ⟨"/proj/lib/BUILD"⟩ =
      .ok [libraryCall "base" ["//:app"]] :=
    Disk.evaluate_of_find? hplace' rfl (by decide +kernel) (by decide +kernel)
  have hends := (loading_ends plainLayout circular.workspace [⟨"BUILD"⟩]).2.2.2 circular rfl
    (by decide)
  exact ⟨by decide, by rw [Workspace.deps, htop]; rfl, by rw [Workspace.deps, hlib]; rfl, hends.1⟩

end Buildwright.Loading
