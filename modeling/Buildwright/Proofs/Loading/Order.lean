import Buildwright.Proofs.Loading.Needed
import Buildwright.Proofs.Loading.Turns
import Mathlib.Data.Prod.Lex
import Mathlib.Data.Set.Card

/-! # Loading does not depend on the order of tasks

    The invariant at the end of a run says what was loaded; that there is an end
    follows from a rank which every step lowers.  Taking the tasks first in,
    first out is one of the orders, so `Loading.load` gives what they all give.

    * `Invariant.hasLoaded`, `Invariant.mem_keys_iff` — the end of a good run;
    * `acc_of_invariant` — every run ends, if finitely many packages are needed;
    * `exists_run_load` — first in, first out is a run;
    * `load_in_any_order` — all of it together. -/

namespace Buildwright.Loading

variable {layout : Layout} {w : Workspace} {roots : List Path} {ps qs : List Contents}
  {s t : Progress}

/-! ## The end of a run -/

/-- When nothing is left and nothing failed, the needed packages are adopted. -/
theorem Invariant.mem_keys_iff (h : Invariant layout w roots ps s) (hdone : s.Complete)
    (hnone : s.fault = none) {key : String} :
    key ∈ ps.map Contents.key ↔ Needs layout w roots key := by
  constructor
  · intro hk
    obtain ⟨p, hp, rfl⟩ := List.mem_map.1 hk
    exact h.needs p hp
  · intro hneeds
    induction hneeds with
    | @root file full key hmem hkey =>
        exact h.mem_keys_of_root hdone hnone hmem hkey
    | @dependency key target file calls call d _ hfile heval hcall hd htarget ih =>
        obtain ⟨p, hp, rfl⟩ := List.mem_map.1 ih
        have htargets := mem_targets (h.loads p hp).declared hfile heval hcall hd htarget
        exact (h.targetsCovered hnone p hp target htargets).mem_keys hdone

/-- A complete run is free of faults if and only if every needed package loads. -/
theorem Invariant.fault_eq_none_iff (h : Invariant layout w roots ps s) (hdone : s.Complete) :
    s.fault = none ↔ ∀ key, Needs layout w roots key →
      ∃ p : Contents, p.key = key ∧ p.Loads layout w := by
  constructor
  · intro hnone key hkey
    rw [← h.mem_keys_iff hdone hnone] at hkey
    obtain ⟨p, hp, rfl⟩ := List.mem_map.1 hkey
    exact ⟨p, rfl, h.loads p hp⟩
  · intro hall
    by_contra hsome
    obtain ⟨key, hkey, hnot⟩ := h.fault hsome
    obtain ⟨p, hp, hloads⟩ := hall key hkey
    exact hnot p hp hloads

/-- What is declared for a needed package is what the catalog holds. -/
theorem Invariant.hasLoaded (h : Invariant layout w roots ps s) (hdone : s.Complete)
    (hnone : s.fault = none) {p : Contents} (hneeds : Needs layout w roots p.key)
    (hp : p.Declared layout w) : s.catalog.HasLoaded p := by
  rw [← h.mem_keys_iff hdone hnone] at hneeds
  obtain ⟨q, hq, hkey⟩ := List.mem_map.1 hneeds
  obtain rfl := (h.loads q hq).declared.unique hp hkey
  rw [h.catalog]
  exact Catalog.hasLoaded_adoptAll h.nodup (fun _ _ => rfl) hq

/-- Two good runs adopt the same contents. -/
theorem Invariant.perm (h : Invariant layout w roots ps s) (h' : Invariant layout w roots qs t)
    (hdone : s.Complete) (hdone' : t.Complete) (hnone : s.fault = none)
    (hnone' : t.fault = none) : ps.Perm qs := by
  have hsub : ∀ {ps qs : List Contents} {s t : Progress}, Invariant layout w roots ps s →
      Invariant layout w roots qs t → s.Complete → t.Complete → s.fault = none →
      t.fault = none → ∀ p ∈ ps, p ∈ qs := by
    intro ps qs s t h h' hdone hdone' hnone hnone' p hp
    have hkey := (h.mem_keys_iff hdone hnone).1 (List.mem_map.2 ⟨p, hp, rfl⟩)
    rw [← h'.mem_keys_iff hdone' hnone'] at hkey
    obtain ⟨q, hq, hkey⟩ := List.mem_map.1 hkey
    rw [← (h'.loads q hq).declared.unique (h.loads p hp).declared hkey]
    exact hq
  refine (List.perm_ext_iff_of_nodup h.nodup.of_map h'.nodup.of_map).2 fun p => ?_
  exact ⟨hsub h h' hdone hdone' hnone hnone' p, hsub h' h hdone' hdone hnone' hnone p⟩

/-! ## Every run ends -/

/-- The rank of a progress when at most `n` packages are needed: packages that can still
    be adopted, then roots, then tasks. -/
def rank (n : Nat) (s : Progress) : Nat × Nat × Nat :=
  (if s.fault.isSome then 0 else n + 1 - s.catalog.packages.length, s.roots.length,
    s.queue.length)

/-- Different keys of needed packages are no more than the needed packages. -/
theorem length_le_ncard (hfin : {key | Needs layout w roots key}.Finite) {keys : List String}
    (hnodup : keys.Nodup) (hneeds : ∀ key ∈ keys, Needs layout w roots key) :
    keys.length ≤ {key | Needs layout w roots key}.ncard := by
  have hsub : keys.toFinset ⊆ hfin.toFinset := fun key hkey =>
    hfin.mem_toFinset.2 (hneeds key (List.mem_toFinset.1 hkey))
  have hcard := Finset.card_le_card hsub
  rwa [List.toFinset_card_of_nodup hnodup, ← Set.ncard_eq_toFinset_card _ hfin] at hcard

theorem Invariant.needs_of_mem_keys (h : Invariant layout w roots ps s) :
    ∀ key ∈ ps.map Contents.key, Needs layout w roots key := by
  intro key hkey
  obtain ⟨p, hp, rfl⟩ := List.mem_map.1 hkey
  exact h.needs p hp

/-- Every step lowers the rank. -/
theorem rank_step (h : Invariant layout w roots ps s) (hown : OwnFiles layout roots)
    (hfin : {key | Needs layout w roots key}.Finite) (hstep : Step layout w s t) :
    Prod.Lex (· < ·) (Prod.Lex (· < ·) (· < ·))
      (rank {key | Needs layout w roots key}.ncard t)
      (rank {key | Needs layout w roots key}.ncard s) := by
  have hle := length_le_ncard hfin h.nodup h.needs_of_mem_keys
  rw [List.length_map] at hle
  have hlen : s.catalog.packages.length = ps.length := by
    rw [h.catalog, Catalog.length_packages_adoptAll]
    exact Nat.zero_add _
  cases hstep with
  | root hroots htask =>
      refine .right _ (.left _ _ ?_)
      rw [hroots]
      exact Nat.lt_succ_self _
  | refuse hroots htask =>
      exact absurd htask (hown.rootTask_ne_error (h.pending _ (hroots ▸ List.mem_cons_self ..)))
  | @task before after task hqueue =>
      rcases perform_cases layout w { s with queue := before ++ after } task with
        ⟨heq, -⟩ | ⟨hnone, -, p, tasks, -, -, -, -, -, -, heq⟩ | ⟨hnone, -, fault, -, -, heq⟩
      · -- skipped: one task less, and nothing else changes
        rw [heq]
        refine .right _ (.right _ ?_)
        rw [hqueue]
        simp
      · -- adopted: the new package is a needed one, so there was room for it
        rw [heq]
        refine .left _ _ ?_
        have hadopt : (s.catalog.adopt p).packages.length = s.catalog.packages.length + 1 :=
          Catalog.length_packages_adoptAll (c := s.catalog) [p]
        rw [show s.fault = none from hnone, hadopt]
        simp only [Option.isSome_none, Bool.false_eq_true, if_false]
        omega
      · rw [heq]
        refine .left _ _ ?_
        rw [show s.fault = none from hnone]
        simp only [Option.isSome_none, Option.isSome_some, Bool.false_eq_true, if_false, if_true]
        omega

/-- Every order of steps comes to an end. -/
theorem acc_of_invariant (hown : OwnFiles layout roots)
    (hfin : {key | Needs layout w roots key}.Finite) (h : Invariant layout w roots ps s) :
    Acc (fun t s => Step layout w s t) s := by
  have hwf : WellFounded (InvImage (Prod.Lex (· < ·) (Prod.Lex (· < ·) (· < ·)))
      (rank {key | Needs layout w roots key}.ncard)) :=
    InvImage.wf _ (Prod.lex Nat.lt_wfRel (Prod.lex Nat.lt_wfRel Nat.lt_wfRel)).wf
  induction s using hwf.induction generalizing ps with
  | _ s ih =>
      refine .intro s fun t hstep => ?_
      obtain ⟨qs, hqs⟩ := invariant_step h hown hstep
      exact ih t (rank_step h hown hfin hstep) hqs

/-- First in, first out is one of the runs, unless there are more needed packages than the
    workspace has room for. -/
theorem exists_run_load (hown : OwnFiles layout roots) :
    (∃ s, Reachable layout w roots s ∧ s.Complete ∧ s.outcome = load layout w roots) ∨
    ((∃ fault, load layout w roots = .error fault) ∧ ∃ keys : List String, keys.Nodup ∧
      (∀ key ∈ keys, Needs layout w roots key) ∧ w.capacity + roots.length < keys.length) := by
  obtain ⟨tasks, htasks⟩ := exists_mapM_eq_ok fun file hfile => hown.exists_rootTask hfile
  rw [load_eq_run htasks]
  rcases turns_run layout w (w.capacity + tasks.length) {} tasks
    (s := { roots := [], queue := tasks }) rfl rfl rfl rfl with
    ⟨s, hturns, hdone, hout⟩ | ⟨t, hturns, hmore, fault, herr⟩
  · exact .inl ⟨s, reachable_of_turns htasks hturns, hdone, hout⟩
  · -- the packages that were adopted are needed, and so is the one that is next
    obtain ⟨ps, h⟩ := invariant_reachable hown (reachable_of_turns htasks hturns)
    obtain ⟨task, rest, hqueue, hnew⟩ := hmore.next
    have hneeds := (h.queued task (hqueue ▸ List.mem_cons_self ..)).1
    have hlen := hmore.evaluated
    rw [h.evaluated hmore.fault, List.length_nil, Nat.zero_add, length_of_mapM htasks] at hlen
    refine .inr ⟨⟨fault, herr⟩, task.key :: ps.map Contents.key,
      List.nodup_cons.2 ⟨h.notMem_keys hnew, h.nodup⟩,
      List.forall_mem_cons.2 ⟨hneeds, h.needs_of_mem_keys⟩, ?_⟩
    rw [List.length_cons, hlen]
    exact Nat.lt_succ_self _

/-- Whatever the order in which tasks are taken, a run goes on until nothing is left to be
    done, and it ends if finitely many packages are needed; `load` is one of the runs.  A
    run ends without a fault if and only if every needed package loads.  Then the catalog
    holds the needed packages and no others, all of them done, each evaluated once and with
    the rules that its file declares in their order; and the catalogs of any two orders
    differ by a renumbering. -/
theorem load_in_any_order (layout : Layout) (w : Workspace) (roots : List Path)
    (hown : OwnFiles layout roots) :
    (∀ s, Reachable layout w roots s → s.Complete →
      ((∃ c, s.outcome = .ok c) ↔ ∀ key, Needs layout w roots key →
        ∃ p : Contents, p.key = key ∧ p.Loads layout w) ∧
      ∀ c, s.outcome = .ok c →
        (∀ key, c.contains key = true ↔ Needs layout w roots key) ∧
        (∀ q ∈ c.packages, q.state = .done) ∧
        (s.evaluated.Nodup ∧ ∀ key, key ∈ s.evaluated ↔ Needs layout w roots key) ∧
        (∀ p : Contents, Needs layout w roots p.key → p.Declared layout w → c.HasLoaded p) ∧
        ∀ t d, Reachable layout w roots t → t.Complete → t.outcome = .ok d →
          ∃ σ, c.Renumbers σ d) ∧
    (∀ s, Reachable layout w roots s → ¬ s.Complete → ∃ t, Step layout w s t) ∧
    (∀ c, load layout w roots = .ok c →
      ∃ s, Reachable layout w roots s ∧ s.Complete ∧ s.outcome = .ok c) ∧
    ({key | Needs layout w roots key}.Finite →
      (¬ ∃ run : Nat → Progress, run 0 = { roots } ∧ ∀ n, Step layout w (run n) (run (n + 1))) ∧
      ({key | Needs layout w roots key}.ncard ≤ w.capacity + roots.length →
        ∃ s, Reachable layout w roots s ∧ s.Complete ∧ s.outcome = load layout w roots)) := by
  refine ⟨fun s hs hdone => ⟨?_, fun c hout => ?_⟩, fun s _ hnot => ?_, fun c hload => ?_,
    fun hfin => ⟨?_, fun hcap => ?_⟩⟩
  · obtain ⟨ps, h⟩ := invariant_reachable hown hs
    rw [← h.fault_eq_none_iff hdone]
    constructor
    · rintro ⟨c, hout⟩
      exact (Progress.outcome_eq_ok_iff.1 hout).1
    · intro hnone
      exact ⟨s.catalog, Progress.outcome_eq_ok_iff.2 ⟨hnone, rfl⟩⟩
  · obtain ⟨ps, h⟩ := invariant_reachable hown hs
    obtain ⟨hnone, rfl⟩ := Progress.outcome_eq_ok_iff.1 hout
    refine ⟨fun key => ?_, fun q hq => ?_, ⟨?_, fun key => ?_⟩, fun p hneeds hp => ?_,
      fun t d ht hdone' hout' => ?_⟩
    · rw [h.contains_iff, h.mem_keys_iff hdone hnone]
    · rw [h.catalog] at hq
      exact (Catalog.state_adoptAll hq).resolve_left List.not_mem_nil
    · rw [h.evaluated hnone]
      exact h.nodup
    · rw [h.evaluated hnone, h.mem_keys_iff hdone hnone]
    · exact h.hasLoaded hdone hnone hneeds hp
    · obtain ⟨qs, h'⟩ := invariant_reachable hown ht
      obtain ⟨hnone', rfl⟩ := Progress.outcome_eq_ok_iff.1 hout'
      rw [h.catalog, h'.catalog]
      exact Catalog.renumbers_adoptAll (h.perm h' hdone hdone' hnone hnone') h.nodup
        Catalog.numbered_empty
  · by_contra hstuck
    exact hnot (complete_iff.2 hstuck)
  · rcases exists_run_load (w := w) hown with ⟨s, hs, hdone, hout⟩ | ⟨⟨fault, herr⟩, -⟩
    · exact ⟨s, hs, hdone, hout.trans hload⟩
    · rw [hload] at herr
      cases herr
  · rintro ⟨run, hstart, hsteps⟩
    have hacc := acc_of_invariant hown hfin (invariant_start layout w roots)
    exact not_acc_iff_exists_descending_chain.2 ⟨run, hstart, hsteps⟩ hacc
  · rcases exists_run_load (w := w) hown with hrun | ⟨-, keys, hnodup, hneeds, hlt⟩
    · exact hrun
    · exact absurd (hlt.trans_le ((length_le_ncard hfin hnodup hneeds).trans hcap)) (lt_irrefl _)

/-! ## Small projects -/

/-- A project in `/proj` without a builtin tree. -/
def plainLayout : Layout where
  projectRoot := ⟨"/proj"⟩
  buildRoot := ⟨"build"⟩
  buildFile := "BUILD"
  builtinRoot := none

/-- The call that declares a library. -/
def libraryCall (name : String) (deps : List String) : Call :=
  ⟨"cc_library", .ofList [("name", .text name), ("deps", .list deps)]⟩

/-- The library that the call declares. -/
def library (name : String) (deps : List String) : Declaration where
  type := .ccLibrary
  name := name
  version := "DEFAULT"
  deps := deps
  attributes := .cc {}

/-- The top package refers to the package `lib`. -/
def twoPackages : Workspace where
  evaluate file :=
    if file = ⟨"/proj/BUILD"⟩ then .ok [libraryCall "app" ["//lib:base"]]
    else if file = ⟨"/proj/lib/BUILD"⟩ then .ok [libraryCall "base" []]
    else .error (.fault (.io file.text .notFound))
  expand _ _ := .ok []
  capacity := 2

theorem ownFiles_top : OwnFiles plainLayout [⟨"BUILD"⟩] := by
  intro file hfile
  rw [List.mem_singleton.1 hfile]
  exact ⟨"", ⟨"/proj/BUILD"⟩, rfl, rfl⟩

theorem top_loads : Contents.Loads plainLayout twoPackages
    ⟨"", ⟨"/proj/BUILD"⟩, [library "app" ["//lib:base"]]⟩ where
  declared := ⟨rfl, [libraryCall "app" ["//lib:base"]], rfl, rfl⟩
  parses := by
    intro d hd raw hraw
    rw [List.mem_singleton.1 hd] at hraw
    rw [List.mem_singleton.1 hraw]
    exact ⟨⟨.absolute, some "lib", "base", none⟩, rfl⟩
  names := List.nodup_singleton _

theorem lib_loads : Contents.Loads plainLayout twoPackages
    ⟨"lib", ⟨"/proj/lib/BUILD"⟩, [library "base" []]⟩ where
  declared := ⟨rfl, [libraryCall "base" []], rfl, rfl⟩
  parses := by
    intro d hd raw hraw
    rw [List.mem_singleton.1 hd] at hraw
    exact absurd hraw List.not_mem_nil
  names := List.nodup_singleton _

theorem needs_top (w : Workspace) : Needs plainLayout w [⟨"BUILD"⟩] "" :=
  .root (List.mem_singleton_self _) (show _ = Except.ok ("", (⟨"/proj/BUILD"⟩ : Path)) from rfl)

/-- The two packages are loaded in every order. -/
theorem twoPackages_loaded : OwnFiles plainLayout [⟨"BUILD"⟩] ∧
    ∀ s, Reachable plainLayout twoPackages [⟨"BUILD"⟩] s → s.Complete →
      ∃ c, s.outcome = .ok c ∧ c.contains "lib" = true := by
  refine ⟨ownFiles_top, fun s hs hdone => ?_⟩
  have hruns := (load_in_any_order plainLayout twoPackages [⟨"BUILD"⟩] ownFiles_top).1 s hs hdone
  have hall : ∀ key, Needs plainLayout twoPackages [⟨"BUILD"⟩] key →
      ∃ p : Contents, p.key = key ∧ p.Loads plainLayout twoPackages := by
    have hkeys : ∀ key, Needs plainLayout twoPackages [⟨"BUILD"⟩] key → key = "" ∨ key = "lib" := by
      intro key hkey
      induction hkey with
      | root hmem hkey =>
          rw [List.mem_singleton.1 hmem] at hkey
          cases hkey
          exact .inl rfl
      | dependency _ hfile heval hcall hd htarget ih =>
          rcases ih with rfl | rfl
          · have ht := mem_targets top_loads.declared hfile heval hcall hd htarget
            exact .inr (List.mem_singleton.1 ht)
          · have ht := mem_targets lib_loads.declared hfile heval hcall hd htarget
            exact absurd ht List.not_mem_nil
    intro key hkey
    rcases hkeys key hkey with rfl | rfl
    · exact ⟨_, rfl, top_loads⟩
    · exact ⟨_, rfl, lib_loads⟩
  obtain ⟨c, hc⟩ := hruns.1.2 hall
  refine ⟨c, hc, ((hruns.2 c hc).1 "lib").2 ?_⟩
  exact (needs_top twoPackages).of_target top_loads.declared (List.mem_singleton_self "lib")

/-- The top package declares one name twice. -/
def oneNameTwice : Workspace where
  evaluate file :=
    if file = ⟨"/proj/BUILD"⟩ then .ok [libraryCall "base" [], libraryCall "base" []]
    else .error (.fault (.io file.text .notFound))
  expand _ _ := .ok []
  capacity := 1

/-- A package can be evaluated, with every call a declaration and every dependency a
    reference, and still fail to load. -/
theorem oneNameTwice_fails : OwnFiles plainLayout [⟨"BUILD"⟩] ∧
    (∀ key, Needs plainLayout oneNameTwice [⟨"BUILD"⟩] key →
      ∃ p : Contents, p.key = key ∧ p.Declared plainLayout oneNameTwice ∧ p.Parses) ∧
    ∃ s, Reachable plainLayout oneNameTwice [⟨"BUILD"⟩] s ∧ s.Complete ∧
      s.outcome = .error (.duplicateRule "" "base") := by
  have hdeclared : Contents.Declared plainLayout oneNameTwice
      ⟨"", ⟨"/proj/BUILD"⟩, [library "base" [], library "base" []]⟩ :=
    ⟨rfl, [libraryCall "base" [], libraryCall "base" []], rfl, rfl⟩
  have hparses : Contents.Parses
      ⟨"", ⟨"/proj/BUILD"⟩, [library "base" [], library "base" []]⟩ := by
    intro d hd raw hraw
    obtain rfl : d = library "base" [] := by simpa using hd
    exact absurd hraw List.not_mem_nil
  refine ⟨ownFiles_top, fun key hkey => ⟨_, ?_, hdeclared, hparses⟩, ?_⟩
  · induction hkey with
    | root hmem hkey =>
        rw [List.mem_singleton.1 hmem] at hkey
        cases hkey
        rfl
    | dependency _ hfile heval hcall hd htarget ih =>
        subst ih
        exact absurd (mem_targets hdeclared hfile heval hcall hd htarget) List.not_mem_nil
  · have htask : rootTask plainLayout ⟨"BUILD"⟩ = .ok ⟨"", ⟨"/proj/BUILD"⟩, none⟩ := rfl
    have hqueue : ({ roots := [], queue := [⟨"", ⟨"/proj/BUILD"⟩, none⟩] } : Progress).queue =
        [] ++ ⟨"", ⟨"/proj/BUILD"⟩, none⟩ :: [] := rfl
    exact ⟨_, .tail (.tail .refl (.root rfl htask)) (.task hqueue), ⟨rfl, rfl⟩, rfl⟩

end Buildwright.Loading
