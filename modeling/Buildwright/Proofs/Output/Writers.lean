import Buildwright.Proofs.Output.Files
import Buildwright.Proofs.Path.Order
import Mathlib.Data.List.Infix
import Mathlib.Data.List.Pairwise
import Mathlib.Data.List.Sort

/-! # Writers of one collection

    Any number of writers fill one collection of files.  What they do is told by a history, and
    the history alone says what has been stored: of the writers of a path, the first one that is
    flushed stores what it has been given until then, and from then on the path is taken.

    * `Writing`, `Action`, `Writing.run` — writers at work;
    * `Flushed`, `Stores` — what a history says has been stored;
    * `Writing.kept_run` — the invariant, from `Writing.kept_act`;
    * `Writing.interleaved_writers` — what is found, listed and refused. -/

namespace Buildwright

namespace GeneratedFiles

variable {g g' : GeneratedFiles} {path : Path} {content : String} {l : List (Path × String)}

/-! ## Files in order -/

theorem insert_eq_orderedInsert (path : Path) (content : String) (l : List (Path × String)) :
    insert path content l =
      l.orderedInsert (fun f f' => f.1.lt f'.1 = true) (path, content) := by
  induction l with
  | nil => rfl
  | cons f l ih => rw [insert, List.orderedInsert_cons, ih]

theorem mem_insert {f : Path × String} :
    f ∈ insert path content l ↔ f = (path, content) ∨ f ∈ l := by
  rw [insert_eq_orderedInsert, List.mem_orderedInsert]

/-- Files come in order of paths. -/
def Sorted (l : List (Path × String)) : Prop :=
  l.Pairwise fun f f' => f.1.lt f'.1 = true

/-- A file of another path is put where its path belongs. -/
theorem Sorted.insert (hl : Sorted l) (hnew : ∀ f ∈ l, ¬ f.1.Same path) :
    Sorted (insert path content l) := by
  induction hl with
  | nil => exact List.pairwise_singleton ..
  | @cons f l hf hl ih =>
      obtain ⟨hpath, hnew⟩ := List.forall_mem_cons.1 hnew
      rw [GeneratedFiles.insert]
      split_ifs with hlt
      · refine .cons (List.forall_mem_cons.2 ⟨hlt, fun f' hf' => ?_⟩) (.cons hf hl)
        exact Path.lt_trans hlt (hf f' hf')
      · refine .cons (fun f' hf' => ?_) (ih hnew)
        rcases mem_insert.1 hf' with rfl | hf'
        · exact Path.lt_of_not_lt hlt hpath
        · exact hf f' hf'

/-- What is found is a file of the path. -/
theorem exists_of_get?_eq_some (h : g.get? path = some content) :
    ∃ q, q.Same path ∧ (q, content) ∈ g.files := by
  obtain ⟨f, hf, rfl⟩ := Option.map_eq_some_iff.1 h
  have hsame := List.find?_some hf
  exact ⟨f.1, of_decide_eq_true hsame, List.mem_of_find?_eq_some hf⟩

/-- In order, a file is the only one of its path. -/
theorem get?_of_mem (hg : Sorted g.files) (h : (path, content) ∈ g.files) :
    g.get? path = some content := by
  cases hget : g.get? path with
  | none => exact absurd (.refl path) (get?_eq_none_iff.1 hget _ h)
  | some old =>
      obtain ⟨q, hq, hmem⟩ := exists_of_get?_eq_some hget
      by_cases heq : (q, old) = (path, content)
      · rw [(Prod.mk.inj heq).2]
      · -- one of the two files would come before the other
        have hne := hg.imp (S := fun f f' => ¬ f.1.Same f'.1) fun hlt => Path.not_same_of_lt hlt
        have : Std.Symm fun f f' : Path × String => ¬ f.1.Same f'.1 :=
          ⟨fun _ _ hne hsame => hne hsame.symm⟩
        exact absurd hq (hne.forall hmem h heq)

end GeneratedFiles

/-! ## Writers at work -/

/-- Files, and the writers that have been made, numbered in this order. -/
structure Writing where
  files : GeneratedFiles := {}
  writers : List Writer := []
deriving DecidableEq, Repr

/-- What is done to files and writers. -/
inductive Action where
  | create (path : Path)
  | write (i : Nat) (text : String)
  | writeLine (i : Nat) (text : String)
  /-- A formatted text is written in pieces. -/
  | format (i : Nat) (pieces : List String)
  | flush (i : Nat)
deriving DecidableEq, Repr

namespace Action

/-- The path of the writer that is made. -/
def path? : Action → Option Path
  | create path => some path
  | _ => none

/-- The writer that is used. -/
def writer? : Action → Option Nat
  | create _ => none
  | write i _ | writeLine i _ | format i _ | flush i => some i

/-- What is written. -/
def pieces : Action → List String
  | create _ | flush _ => []
  | write _ text => [text]
  | writeLine _ text => [text, "\n"]
  | format _ pieces => pieces

/-- What is given to a writer. -/
def given (i : Nat) (a : Action) : List String :=
  if a.writer? = some i then a.pieces else []

end Action

namespace Writing

/-- Do something with a writer, if it has been made. -/
def use (s : Writing) (i : Nat) (f : Writer → Writer) : Option (Writing × Outcome Unit) :=
  s.writers[i]?.map fun w => ({ s with writers := s.writers.set i (f w) }, .ok ())

/-- What an action leads to, and its answer; nothing for a writer that has not been made. -/
def act (s : Writing) : Action → Option (Writing × Outcome Unit)
  | .create path => some ({ s with writers := s.writers ++ [{ path }] }, .ok ())
  | .write i text => s.use i (·.write text)
  | .writeLine i text => s.use i (·.writeLine text)
  | .format i pieces => s.use i fun w => pieces.foldl Writer.write w
  | .flush i => s.writers[i]?.map fun w =>
    let (w, stored) := w.flush s.files
    let writers := s.writers.set i w
    match stored with
    | .ok files => (⟨files, writers⟩, .ok ())
    | .error fault => (⟨s.files, writers⟩, .error fault)

/-- Actions on nothing, one after the other. -/
def run (history : List Action) : Option Writing :=
  history.foldlM (fun s a => (s.act a).map Prod.fst) {}

end Writing

variable {s t : Writing} {a : Action} {answer : Outcome Unit} {history before : List Action}
  {writers : List Writer} {w v : Writer} {i j : Nat} {path : Path} {content : String}

theorem Writer.foldl_write (w : Writer) (pieces : List String) :
    pieces.foldl Writer.write w = { w with buffer := w.buffer ++ String.join pieces } := by
  induction pieces generalizing w with
  | nil => rw [String.join_nil, String.append_empty]; rfl
  | cons piece pieces ih =>
      rw [List.foldl_cons, ih, Writer.write, String.join_cons, String.append_assoc]

namespace GeneratedFiles

variable {g : GeneratedFiles}

theorem store_of_get?_eq_none (h : g.get? path = none) :
    g.store path content = .ok ⟨insert path content g.files⟩ := by
  rw [store, h]
  rfl

theorem store_of_get?_ne_none (h : g.get? path ≠ none) :
    g.store path content = .error (.internal (path.text ++ " was generated more than once")) := by
  rw [store, if_pos (Option.isSome_iff_ne_none.2 h)]

end GeneratedFiles

namespace Writing

theorem use_cases {f : Writer → Writer} (h : s.use i f = some (t, answer)) :
    ∃ w, s.writers[i]? = some w ∧ answer = .ok () ∧
      t = { s with writers := s.writers.set i (f w) } := by
  obtain ⟨w, hw, heq⟩ := Option.map_eq_some_iff.1 h
  obtain ⟨rfl, rfl⟩ := Prod.mk.inj heq
  exact ⟨w, hw, rfl, rfl⟩

/-- Everything an action can do: a writer is made, or what is written goes into the buffer of
    one, or a writer is flushed.  Then its buffer is empty, and what was in it is stored unless
    the path is taken. -/
theorem act_cases (h : s.act a = some (t, answer)) :
    (∃ path, a = .create path ∧ t = { s with writers := s.writers ++ [{ path }] } ∧
      answer = .ok ()) ∨
    (∃ i w, a.writer? = some i ∧ a.path? = none ∧ (∀ j, a ≠ .flush j) ∧
      s.writers[i]? = some w ∧ answer = .ok () ∧ t = { s with
        writers := s.writers.set i { w with buffer := w.buffer ++ String.join a.pieces } }) ∨
    ∃ i w, a = .flush i ∧ s.writers[i]? = some w ∧
      t.writers = s.writers.set i { w with buffer := "" } ∧
      (s.files.get? w.path = none ∧ answer = .ok () ∧
          t.files = ⟨GeneratedFiles.insert w.path w.buffer s.files.files⟩ ∨
        s.files.get? w.path ≠ none ∧ t.files = s.files ∧
          answer = .error (.internal (w.path.text ++ " was generated more than once"))) := by
  cases a with
  | create path =>
      obtain ⟨rfl, rfl⟩ := Prod.mk.inj (Option.some.inj h)
      exact .inl ⟨path, rfl, rfl, rfl⟩
  | write i _ | writeLine i _ | format i _ =>
      obtain ⟨w, hw, rfl, rfl⟩ := use_cases h
      refine .inr (.inl ⟨i, w, rfl, rfl, nofun, hw, rfl, ?_⟩)
      rw [← Writer.foldl_write]
      rfl
  | flush i =>
      obtain ⟨w, hw, heq⟩ := Option.map_eq_some_iff.1 h
      refine .inr (.inr ⟨i, w, rfl, hw, ?_⟩)
      rw [Writer.flush] at heq
      by_cases hget : s.files.get? w.path = none
      · rw [GeneratedFiles.store_of_get?_eq_none hget] at heq
        obtain ⟨rfl, rfl⟩ := Prod.mk.inj heq
        exact ⟨rfl, .inl ⟨hget, rfl, rfl⟩⟩
      · rw [GeneratedFiles.store_of_get?_ne_none hget] at heq
        obtain ⟨rfl, rfl⟩ := Prod.mk.inj heq
        exact ⟨rfl, .inr ⟨hget, rfl, rfl⟩⟩

/-- An action can be done when its writer has been made. -/
theorem isSome_act_iff : (s.act a).isSome ↔ ∀ i, a.writer? = some i → i < s.writers.length := by
  cases a with
  | create path => exact iff_of_true rfl nofun
  | _ i =>
      have hmade : s.writers[i]?.isSome ↔ i < s.writers.length := by
        rw [Option.isSome_iff_ne_none, Ne, List.getElem?_eq_none_iff, Nat.not_le]
      simp only [act, use, Option.isSome_map, hmade]
      exact ⟨fun h j hj => Option.some.inj hj ▸ h, fun h => h i rfl⟩

end Writing

/-! ## Histories -/

/-- The paths of the writers that have been made. -/
def created (history : List Action) : List Path :=
  history.filterMap Action.path?

/-- What has been given to a writer. -/
def given (history : List Action) (i : Nat) : String :=
  String.join (history.flatMap (Action.given i))

/-- A writer of the path has been flushed. -/
def Flushed (history : List Action) (path : Path) : Prop :=
  ∃ before i q, before ++ [.flush i] <+: history ∧ (created before)[i]? = some q ∧ q.Same path

/-- The first writer of the path that has been flushed had been given the content. -/
def Stores (history : List Action) (path : Path) (content : String) : Prop :=
  ∃ before i, before ++ [.flush i] <+: history ∧ (created before)[i]? = some path ∧
    ¬ Flushed before path ∧ content = given before i

theorem created_concat : created (history ++ [a]) = created history ++ a.path?.toList := by
  rw [created, List.filterMap_append]
  cases hpath : a.path? <;> simp [created, hpath]

theorem given_concat : given (history ++ [a]) i = given history i ++ String.join (a.given i) := by
  rw [given, List.flatMap_append, String.join_append, List.flatMap_singleton]
  rfl

/-- Only the writer that is written to is given something. -/
theorem given_concat_of_ne (h : a.writer? = some i → a.pieces = []) :
    given (history ++ [a]) i = given history i := by
  rw [given_concat, Action.given]
  split_ifs with hi
  · rw [h hi, String.join_nil, String.append_empty]
  · rw [String.join_nil, String.append_empty]

theorem flushed_concat : Flushed (history ++ [a]) path ↔ Flushed history path ∨
    ∃ i q, a = .flush i ∧ (created history)[i]? = some q ∧ q.Same path := by
  constructor
  · rintro ⟨before, i, q, hbefore, hq, hsame⟩
    rcases List.prefix_concat_iff.1 hbefore with heq | hbefore
    · obtain ⟨rfl, hlast⟩ := List.append_inj' heq rfl
      exact .inr ⟨i, q, (List.singleton_inj.1 hlast).symm, hq, hsame⟩
    · exact .inl ⟨before, i, q, hbefore, hq, hsame⟩
  · rintro (⟨before, i, q, hbefore, hq, hsame⟩ | ⟨i, q, rfl, hq, hsame⟩)
    · exact ⟨before, i, q, hbefore.trans (List.prefix_append ..), hq, hsame⟩
    · exact ⟨history, i, q, List.prefix_refl _, hq, hsame⟩

theorem stores_concat : Stores (history ++ [a]) path content ↔ Stores history path content ∨
    ∃ i, a = .flush i ∧ (created history)[i]? = some path ∧ ¬ Flushed history path ∧
      content = given history i := by
  constructor
  · rintro ⟨before, i, hbefore, hpath, hnew, hcontent⟩
    rcases List.prefix_concat_iff.1 hbefore with heq | hbefore
    · obtain ⟨rfl, hlast⟩ := List.append_inj' heq rfl
      exact .inr ⟨i, (List.singleton_inj.1 hlast).symm, hpath, hnew, hcontent⟩
    · exact .inl ⟨before, i, hbefore, hpath, hnew, hcontent⟩
  · rintro (⟨before, i, hbefore, hpath⟩ | ⟨i, rfl, hpath⟩)
    · exact ⟨before, i, hbefore.trans (List.prefix_append ..), hpath⟩
    · exact ⟨history, i, List.prefix_refl _, hpath⟩

theorem Flushed.congr {q : Path} (hsame : path.Same q) (h : Flushed history path) :
    Flushed history q := by
  obtain ⟨before, i, p, hbefore, hp, hpath⟩ := h
  exact ⟨before, i, p, hbefore, hp, hpath.trans hsame⟩

/-- When writers of a path have been flushed, one was the first. -/
theorem flushed_iff : Flushed history path ↔
    ∃ q content, q.Same path ∧ Stores history q content := by
  constructor
  · intro h
    induction history using List.reverseRecOn with
    | nil =>
        obtain ⟨before, i, q, hbefore, -⟩ := h
        exact absurd (List.prefix_nil.1 hbefore)
          (List.append_ne_nil_of_right_ne_nil _ (List.cons_ne_nil _ _))
    | append_singleton history a ih =>
        by_cases hold : Flushed history path
        · obtain ⟨q, content, hsame, hq⟩ := ih hold
          exact ⟨q, content, hsame, stores_concat.2 (.inl hq)⟩
        · obtain ⟨i, q, ha, hq, hsame⟩ := (flushed_concat.1 h).resolve_left hold
          have hnew : ¬ Flushed history q := fun hq => hold (hq.congr hsame)
          exact ⟨q, _, hsame, stores_concat.2 (.inr ⟨i, ha, hq, hnew, rfl⟩)⟩
  · rintro ⟨q, content, hsame, before, i, hbefore, hq, -⟩
    exact ⟨before, i, q, hbefore, hq, hsame⟩

/-! ## What is kept -/

namespace Writing

/-- Writers and files are as a history tells. -/
structure Kept (history : List Action) (s : Writing) : Prop where
  paths : s.writers.map Writer.path = created history
  buffers : ∀ i w, s.writers[i]? = some w → ¬ Flushed history w.path → w.buffer = given history i
  fresh : ∀ i, s.writers.length ≤ i → given history i = ""
  files : ∀ path content, (path, content) ∈ s.files.files ↔ Stores history path content
  sorted : GeneratedFiles.Sorted s.files.files

theorem Kept.created_eq (hk : Kept history s) (hw : s.writers[i]? = some w) :
    (created history)[i]? = some w.path := by
  rw [← hk.paths, List.getElem?_map, hw]
  rfl

/-- Nothing is found for a path if and only if no writer of it has been flushed. -/
theorem Kept.get?_eq_none_iff (hk : Kept history s) :
    s.files.get? path = none ↔ ¬ Flushed history path := by
  rw [GeneratedFiles.get?_eq_none_iff, flushed_iff]
  constructor
  · rintro h ⟨q, content, hsame, hq⟩
    exact h _ ((hk.files q content).2 hq) hsame
  · exact fun h f hf hsame => h ⟨f.1, f.2, hsame, (hk.files f.1 f.2).1 hf⟩

theorem kept_nil : Kept [] {} where
  paths := rfl
  buffers := nofun
  fresh _ _ := String.join_nil
  files _ _ := by
    refine iff_of_false List.not_mem_nil ?_
    rintro ⟨before, i, hbefore, -⟩
    exact List.append_ne_nil_of_right_ne_nil _ (List.cons_ne_nil _ _) (List.prefix_nil.1 hbefore)
  sorted := .nil

/-- Putting a writer of the same path in the place of one does not change the paths. -/
theorem map_path_set (hw : writers[i]? = some w) (hpath : v.path = w.path) :
    (writers.set i v).map Writer.path = writers.map Writer.path := by
  obtain ⟨hi, rfl⟩ := List.getElem?_eq_some_iff.1 hw
  rw [List.map_set, hpath, ← List.getElem_map Writer.path (h := by rwa [List.length_map]),
    List.set_getElem_self]

theorem kept_create (hk : Kept history s) (path : Path) :
    Kept (history ++ [.create path]) { s with writers := s.writers ++ [{ path }] } where
  paths := by
    rw [created_concat, List.map_append, hk.paths]
    rfl
  buffers i w hw hnew := by
    rw [given_concat_of_ne (a := .create path) nofun]
    rw [flushed_concat, not_or] at hnew
    rcases Nat.lt_or_ge i s.writers.length with hi | hi
    · rw [List.getElem?_append_left hi] at hw
      exact hk.buffers i w hw hnew.1
    · rw [List.getElem?_append_right hi] at hw
      obtain rfl := List.mem_singleton.1 (List.mem_of_getElem? hw)
      exact (hk.fresh i hi).symm
  fresh i hi := by
    rw [List.length_append] at hi
    rw [given_concat_of_ne (a := .create path) nofun]
    exact hk.fresh i (Nat.le_of_add_right_le hi)
  files path content := by
    rw [hk.files, stores_concat]
    exact ⟨.inl, fun h => h.resolve_right nofun⟩
  sorted := hk.sorted

theorem kept_write (hk : Kept history s) (hi : a.writer? = some i) (hpath : a.path? = none)
    (ha : ∀ j, a ≠ .flush j) (hw : s.writers[i]? = some w) :
    Kept (history ++ [a]) { s with
      writers := s.writers.set i { w with buffer := w.buffer ++ String.join a.pieces } } where
  paths := by
    rw [map_path_set hw, hk.paths, created_concat, hpath, Option.toList_none, List.append_nil]
    rfl
  buffers j v hv hnew := by
    rw [flushed_concat, not_or] at hnew
    rw [List.getElem?_set] at hv
    split_ifs at hv with hj hlt
    · obtain rfl := Option.some.inj hv
      subst hj
      rw [given_concat, Action.given, if_pos hi, ← hk.buffers i w hw hnew.1]
    · rw [given_concat_of_ne fun h => absurd (Option.some.inj (hi.symm.trans h)) hj]
      exact hk.buffers j v hv hnew.1
  fresh j hj := by
    rw [List.length_set] at hj
    have hne : i ≠ j := fun h => absurd (List.getElem?_eq_some_iff.1 hw).1 (h ▸ Nat.not_lt.2 hj)
    rw [given_concat_of_ne fun h => absurd (Option.some.inj (hi.symm.trans h)) hne]
    exact hk.fresh j hj
  files path content := by
    rw [hk.files, stores_concat]
    exact ⟨.inl, fun h => h.resolve_right fun ⟨j, hj, _⟩ => ha j hj⟩
  sorted := hk.sorted

/-- What a flush does to the writers, it does whether or not the path is taken. -/
theorem kept_flush (hk : Kept history s) (hw : s.writers[i]? = some w)
    (hwriters : t.writers = s.writers.set i { w with buffer := "" })
    (hfiles : ∀ path content, (path, content) ∈ t.files.files ↔
      Stores (history ++ [.flush i]) path content)
    (hsorted : GeneratedFiles.Sorted t.files.files) : Kept (history ++ [.flush i]) t where
  paths := by
    rw [hwriters, map_path_set hw, hk.paths, created_concat]
    exacts [(List.append_nil _).symm, rfl]
  buffers j v hv hnew := by
    rw [flushed_concat, not_or] at hnew
    rw [hwriters, List.getElem?_set] at hv
    split_ifs at hv with hj hlt
    · obtain rfl := Option.some.inj hv
      exact absurd ⟨i, w.path, rfl, hk.created_eq hw, .refl _⟩ hnew.2
    · rw [given_concat_of_ne fun _ => rfl]
      exact hk.buffers j v hv hnew.1
  fresh j hj := by
    rw [hwriters, List.length_set] at hj
    rw [given_concat_of_ne fun _ => rfl]
    exact hk.fresh j hj
  files := hfiles
  sorted := hsorted

/-- **One action keeps writers and files as the history tells.** -/
theorem kept_act (hk : Kept history s) (h : s.act a = some (t, answer)) :
    Kept (history ++ [a]) t := by
  rcases act_cases h with ⟨path, rfl, rfl, -⟩ | ⟨i, w, hi, hpath, ha, hw, -, rfl⟩ |
    ⟨i, w, rfl, hw, hwriters, hstored⟩
  · exact kept_create hk path
  · exact kept_write hk hi hpath ha hw
  · have hmade := hk.created_eq hw
    rcases hstored with ⟨hnone, -, hfiles⟩ | ⟨hsome, hfiles, -⟩
    · have hnew := hk.get?_eq_none_iff.1 hnone
      refine kept_flush hk hw hwriters (fun path content => ?_) ?_
      · rw [hfiles, GeneratedFiles.mem_insert, stores_concat, hk.files, or_comm]
        refine or_congr_right ⟨fun heq => ?_, ?_⟩
        · obtain ⟨rfl, rfl⟩ := Prod.mk.inj heq
          exact ⟨i, rfl, hmade, hnew, hk.buffers i w hw hnew⟩
        · rintro ⟨j, hj, hpath, -, rfl⟩
          obtain rfl := Action.flush.inj hj
          obtain rfl := Option.some.inj (hmade.symm.trans hpath)
          rw [hk.buffers i w hw hnew]
      · rw [hfiles]
        exact hk.sorted.insert (GeneratedFiles.get?_eq_none_iff.1 hnone)
    · refine kept_flush hk hw hwriters (fun path content => ?_) (hfiles ▸ hk.sorted)
      rw [hfiles, stores_concat, hk.files]
      refine ⟨.inl, fun h => h.resolve_right ?_⟩
      rintro ⟨j, hj, hpath, hnew, -⟩
      obtain rfl := Action.flush.inj hj
      obtain rfl := Option.some.inj (hmade.symm.trans hpath)
      exact hsome (hk.get?_eq_none_iff.2 hnew)

/-- Writers and files are always as the history tells. -/
theorem kept_run (h : run history = some s) : Kept history s := by
  induction history using List.reverseRecOn generalizing s with
  | nil =>
      obtain rfl := Option.some.inj h
      exact kept_nil
  | append_singleton history a ih =>
      rw [run, List.foldlM_append] at h
      obtain ⟨r, hr, hlast⟩ := Option.bind_eq_some_iff.1 h
      rw [List.foldlM_cons] at hlast
      obtain ⟨t, ht, heq⟩ := Option.bind_eq_some_iff.1 hlast
      obtain rfl := Option.some.inj heq
      obtain ⟨⟨t, answer⟩, hact, rfl⟩ := Option.map_eq_some_iff.1 ht
      exact kept_act (ih hr) hact

/-- Only a flush changes files or is refused. -/
theorem act_of_ne_flush (h : s.act a = some (t, answer)) (ha : ∀ i, a ≠ .flush i) :
    answer = .ok () ∧ t.files = s.files := by
  rcases act_cases h with ⟨path, rfl, rfl, hanswer⟩ | ⟨i, w, -, -, -, -, hanswer, rfl⟩ |
    ⟨i, w, rfl, -⟩
  · exact ⟨hanswer, rfl⟩
  · exact ⟨hanswer, rfl⟩
  · exact absurd rfl (ha i)

namespace Kept

theorem get?_eq_some_iff (hk : Kept history s) : s.files.get? path = some content ↔
    ∃ q, q.Same path ∧ Stores history q content := by
  constructor
  · intro hget
    obtain ⟨q, hsame, hmem⟩ := GeneratedFiles.exists_of_get?_eq_some hget
    exact ⟨q, hsame, (hk.files q content).1 hmem⟩
  · rintro ⟨q, hsame, hq⟩
    rw [GeneratedFiles.get?_congr hsame]
    exact GeneratedFiles.get?_of_mem hk.sorted ((hk.files q content).2 hq)

theorem mem_paths_iff (hk : Kept history s) :
    path ∈ s.files.paths ↔ ∃ content, Stores history path content := by
  rw [GeneratedFiles.paths, List.mem_map]
  constructor
  · rintro ⟨f, hf, rfl⟩
    exact ⟨f.2, (hk.files f.1 f.2).1 hf⟩
  · rintro ⟨content, hpath⟩
    exact ⟨(path, content), (hk.files path content).2 hpath, rfl⟩

/-- The first flush of a path stores what its writer has been given, and a later one is a fault
    and changes no file. -/
theorem act_flush (hk : Kept history s) (h : s.act (.flush i) = some (t, answer)) :
    ∃ path, (created history)[i]? = some path ∧
      (¬ Flushed history path → answer = .ok () ∧ ∀ q, t.files.get? q =
        if path.Same q then some (given history i) else s.files.get? q) ∧
      (Flushed history path → t.files = s.files ∧
        answer = .error (.internal (path.text ++ " was generated more than once"))) := by
  rcases act_cases h with ⟨path, hpath, -⟩ | ⟨j, w, -, -, hflush, -⟩ | ⟨j, w, hj, hw, -, hstored⟩
  · cases hpath
  · exact absurd rfl (hflush i)
  · obtain rfl := Action.flush.inj hj
    have hnone : s.files.get? w.path = none ↔ ¬ Flushed history w.path := hk.get?_eq_none_iff
    refine ⟨w.path, hk.created_eq hw, fun hnew => ?_, fun hold => ?_⟩
    · obtain ⟨hget, hanswer, hfiles⟩ := hstored.resolve_right fun hsome =>
        hsome.1 (hnone.2 hnew)
      have hstore : s.files.store w.path w.buffer = .ok t.files := by
        rw [GeneratedFiles.store_of_get?_eq_none hget, hfiles]
      refine ⟨hanswer, fun q => ?_⟩
      rw [GeneratedFiles.get?_store hstore, hk.buffers i w hw hnew]
    · exact (hstored.resolve_left fun hnew => hnone.1 hnew.1 hold).2

end Kept

/-- **Writers do not mix.** Whatever has been done with any number of writers, the content of a
    path is what the first of its writers that was flushed had been given until then, and nothing
    is found for a path none of whose writers has been flushed.  Everything can be done with the
    writers that have been made.  Only a flush changes files or is refused: the first one of a path
    stores what its writer has been given, and each later one is a fault and changes no file.  The
    paths that are listed are those that have been stored, once each and in order. -/
theorem interleaved_writers (h : run history = some s) :
    (∀ path content, s.files.get? path = some content ↔
      ∃ q, q.Same path ∧ Stores history q content) ∧
    (∀ path, s.files.get? path = none ↔ ¬ Flushed history path) ∧
    (∀ a : Action, (s.act a).isSome ↔
      ∀ i, a.writer? = some i → i < (created history).length) ∧
    (∀ a t answer, s.act a = some (t, answer) → (∀ i, a ≠ .flush i) →
      answer = .ok () ∧ t.files = s.files) ∧
    (∀ i t answer, s.act (.flush i) = some (t, answer) → ∃ path,
      (created history)[i]? = some path ∧
      (¬ Flushed history path → answer = .ok () ∧ ∀ q, t.files.get? q =
        if path.Same q then some (given history i) else s.files.get? q) ∧
      (Flushed history path → t.files = s.files ∧
        answer = .error (.internal (path.text ++ " was generated more than once")))) ∧
    (∀ path, path ∈ s.files.paths ↔ ∃ content, Stores history path content) ∧
    s.files.paths.Pairwise (fun p q => p.lt q = true ∧ ¬ p.Same q) := by
  have hk := kept_run h
  refine ⟨fun _ _ => hk.get?_eq_some_iff, fun _ => hk.get?_eq_none_iff, fun a => ?_,
    fun _ _ _ hact ha => act_of_ne_flush hact ha, fun _ _ _ hact => hk.act_flush hact,
    fun _ => hk.mem_paths_iff, ?_⟩
  · rw [isSome_act_iff, ← hk.paths, List.length_map]
  · rw [GeneratedFiles.paths, List.pairwise_map]
    exact hk.sorted.imp fun hlt => ⟨hlt, Path.not_same_of_lt hlt⟩

/-- Two writers of one path, spelled in two ways, at work in turns: the second one is flushed
    first, and what the first one has been given is not stored. -/
theorem interleaved_writers_spelled_twice :
    ∃ s t : Writing,
      run [.create ⟨"x/y"⟩, .write 0 "a", .create ⟨"x//y"⟩, .writeLine 1 "b", .flush 1,
        .format 0 ["c", "d"]] = some s ∧
      s.files.get? ⟨"x/y"⟩ = some "b\n" ∧ t.files = s.files ∧
      s.act (.flush 0) = some (t, .error (.internal "x/y was generated more than once")) := by
  have hrun : ∃ s, run [.create ⟨"x/y"⟩, .write 0 "a", .create ⟨"x//y"⟩, .writeLine 1 "b",
      .flush 1, .format 0 ["c", "d"]] = some s := ⟨_, rfl⟩
  obtain ⟨s, h⟩ := hrun
  obtain ⟨hfound, -, hcan, -, hflush, -⟩ := interleaved_writers h
  have hfirst : ¬ Flushed [.create ⟨"x/y"⟩, .write 0 "a", .create ⟨"x//y"⟩, .writeLine 1 "b"]
      ⟨"x//y"⟩ := by
    rintro ⟨before, i, q, hbefore, -⟩
    have hmem := hbefore.subset (List.mem_append_right before (List.mem_singleton_self _))
    simp at hmem
  have hstores : Stores _ ⟨"x//y"⟩ "b\n" :=
    ⟨[.create ⟨"x/y"⟩, .write 0 "a", .create ⟨"x//y"⟩, .writeLine 1 "b"], 1,
      ⟨[.format 0 ["c", "d"]], rfl⟩, rfl, hfirst, rfl⟩
  obtain ⟨⟨t, answer⟩, hact⟩ := Option.isSome_iff_exists.1
    ((hcan (.flush 0)).2 fun i hi => Option.some.inj hi ▸ Nat.zero_lt_two)
  obtain ⟨path, hpath, -, hrefused⟩ := hflush 0 t answer hact
  obtain rfl : (⟨"x/y"⟩ : Path) = path := Option.some.inj hpath
  obtain ⟨hfiles, rfl⟩ := hrefused (flushed_iff.2 ⟨_, _, by decide, hstores⟩)
  exact ⟨s, t, h, (hfound _ _).2 ⟨_, by decide, hstores⟩, hfiles, hact⟩

end Writing

end Buildwright
