import Buildwright.DeclarationFile
import Buildwright.Proofs.Lookup
import Buildwright.Proofs.Outcome
import Mathlib.Algebra.Group.Int.Defs
import Mathlib.Control.Monad.Basic

/-! # Declaration files

    Reading a declaration file narrows a document to calls.  Nothing is lost on the way:
    calls written back are the document that they were read from, where what was left out
    is written as empty.  Nothing else is read: a document of another shape is refused at
    its first offence, in the order of the document.

    * `Document.Written` — the documents of trees; the keys of their maps are distinct;
    * `Document.IsDeclarations` — the documents that declare calls;
    * `Document.ofCalls`, `Document.explicit` — calls written back;
    * `DeclarationFile.Refused` — what a document is refused for;
    * `DeclarationFile.read_exact` — reading is exact and loses nothing. -/

namespace Buildwright

namespace Document

variable {d : Document} {entries : List (String × Document)} {items : List Document}

/-! ## Documents of trees -/

/-- Whether a document is what a tree stands for. -/
def Written (d : Document) : Prop :=
  ∃ t, ofTree? t = some d

/-- A plain scalar has no parts. -/
theorem ofPlain_ne (s : String) : (∀ items, ofPlain s ≠ list items) ∧
    ∀ entries, ofPlain s ≠ map entries := by
  simp only [ofPlain]
  split
  · exact ⟨nofun, nofun⟩
  · split
    · exact ⟨nofun, nofun⟩
    · split <;> exact ⟨nofun, nofun⟩

/-- A scalar has no parts. -/
theorem ofScalar?_ne (style : Yaml.Style) (tag : Yaml.Tag) (s : String) :
    (∀ items, ofScalar? style tag s ≠ some (list items)) ∧
      ∀ entries, ofScalar? style tag s ≠ some (map entries) := by
  unfold ofScalar?
  split
  · exact ⟨nofun, nofun⟩
  · cases tag.textOf? s with
    | none => exact ⟨nofun, nofun⟩
    | some s =>
        rw [Option.map_some]
        split
        · exact ⟨fun items h => (ofPlain_ne s).1 items (Option.some.inj h),
            fun entries h => (ofPlain_ne s).2 entries (Option.some.inj h)⟩
        · exact ⟨nofun, nofun⟩

theorem written_of_ofTrees? {ts : List Yaml.Tree} (h : ofTrees? ts = some items) :
    ∀ d ∈ items, d.Written := by
  induction ts generalizing items with
  | nil =>
      cases h
      exact List.forall_mem_nil _
  | cons t ts ih =>
      obtain ⟨d, hd, h⟩ := Option.bind_eq_some_iff.1 h
      obtain ⟨rest, hrest, h⟩ := Option.bind_eq_some_iff.1 h
      cases h
      exact List.forall_mem_cons.2 ⟨⟨t, hd⟩, ih hrest⟩

theorem written_of_ofEntries? {es : List (Yaml.Key × Yaml.Tree)}
    (h : ofEntries? es = some entries) : ∀ d ∈ entries.map Prod.snd, d.Written := by
  induction es generalizing entries with
  | nil =>
      cases h
      exact List.forall_mem_nil _
  | cons e es ih =>
      obtain ⟨key, t⟩ := e
      obtain ⟨name, -, h⟩ := Option.bind_eq_some_iff.1 h
      obtain ⟨d, hd, h⟩ := Option.bind_eq_some_iff.1 h
      obtain ⟨rest, hrest, h⟩ := Option.bind_eq_some_iff.1 h
      cases h
      exact List.forall_mem_cons.2 ⟨⟨t, hd⟩, ih hrest⟩

/-- The items of a list that is written are. -/
theorem Written.list (h : (Document.list items).Written) : ∀ d ∈ items, d.Written := by
  obtain ⟨t, ht⟩ := h
  cases t with
  | malformed => cases ht
  | scalar style tag s => exact absurd ht ((ofScalar?_ne style tag s).1 items)
  | sequence ts =>
      obtain ⟨items', hitems, h⟩ := Option.map_eq_some_iff.1 ht
      cases h
      exact written_of_ofTrees? hitems
  | mapping es =>
      obtain ⟨_, -, h⟩ := Option.map_eq_some_iff.1 ht
      cases h

/-- The keys of a map that is written are distinct, and its values are written. -/
theorem Written.map (h : (Document.map entries).Written) :
    (entries.map Prod.fst).Nodup ∧ ∀ e ∈ entries, e.2.Written := by
  obtain ⟨t, ht⟩ := h
  cases t with
  | malformed => cases ht
  | scalar style tag s => exact absurd ht ((ofScalar?_ne style tag s).2 entries)
  | sequence ts =>
      obtain ⟨_, -, h⟩ := Option.map_eq_some_iff.1 ht
      cases h
  | mapping es =>
      obtain ⟨entries', hentries, h⟩ := Option.map_eq_some_iff.1 ht
      cases h
      have hnil : (([] : List (String × Document)).map Prod.fst).Nodup := List.nodup_nil
      obtain ⟨hnodup, hmem⟩ := foldl_setEntry entries' hnil
      exact ⟨hnodup, fun e he => written_of_ofEntries? hentries _
        ((hmem e he).resolve_left List.not_mem_nil)⟩

theorem written_of_ofText? {s : String} (h : ofText? s = some d) : d.Written := by
  unfold ofText? at h
  split at h
  · cases h
  · cases h
    exact ⟨.scalar .plain .null "", rfl⟩
  · exact ⟨_, h⟩

/-! ## Shapes -/

/-- Whether a value is one that an argument can have. -/
inductive IsArgument : Document → Prop where
  | text (s : String) : IsArgument (text s)
  | flag (b : Bool) : IsArgument (flag b)
  | number (n : Int) (hlow : -2 ^ 63 ≤ n) (hhigh : n < 2 ^ 63) : IsArgument (number (.integer n))
  | texts (items : List String) : IsArgument (list (items.map text))

/-- Whether an entry has one key, with arguments or with nothing. -/
inductive IsCall : Document → Prop where
  | bare (typeName : String) : IsCall (map [(typeName, null)])
  | call (typeName : String) (entries : List (String × Document))
      (h : ∀ e ∈ entries, e.2.IsArgument) : IsCall (map [(typeName, map entries)])

/-- Whether a document declares calls, or nothing. -/
inductive IsDeclarations : Document → Prop where
  | nothing : IsDeclarations null
  | calls (entries : List Document) (h : ∀ entry ∈ entries, entry.IsCall) :
      IsDeclarations (list entries)

/-! ## Calls written back -/

def ofArgument : Argument → Document
  | .text s => text s
  | .list items => list (items.map text)
  | .flag b => flag b
  | .number n => number (.integer n)

def ofCall (call : Call) : Document :=
  map [(call.typeName, map (call.arguments.entries.map fun e => (e.1, ofArgument e.2)))]

def ofCalls (calls : List Call) : Document :=
  list (calls.map ofCall)

/-- An entry whose arguments are written as an empty map if they were left out. -/
def withArguments : Document → Document
  | map [(typeName, null)] => map [(typeName, map [])]
  | entry => entry

/-- A document without what was left out: its calls are written as an empty list, or the
    arguments of a call as an empty map. -/
def explicit : Document → Document
  | null => list []
  | list entries => list (entries.map withArguments)
  | document => document

end Document

namespace DeclarationFile

open Document (IsArgument IsCall IsDeclarations Written ofArgument)

/-! ## What a document is refused for -/

/-- What is wrong with the value of an argument. -/
inductive Unfit : Document → String → Prop where
  | number (n : DocumentNumber) (h : ¬ IsArgument (.number n)) :
      Unfit (.number n) ("must be an integer, found " ++ n.text)
  | item (front : List String) (item : Document) (back : List Document)
      (h : ∀ s, item ≠ .text s) : Unfit (.list (front.map .text ++ item :: back))
        ("must be a list of strings, found " ++ item.kind)
  | null : Unfit .null "has unsupported type null"
  | map (entries : List (String × Document)) : Unfit (.map entries) "has unsupported type map"

/-- What is wrong with the entry at place `i`.  Of its arguments the first that is unfit is
    to blame. -/
inductive Blamed (i : Nat) : Document → String → Prop where
  | notAMap (entry : Document) (h : ∀ es, entry ≠ .map es) :
      Blamed i entry ("entry " ++ toString i ++ " must be a map of rule type to arguments")
  | notOneKey (es : List (String × Document)) (h : es.length ≠ 1) :
      Blamed i (.map es) ("entry " ++ toString i ++ " must have exactly one rule type key")
  | notArguments (typeName : String) (value : Document) (hnull : value ≠ .null)
      (hmap : ∀ es, value ≠ .map es) : Blamed i (.map [(typeName, value)])
        ("arguments of " ++ typeName ++ " must be a map, found " ++ value.kind)
  | argument (typeName : String) (front : List (String × Document)) (name : String)
      (value : Document) (back : List (String × Document)) (reason : String)
      (hfront : ∀ e ∈ front, e.2.IsArgument) (h : Unfit value reason) :
      Blamed i (.map [(typeName, .map (front ++ (name, value) :: back))])
        (typeName ++ " argument '" ++ name ++ "' " ++ reason)

/-- What is wrong with a document.  Of the entries of a list the first that is no call is to
    blame. -/
inductive Refused : Document → String → Prop where
  | notAList (document : Document) (hnull : document ≠ .null)
      (hlist : ∀ entries, document ≠ .list entries) :
      Refused document ("expected a list of rule declarations, found " ++ document.kind)
  | entry (front : List Document) (entry : Document) (back : List Document) (message : String)
      (hfront : ∀ e ∈ front, e.IsCall) (h : Blamed front.length entry message) :
      Refused (.list (front ++ entry :: back)) message

variable {value entry document : Document} {message : String} {i : Nat}

theorem Unfit.not_isArgument (h : Unfit value message) : ¬ value.IsArgument := by
  cases h with
  | number n h => exact h
  | item front item back h =>
      intro harg
      generalize heq : front.map Document.text ++ item :: back = items at harg
      cases harg with
      | texts texts =>
          have hmem : item ∈ texts.map Document.text :=
            heq ▸ List.mem_append_right _ (List.mem_cons_self ..)
          obtain ⟨s, -, hs⟩ := List.mem_map.1 hmem
          exact h s hs.symm
  | null => exact nofun
  | map entries => exact nofun

theorem Blamed.not_isCall (h : Blamed i entry message) : ¬ entry.IsCall := by
  intro hcall
  cases h with
  | notAMap entry h =>
      cases hcall with
      | bare typeName => exact h _ rfl
      | call typeName entries _ => exact h _ rfl
  | notOneKey es h =>
      cases hcall with
      | bare typeName => exact h rfl
      | call typeName entries _ => exact h rfl
  | notArguments typeName value hnull hmap =>
      cases hcall with
      | bare => exact hnull rfl
      | call _ entries _ => exact hmap entries rfl
  | argument typeName front name value back reason hfront h =>
      cases hcall with
      | call _ _ hentries =>
          exact h.not_isArgument (hentries _ (List.mem_append_right _ (List.mem_cons_self ..)))

theorem Refused.not_isDeclarations (h : Refused document message) :
    ¬ document.IsDeclarations := by
  intro hdecl
  cases h with
  | notAList document hnull hlist =>
      cases hdecl with
      | nothing => exact hnull rfl
      | calls entries _ => exact hlist entries rfl
  | entry front entry back message hfront h =>
      generalize heq : front ++ entry :: back = entries at hdecl
      cases hdecl with
      | calls _ hentries =>
          exact h.not_isCall (hentries entry
            (heq ▸ List.mem_append_right _ (List.mem_cons_self ..)))

/-! ## Reading -/

theorem isSmall_iff (n : Int) : isSmall n = true ↔ -2 ^ 63 ≤ n ∧ n < 2 ^ 63 := by
  rw [isSmall, Bool.and_eq_true, decide_eq_true_iff, decide_eq_true_iff]
  rfl

/-- Texts are read as they are, up to the first item that is none. -/
theorem texts_cases (items : List Document) :
    (∃ ss, texts items = .ok ss ∧ items = ss.map .text) ∨
      ∃ front item back, texts items = .error (.notTexts item.kind) ∧
        items = List.map Document.text front ++ item :: back ∧ ∀ s, item ≠ .text s := by
  induction items with
  | nil => exact .inl ⟨[], rfl, rfl⟩
  | cons item items ih =>
      cases item with
      | text s =>
          rcases ih with ⟨ss, hss, rfl⟩ | ⟨front, item, back, herror, rfl, hitem⟩
          · refine .inl ⟨s :: ss, ?_, rfl⟩
            rw [texts, hss]
            rfl
          · refine .inr ⟨s :: front, item, back, ?_, rfl, hitem⟩
            rw [texts, herror]
            rfl
      | null => exact .inr ⟨[], _, items, rfl, rfl, nofun⟩
      | flag b => exact .inr ⟨[], _, items, rfl, rfl, nofun⟩
      | number n => exact .inr ⟨[], _, items, rfl, rfl, nofun⟩
      | list l => exact .inr ⟨[], _, items, rfl, rfl, nofun⟩
      | map es => exact .inr ⟨[], _, items, rfl, rfl, nofun⟩

/-- A value that an argument can have is read as it is, and no other value is. -/
theorem argument_cases (value : Document) :
    (∃ a, argument value = .ok a ∧ value.IsArgument ∧ ofArgument a = value) ∨
      ∃ problem, argument value = .error problem ∧ Unfit value problem.message := by
  cases value with
  | null => exact .inr ⟨_, rfl, .null⟩
  | flag b => exact .inl ⟨_, rfl, .flag b, rfl⟩
  | text s => exact .inl ⟨_, rfl, .text s, rfl⟩
  | map es => exact .inr ⟨_, rfl, .map es⟩
  | number n =>
      cases n with
      | integer n =>
          by_cases hn : isSmall n = true
          · obtain ⟨hlow, hhigh⟩ := (isSmall_iff n).1 hn
            exact .inl ⟨.number n, by rw [argument, if_pos hn], .number n hlow hhigh, rfl⟩
          · refine .inr ⟨.notAnInteger (toString n), by rw [argument, if_neg hn],
              .number (.integer n) fun h => ?_⟩
            cases h with
            | number _ hlow hhigh => exact hn ((isSmall_iff n).2 ⟨hlow, hhigh⟩)
      | floating f => exact .inr ⟨_, rfl, .number (.floating f) nofun⟩
  | list items =>
      rcases texts_cases items with ⟨ss, hss, rfl⟩ | ⟨front, item, back, herror, rfl, hitem⟩
      · refine .inl ⟨.list ss, ?_, .texts ss, rfl⟩
        rw [argument, hss]
        rfl
      · refine .inr ⟨.notTexts item.kind, ?_, .item front item back hitem⟩
        rw [argument, herror]
        rfl

/-- The argument that a key and its value give in a call of the type `typeName`. -/
def named (typeName : String) (e : String × Document) : Except Problem (String × Argument) :=
  match argument e.2 with
  | .ok a => .ok (e.1, a)
  | .error problem => .error (.argument typeName e.1 problem)

theorem arguments_eq (typeName : String) (entries : List (String × Document)) :
    arguments typeName entries = entries.mapM (named typeName) :=
  rfl

theorem named_cases (typeName : String) (e : String × Document) :
    (∃ a, named typeName e = .ok (e.1, a) ∧ e.2.IsArgument ∧ ofArgument a = e.2) ∨
      ∃ problem, named typeName e = .error (.argument typeName e.1 problem) ∧
        Unfit e.2 problem.message := by
  rcases argument_cases e.2 with ⟨a, ha, harg, hback⟩ | ⟨problem, herror, hunfit⟩
  · exact .inl ⟨a, by rw [named, ha], harg, hback⟩
  · exact .inr ⟨problem, by rw [named, herror], hunfit⟩

/-- The arguments of a call are read one by one, up to the first that is unfit. -/
theorem arguments_cases (typeName : String) (entries : List (String × Document)) :
    (∃ as, arguments typeName entries = .ok as ∧ (∀ e ∈ entries, e.2.IsArgument) ∧
        as.map (fun e => (e.1, ofArgument e.2)) = entries) ∨
      ∃ front name value back problem,
        arguments typeName entries = .error (.argument typeName name problem) ∧
        entries = front ++ (name, value) :: back ∧ (∀ e ∈ front, e.2.IsArgument) ∧
        Unfit value problem.message := by
  simp only [arguments_eq]
  induction entries with
  | nil => exact .inl ⟨[], rfl, List.forall_mem_nil _, rfl⟩
  | cons e entries ih =>
      rcases named_cases typeName e with ⟨a, ha, harg, hvalue⟩ | ⟨problem, herror, hunfit⟩
      · rcases ih with ⟨as, has, hargs, hback⟩ | ⟨front, name, value, back, problem, herror, rfl,
          hfront, hunfit⟩
        · exact .inl ⟨(e.1, a) :: as, mapM_cons_eq_ok_iff.2 ⟨_, _, ha, has, rfl⟩,
            List.forall_mem_cons.2 ⟨harg, hargs⟩, by rw [List.map_cons, hvalue, hback]⟩
        · refine .inr ⟨e :: front, name, value, back, problem, ?_, rfl,
            List.forall_mem_cons.2 ⟨harg, hfront⟩, hunfit⟩
          rw [List.mapM_cons, ha, herror]
          rfl
      · refine .inr ⟨[], e.1, e.2, entries, problem, ?_, rfl, List.forall_mem_nil _, hunfit⟩
        rw [List.mapM_cons, herror]
        rfl

/-- Arguments with different names are kept as they are listed. -/
theorem entries_ofList {pairs : List (String × Argument)} (h : (pairs.map Prod.fst).Nodup) :
    (Arguments.ofList pairs).entries = pairs := by
  have hset : ∀ as : Arguments, (pairs.foldl (fun as p => as.set p.1 p.2) as).entries =
      pairs.foldl (fun l p => setEntry p.1 p.2 l) as.entries := by
    intro as
    clear h
    induction pairs generalizing as with
    | nil => rfl
    | cons p pairs ih => exact ih (as.set p.1 p.2)
  exact (hset .empty).trans (foldl_setEntry_of_nodup h)

/-- An entry that is a call is read as one that is written back as the entry, and no other
    entry is read. -/
theorem callOf_cases (i : Nat) (hentry : entry.Written) :
    (∃ call, callOf i entry = .ok call ∧ entry.IsCall ∧
        Document.ofCall call = entry.withArguments) ∨
      ∃ problem, callOf i entry = .error problem ∧ Blamed i entry problem.message := by
  cases entry with
  | null => exact .inr ⟨_, rfl, .notAMap _ nofun⟩
  | flag b => exact .inr ⟨_, rfl, .notAMap _ nofun⟩
  | number n => exact .inr ⟨_, rfl, .notAMap _ nofun⟩
  | text s => exact .inr ⟨_, rfl, .notAMap _ nofun⟩
  | list items => exact .inr ⟨_, rfl, .notAMap _ nofun⟩
  | map es =>
      match es, hentry with
      | [], _ => exact .inr ⟨_, rfl, .notOneKey [] nofun⟩
      | e :: e' :: es, _ => exact .inr ⟨_, rfl, .notOneKey (e :: e' :: es) nofun⟩
      | [(typeName, value)], hentry =>
          cases value with
          | null => exact .inl ⟨_, rfl, .bare typeName, rfl⟩
          | flag b => exact .inr ⟨_, rfl, .notArguments typeName _ nofun nofun⟩
          | number n => exact .inr ⟨_, rfl, .notArguments typeName _ nofun nofun⟩
          | text s => exact .inr ⟨_, rfl, .notArguments typeName _ nofun nofun⟩
          | list items => exact .inr ⟨_, rfl, .notArguments typeName _ nofun nofun⟩
          | map entries =>
              rcases arguments_cases typeName entries with ⟨as, has, hargs, hback⟩ |
                ⟨front, name, value, back, problem, herror, rfl, hfront, hunfit⟩
              · -- the names of the arguments are the keys of the map, so none is set twice
                have hkeys := (hentry.map.2 _ (List.mem_singleton_self _)).map.1
                have hnames : (as.map Prod.fst).Nodup := by
                  rw [← hback, List.map_map] at hkeys
                  exact hkeys
                refine .inl ⟨⟨typeName, .ofList as⟩, ?_, .call typeName entries hargs, ?_⟩
                · rw [callOf, has]
                  rfl
                · rw [Document.ofCall, entries_ofList hnames, hback]
                  rfl
              · refine .inr ⟨.argument typeName name problem, ?_,
                  .argument typeName front name value back _ hfront hunfit⟩
                rw [callOf, herror]
                rfl

/-- Entries are read one by one, up to the first that is no call. -/
theorem callsFrom_cases (i : Nat) {entries : List Document} (h : ∀ e ∈ entries, e.Written) :
    (∃ calls, callsFrom i entries = .ok calls ∧ (∀ e ∈ entries, e.IsCall) ∧
        calls.map Document.ofCall = entries.map Document.withArguments) ∨
      ∃ front entry back problem, callsFrom i entries = .error problem ∧
        entries = front ++ entry :: back ∧ (∀ e ∈ front, e.IsCall) ∧
        Blamed (i + front.length) entry problem.message := by
  induction entries generalizing i with
  | nil => exact .inl ⟨[], rfl, List.forall_mem_nil _, rfl⟩
  | cons entry entries ih =>
      obtain ⟨hentry, hentries⟩ := List.forall_mem_cons.1 h
      rcases callOf_cases i hentry with ⟨call, hcall, hshape, hback⟩ | ⟨problem, herror, hblamed⟩
      · rcases ih (i + 1) hentries with ⟨calls, hcalls, hshapes, hbacks⟩ |
          ⟨front, entry', back, problem, herror, rfl, hfront, hblamed⟩
        · refine .inl ⟨call :: calls, ?_, List.forall_mem_cons.2 ⟨hshape, hshapes⟩, ?_⟩
          · rw [callsFrom, hcall, hcalls]
            rfl
          · rw [List.map_cons, List.map_cons, hback, hbacks]
        · refine .inr ⟨entry :: front, entry', back, problem, ?_, rfl,
            List.forall_mem_cons.2 ⟨hshape, hfront⟩, ?_⟩
          · rw [callsFrom, hcall, herror]
            rfl
          · rw [List.length_cons, Nat.add_comm front.length, ← Nat.add_assoc]
            exact hblamed
      · refine .inr ⟨[], entry, entries, problem, ?_, rfl, List.forall_mem_nil _, hblamed⟩
        rw [callsFrom, herror]
        rfl

theorem calls_cases (hdocument : document.Written) :
    (∃ cs, calls document = .ok cs ∧ document.IsDeclarations ∧
        Document.ofCalls cs = document.explicit) ∨
      ∃ problem, calls document = .error problem ∧ Refused document problem.message := by
  cases document with
  | null => exact .inl ⟨[], rfl, .nothing, rfl⟩
  | flag b => exact .inr ⟨_, rfl, .notAList _ nofun nofun⟩
  | number n => exact .inr ⟨_, rfl, .notAList _ nofun nofun⟩
  | text s => exact .inr ⟨_, rfl, .notAList _ nofun nofun⟩
  | map es => exact .inr ⟨_, rfl, .notAList _ nofun nofun⟩
  | list entries =>
      rcases callsFrom_cases 0 hdocument.list with ⟨cs, hcs, hshapes, hbacks⟩ |
        ⟨front, entry, back, problem, herror, rfl, hfront, hblamed⟩
      · exact .inl ⟨cs, hcs, .calls entries hshapes, congrArg Document.list hbacks⟩
      · rw [Nat.zero_add] at hblamed
        exact .inr ⟨problem, herror, .entry front entry back _ hfront hblamed⟩

/-- **Reading is exact and lossless**: exactly the documents that declare calls are read, the
    calls written back are the document up to what it leaves out, and any other document is
    refused for its first offence. -/
theorem read_exact (path : Path) {text : String} (hblank : Text.isBlankText text = false)
    (hdocument : Document.ofText? text = some document) :
    ((∃ calls, read path text = .ok calls) ↔ document.IsDeclarations) ∧
    (∀ calls, read path text = .ok calls → Document.ofCalls calls = document.explicit) ∧
    (¬ document.IsDeclarations → ∃ message,
      read path text = .error (.script path.text message) ∧ Refused document message) := by
  rcases calls_cases (Document.written_of_ofText? hdocument) with ⟨cs, hcs, hshape, hback⟩ |
    ⟨problem, herror, hrefused⟩
  · have hread : read path text = .ok cs := by
      simp only [read, hblank, hdocument, hcs, Bool.false_eq_true, if_false]
    refine ⟨iff_of_true ⟨cs, hread⟩ hshape, fun calls hcalls => ?_, fun h => absurd hshape h⟩
    rw [hread] at hcalls
    cases hcalls
    exact hback
  · have hread : read path text = .error (.script path.text problem.message) := by
      simp only [read, hblank, hdocument, herror, Bool.false_eq_true, if_false]
    have hno : ∀ calls, read path text ≠ .ok calls := fun calls hcalls =>
      absurd (hread.symm.trans hcalls) nofun
    exact ⟨iff_of_false (fun ⟨calls, hcalls⟩ => hno calls hcalls) hrefused.not_isDeclarations,
      fun calls hcalls => absurd hcalls (hno calls), fun _ => ⟨_, hread, hrefused⟩⟩

/-- Two calls, of which the second leaves its arguments out. -/
def twoCalls : String :=
  "- cc_test: {name: x, srcs: [x.cc, y.cc], size: -3}\n- cc_test: !!null ~\n"

/-- Two calls, of which the second has two arguments that are unfit. -/
def unfitSources : String :=
  "- cc_test: {name: x}\n- cc_test: {name: z, srcs: [a.cc, 1], deps: 0.5}\n"

/-- Calls that are read, and calls that are refused for the second one. -/
theorem read_exact_twoCalls :
    (∃ document, Document.ofText? twoCalls = some document ∧ document.IsDeclarations ∧
      document.explicit = .list
        [.map [("cc_test", .map [("name", .text "x"), ("srcs", .list [.text "x.cc", .text "y.cc"]),
          ("size", .number (.integer (-3)))])],
        .map [("cc_test", .map [])]]) ∧
    ∃ document, Document.ofText? unfitSources = some document ∧ ¬ document.IsDeclarations ∧
      Refused document "cc_test argument 'srcs' must be a list of strings, found number" := by
  refine ⟨?_, ?_⟩
  · have hsome : (Document.ofText? twoCalls).isSome := by decide +kernel
    have hread : read ⟨"BUILD"⟩ twoCalls =
        .ok [⟨"cc_test", .ofList [("name", .text "x"), ("srcs", .list ["x.cc", "y.cc"]),
          ("size", .number (-3))]⟩, ⟨"cc_test", .empty⟩] := by decide +kernel
    obtain ⟨document, hdocument⟩ := Option.isSome_iff_exists.1 hsome
    obtain ⟨hiff, hback, -⟩ := read_exact ⟨"BUILD"⟩ (by decide +kernel) hdocument
    exact ⟨document, hdocument, hiff.1 ⟨_, hread⟩, (hback _ hread).symm⟩
  · have hsome : (Document.ofText? unfitSources).isSome := by decide +kernel
    have hread : read ⟨"BUILD"⟩ unfitSources =
        .error (.script "BUILD"
          "cc_test argument 'srcs' must be a list of strings, found number") := by decide +kernel
    obtain ⟨document, hdocument⟩ := Option.isSome_iff_exists.1 hsome
    obtain ⟨hiff, -, hrefused⟩ := read_exact ⟨"BUILD"⟩ (by decide +kernel) hdocument
    have hno : ¬ document.IsDeclarations := fun h => by
      obtain ⟨calls, hcalls⟩ := hiff.2 h
      exact absurd (hread.symm.trans hcalls) nofun
    obtain ⟨message, hmessage, h⟩ := hrefused hno
    rw [hread] at hmessage
    cases hmessage
    exact ⟨document, hdocument, hno, h⟩

end DeclarationFile

end Buildwright
