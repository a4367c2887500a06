import Buildwright.Proofs.Configuration.Settings
import Buildwright.Proofs.Lookup

/-! # Merged documents

    Layers can be put together before they are read.  Each is written as a document, from
    what is built in up to the command line; a document on top of another is merged with it
    key by key, so that a map is merged and every other value, a list too, is replaced.
    What is read off the merged document are the settings that composing takes from the
    layers one by one.

    * `Value.Distinct`, `Environment.distinct_entries` — documents whose keys are distinct;
    * `Layer.given_merge` — a document on top of another, setting by setting;
    * `File.document`, `Overrides.document`, `merged` — the documents of the sources;
    * `compose_eq_merged` — composing is reading the merged document. -/

namespace Buildwright.Configuration

namespace Value

variable {v lower : Value} {es below : List (String × Value)} {key : String}

/-! ## Distinct keys -/

/-- Whether the keys of a map, and of the maps under them, are distinct.  The maps in lists may
    be any. -/
inductive Distinct : Value → Prop where
  | map (entries : List (String × Value)) (hkeys : (entries.map Prod.fst).Nodup)
      (hvalues : ∀ e ∈ entries, e.2.Distinct) : Distinct (map entries)
  | other (v : Value) (h : ∀ entries, v ≠ map entries) : Distinct v

theorem Distinct.keys (h : (Value.map es).Distinct) : (es.map Prod.fst).Nodup := by
  cases h with
  | map _ hkeys _ => exact hkeys
  | other _ h => exact absurd rfl (h es)

theorem Distinct.values (h : (Value.map es).Distinct) : ∀ e ∈ es, e.2.Distinct := by
  cases h with
  | map _ _ hvalues => exact hvalues
  | other _ h => exact absurd rfl (h es)

theorem Distinct.setEntry (h : (Value.map es).Distinct) (hv : v.Distinct) :
    (Value.map (Buildwright.setEntry key v es)).Distinct := by
  refine .map _ (nodup_setEntry h.keys) fun e he => ?_
  rcases mem_setEntry he with he | he
  · exact h.values e he
  · exact he ▸ hv

theorem distinct_nil : (map []).Distinct :=
  .map [] List.nodup_nil (List.forall_mem_nil _)

theorem merge_of_ne_map (h : ∀ entries, v ≠ map entries) : merge lower v = v := by
  cases v with
  | map entries => exact absurd rfl (h entries)
  | null | flag _ | integer _ | fraction | text _ | list _ => rw [merge]; exact nofun

theorem distinct_mergeEntries (hbelow : (map below).Distinct)
    (hes : ∀ e ∈ es, e.2.Distinct ∧ ∀ lower, lower.Distinct → (merge lower e.2).Distinct) :
    (map (mergeEntries below es)).Distinct := by
  induction es generalizing below with
  | nil => exact hbelow
  | cons e es ih =>
      obtain ⟨⟨hvalue, hmerge⟩, hes⟩ := List.forall_mem_cons.1 hes
      refine ih (hbelow.setEntry ?_) hes
      cases hlookup : below.lookup e.1 with
      | none => exact hvalue
      | some lower => exact hmerge lower (hbelow.values _ (mem_of_lookup_eq_some hlookup))

theorem Distinct.merge (hlower : lower.Distinct) (hv : v.Distinct) :
    (Value.merge lower v).Distinct := by
  induction hv generalizing lower with
  | other v h =>
      rw [merge_of_ne_map h]
      exact .other v h
  | map entries hkeys hvalues ih =>
      cases lower with
      | null | flag _ | integer _ | fraction | text _ | list _ => exact .map entries hkeys hvalues
      | map below => exact distinct_mergeEntries hlower fun e he => ⟨hvalues e he, fun _ => ih e he⟩

theorem Distinct.nest (h : v.Distinct) (keys : List String) : (v.nest keys).Distinct := by
  induction keys with
  | nil => exact h
  | cons key keys ih =>
      exact .map _ (List.nodup_singleton _) (List.forall_mem_singleton.2 ih)

theorem ofWord_ne_map (word : List Char) : ∀ entries, ofWord word ≠ map entries := by
  simp only [ofWord]
  split
  · split <;> exact nofun
  · split
    · split
      · split <;> exact nofun
      · split <;> exact nofun
    · exact nofun

/-- Values that are read have distinct keys. -/
theorem distinct_of_readUpTo? (n : Nat) :
    (∀ cs rest v, readUpTo? n cs = some (v, rest) → v.Distinct) ∧
    (∀ cs rest v, contentUpTo? n cs = some (v, rest) → v.Distinct) ∧
    ∀ cs rest es es', (map es).Distinct → entriesUpTo? n cs es = some (es', rest) →
      (map es').Distinct := by
  -- the readers of a value and of its parts call each other, each with one step less
  induction n with
  | zero => exact ⟨nofun, nofun, nofun⟩
  | succ n ih =>
      obtain ⟨hread, hcontent, hentries⟩ := ih
      refine ⟨?_, ?_, ?_⟩
      · intro cs rest v h
        rw [readUpTo?] at h
        obtain ⟨⟨value, rest'⟩, hvalue, h⟩ := Option.bind_eq_some_iff.1 h
        cases h
        exact hcontent _ _ _ hvalue
      · intro cs rest v h
        unfold contentUpTo? at h
        split at h
        · cases h
          exact .other _ nofun
        · cases h
          exact .other _ nofun
        · split at h
          · obtain ⟨⟨items, rest'⟩, -, h⟩ := Option.bind_eq_some_iff.1 h
            cases h
            exact .other _ nofun
          · obtain ⟨⟨es, rest'⟩, hes, h⟩ := Option.bind_eq_some_iff.1 h
            cases h
            exact hentries _ _ _ _ distinct_nil hes
          · obtain ⟨⟨t, rest'⟩, -, h⟩ := Option.map_eq_some_iff.1 h
            cases h
            exact .other _ nofun
          · cases h
            exact .other _ nofun
          · cases h
          · cases h
            exact .other _ (ofWord_ne_map _)
      · intro cs rest es es' hes h
        unfold entriesUpTo? at h
        split at h
        · cases h
        · cases h
          exact hes
        · rename_i hn _
          cases hn
          obtain ⟨⟨key, rest₁⟩, -, h⟩ := Option.bind_eq_some_iff.1 h
          dsimp only at h
          split at h
          · obtain ⟨⟨value, rest₂⟩, hvalue, h⟩ := Option.bind_eq_some_iff.1 h
            have hes' := @Distinct.setEntry _ _ key hes (hread _ _ _ hvalue)
            dsimp only at h
            split at h
            · cases h
              exact hes'
            · exact hentries _ _ _ _ hes' h
            · cases h
          · cases h

theorem distinct_ofText (s : String) : (ofText s).Distinct := by
  rw [ofText, read?]
  split
  · exact (distinct_of_readUpTo? _).1 _ _ _ ‹_›
  · exact .other _ nofun

end Value

/-- The variables of an environment give a document whose keys are distinct. -/
theorem Environment.distinct_entries (environment : List (String × String)) :
    (Value.map (Environment.entries environment)).Distinct := by
  rw [Environment.entries]
  refine List.foldlRecOn (motive := fun es => (Value.map es).Distinct) environment _
    Value.distinct_nil fun below hbelow entry _ => ?_
  obtain ⟨name, text⟩ := entry
  dsimp only
  split
  · split
    · rename_i hnest
      exact hbelow.merge (hnest ▸ (Value.distinct_ofText text).nest _)
    · exact hbelow
  · exact hbelow

/-! ## A document on top of another -/

namespace Value

variable {v lower : Value} {es below : List (String × Value)}

/-- What is under a key of merged entries. -/
theorem lookup_mergeEntries (hes : (es.map Prod.fst).Nodup) (k : String) :
    (mergeEntries below es).lookup k =
      (es.lookup k).elim (below.lookup k) fun v =>
        some ((below.lookup k).elim v fun lower => merge lower v) := by
  induction es generalizing below with
  | nil => rfl
  | cons e es ih =>
      obtain ⟨hfresh, hes⟩ := List.nodup_cons.1 hes
      rw [mergeEntries, ih hes, lookup_setEntry, List.lookup_cons]
      by_cases hk : k = e.1
      · -- the key does not come again, so what has been set stays
        have hnone : es.lookup k = none := List.lookup_eq_none_iff.2 fun e' he' =>
          bne_iff_ne.2 fun h => hfresh (List.mem_map.2 ⟨e', he', h.symm.trans hk⟩)
        rw [hnone, if_pos hk, hk, beq_self_eq_true]
        cases below.lookup e.1 <;> rfl
      · rw [if_neg hk, beq_false_of_ne hk]

theorem mem_keys_mergeEntries (k : String) : k ∈ (mergeEntries below es).map Prod.fst ↔
    k ∈ below.map Prod.fst ∨ k ∈ es.map Prod.fst := by
  induction es generalizing below with
  | nil => simp [mergeEntries]
  | cons e es ih =>
      rw [mergeEntries, ih, map_fst_setEntry, List.map_cons, List.mem_cons]
      by_cases he : e.1 ∈ below.map Prod.fst
      · rw [if_pos he]
        constructor
        · exact Or.imp_right .inr
        · rintro (h | rfl | h)
          · exact .inl h
          · exact .inl he
          · exact .inr h
      · rw [if_neg he, List.mem_append, List.mem_singleton, or_assoc]

end Value

/-- A map is no content of a setting, so merged maps are refused as the upper one is. -/
theorem Setting.readValue_merge (k : Setting) (lower v : Value) :
    k.readValue (Value.merge lower v) = k.readValue v := by
  cases v with
  | null | flag _ | integer _ | fraction | text _ | list _ =>
      rw [Value.merge_of_ne_map]
      exact nofun
  | map entries =>
      cases lower with
      | null | flag _ | integer _ | fraction | text _ | list _ => rfl
      | map below => cases k <;> rfl

/-- What merged entries are read as is what the upper ones are read as, and the lower ones where
    there is no upper one. -/
theorem Setting.map_readValue_mergeEntries {es : List (String × Value)}
    (hes : (es.map Prod.fst).Nodup) (k : Setting) (below : List (String × Value)) (key : String) :
    ((Value.mergeEntries below es).lookup key).map k.readValue =
      ((es.lookup key).map k.readValue <|> (below.lookup key).map k.readValue) := by
  rw [Value.lookup_mergeEntries hes]
  cases es.lookup key with
  | none => rfl
  | some v =>
      cases below.lookup key with
      | none => rfl
      | some lower => exact congrArg some (k.readValue_merge lower v)

theorem Environment.defect_tools_map (tools : List (String × Value)) :
    (Environment.tools (some (.map tools))).defect = none ↔
      ∀ key ∈ tools.map Prod.fst, key ∈ toolKeys := by
  rw [Environment.tools, List.forall_mem_map]
  cases hunknown : tools.find? fun e => e.1 ∉ toolKeys with
  | none =>
      refine iff_of_true rfl fun e he => ?_
      simpa using List.find?_eq_none.1 hunknown e he
  | some e =>
      refine iff_of_false (Option.some_ne_none _) fun h => ?_
      have hkey : e.1 ∉ toolKeys := by simpa using List.find?_some hunknown
      exact hkey (h e (List.mem_of_find?_eq_some hunknown))

namespace Layer

variable {es below : List (String × Value)}

/-- Whether a document has a map of known tools. -/
def HasTools (es : List (String × Value)) : Prop :=
  ∃ tools, es.lookup "toolchain" = some (.map tools) ∧ ∀ key ∈ tools.map Prod.fst, key ∈ toolKeys

theorem HasTools.merge (hbelow : HasTools below) (hes : (es.map Prod.fst).Nodup)
    (h : es.lookup "toolchain" = none ∨ HasTools es) :
    HasTools (Value.mergeEntries below es) := by
  obtain ⟨lower, hlower, hkeys⟩ := hbelow
  rw [HasTools, Value.lookup_mergeEntries hes, hlower]
  rcases h with hnone | ⟨tools, htools, hkeys'⟩
  · rw [hnone]
    exact ⟨lower, rfl, hkeys⟩
  · rw [htools]
    exact ⟨Value.mergeEntries lower tools, rfl, fun key hkey =>
      ((Value.mem_keys_mergeEntries key).1 hkey).elim (hkeys key) (hkeys' key)⟩

/-- What is wrong with the tools of a document is not mended below it. -/
theorem defect_merge (hes : (Value.map es).Distinct) (hbelow : HasTools below) :
    (ofEntries (Value.mergeEntries below es)).defect = none ↔ (ofEntries es).defect = none := by
  obtain ⟨lower, hlower, hkeys⟩ := hbelow
  show (Environment.tools ((Value.mergeEntries below es).lookup "toolchain")).defect = none ↔
    (Environment.tools (es.lookup "toolchain")).defect = none
  rw [Value.lookup_mergeEntries hes.keys, hlower]
  cases es.lookup "toolchain" with
  | none => exact iff_of_true ((Environment.defect_tools_map lower).2 hkeys) rfl
  | some v =>
      cases v with
      | null | flag _ | integer _ | fraction | text _ | list _ => rfl
      | map tools =>
          show (Environment.tools (some (.map (Value.mergeEntries lower tools)))).defect = none ↔ _
          rw [Environment.defect_tools_map, Environment.defect_tools_map]
          simp only [Value.mem_keys_mergeEntries]
          exact ⟨fun h key hkey => h key (.inr hkey),
            fun h key hkey => hkey.elim (hkeys key) (h key)⟩

/-- A document on top of another gives its values, and those below where it has none. -/
theorem given_merge (hes : (Value.map es).Distinct) (hdefect : (ofEntries es).defect = none)
    (hbelow : es.lookup "toolchain" = none ∨ HasTools below) (k : Setting) :
    Environment.given (Value.mergeEntries below es) k =
      (Environment.given es k <|> Environment.given below k) := by
  cases k with
  | buildRoot | buildTypes | formats | jobs | buildFile | builtinRoot =>
      exact Setting.map_readValue_mergeEntries hes.keys _ below _
  | tool t =>
      replace hdefect : (Environment.tools (es.lookup "toolchain")).defect = none := hdefect
      simp only [Environment.given, Environment.value?, Value.lookup_mergeEntries hes.keys]
      cases hv : es.lookup "toolchain" with
      | none => rfl
      | some v =>
          rw [hv] at hdefect hbelow
          obtain ⟨lower, hlower, -⟩ := hbelow.resolve_left (Option.some_ne_none v)
          rw [hlower]
          cases v with
          | map tools =>
              have htools := (hes.values _ (mem_of_lookup_eq_some hv)).keys
              exact Setting.map_readValue_mergeEntries htools (.tool t) lower t.name
          | list items => rfl
          | null | flag _ | integer _ | fraction | text _ => cases hdefect

end Layer

/-! ## The documents of the sources -/

/-- The value that a setting is written as.  What is nothing is left out. -/
def Setting.write : (k : Setting) → k.Content → Option Value
  | .buildRoot, path => some (.text path.text)
  | .buildTypes, types => some (.list (types.map fun type => .text type.name))
  | .formats, names => some (.list (names.map .text))
  | .jobs, n => n.map fun n : Nat => .integer n
  | .buildFile, name => some (.text name)
  | .builtinRoot, path => path.map fun path => .text path.text
  | .tool _, name => some (.text name)

/-- The settings under keys of their own. -/
def Setting.fields : List Setting :=
  [.buildRoot, .buildTypes, .formats, .jobs, .buildFile, .builtinRoot]

def Tool.all : List Tool :=
  [.cc, .cxx, .ar]

/-- The document of values of settings and of the tools, if there are any. -/
def document (values : Setting → Option Value) (tools : Option (Tool → String)) :
    List (String × Value) :=
  (Setting.fields.filterMap fun k => (values k).map fun v => (k.key, v)) ++
    (tools.map fun name =>
      ("toolchain", .map (Tool.all.map fun t => (t.name, .text (name t))))).toList

section Document

variable {values : Setting → Option Value} {tools : Option (Tool → String)}

theorem keys_filterMap_sublist (ks : List Setting) :
    ((ks.filterMap fun k => (values k).map fun v => (k.key, v)).map Prod.fst).Sublist
      (ks.map Setting.key) := by
  induction ks with
  | nil => exact List.Sublist.refl _
  | cons k ks ih =>
      rw [List.filterMap_cons]
      cases values k with
      | none => exact ih.cons _
      | some v => exact ih.cons_cons _

theorem nodup_keys_document : ((document values tools).map Prod.fst).Nodup := by
  have htools : ((tools.map fun name => ("toolchain",
      Value.map (Tool.all.map fun t => (t.name, .text (name t))))).toList.map Prod.fst).Sublist
      ["toolchain"] := by
    cases tools with
    | none => exact List.nil_sublist _
    | some name => exact List.Sublist.refl _
  rw [document, List.map_append]
  exact ((keys_filterMap_sublist Setting.fields).append htools).nodup (by decide)

theorem mem_document {e : String × Value} : e ∈ document values tools ↔
    (∃ k ∈ Setting.fields, values k = some e.2 ∧ k.key = e.1) ∨
      ∃ name, tools = some name ∧
        e = ("toolchain", .map (Tool.all.map fun t => (t.name, .text (name t)))) := by
  rw [document, List.mem_append, List.mem_filterMap, Option.mem_toList]
  refine or_congr (exists_congr fun k => and_congr_right fun _ => ?_) ?_
  · rw [Option.map_eq_some_iff]
    constructor
    · rintro ⟨v, hv, rfl⟩
      exact ⟨hv, rfl⟩
    · rintro ⟨hv, hkey⟩
      exact ⟨e.2, hv, Prod.ext hkey rfl⟩
  · rw [Option.map_eq_some_iff]
    exact exists_congr fun name => and_congr_right fun _ => eq_comm

theorem lookup_document {k : Setting} (hk : k ∈ Setting.fields) :
    (document values tools).lookup k.key = values k := by
  have hinj : ∀ k ∈ Setting.fields, k.key ≠ "toolchain" ∧
      ∀ k' ∈ Setting.fields, k'.key = k.key → k' = k := by decide
  obtain ⟨hne, hinj⟩ := hinj k hk
  refine Option.ext fun v => ?_
  rw [lookup_eq_some_iff_mem nodup_keys_document, mem_document]
  constructor
  · rintro (⟨k', hk', hv, hkey⟩ | ⟨name, -, he⟩)
    · exact hinj k' hk' hkey ▸ hv
    · exact absurd (congrArg Prod.fst he) hne
  · exact fun hv => .inl ⟨k, hk, hv, rfl⟩

theorem lookup_toolchain_document : (document values tools).lookup "toolchain" =
    tools.map fun name => .map (Tool.all.map fun t => (t.name, .text (name t))) := by
  have hne : ∀ k ∈ Setting.fields, k.key ≠ "toolchain" := by decide
  refine Option.ext fun v => ?_
  rw [lookup_eq_some_iff_mem nodup_keys_document, mem_document, Option.map_eq_some_iff]
  constructor
  · rintro (⟨k, hk, -, hkey⟩ | ⟨name, hname, he⟩)
    · exact absurd hkey (hne k hk)
    · exact ⟨name, hname, (congrArg Prod.snd he).symm⟩
  · rintro ⟨name, hname, rfl⟩
    exact .inr ⟨name, hname, rfl⟩

theorem distinct_document (h : ∀ k v, values k = some v → v.Distinct) :
    (Value.map (document values tools)).Distinct := by
  refine .map _ nodup_keys_document fun e he => ?_
  rcases mem_document.1 he with ⟨k, -, hv, -⟩ | ⟨name, -, rfl⟩
  · exact h k _ hv
  · refine .map _ (by decide : ([Tool.cc, .cxx, .ar].map Tool.name).Nodup) ?_
    rintro e he
    obtain ⟨t, -, rfl⟩ := List.mem_map.1 he
    exact .other _ nofun

/-- The tools of a document are known ones. -/
theorem hasTools_document (name : Tool → String) : Layer.HasTools (document values (some name)) :=
  ⟨_, lookup_toolchain_document, fun _ hkey => hkey⟩

theorem defect_document : (Layer.ofEntries (document values tools)).defect = none := by
  show (Environment.tools ((document values tools).lookup "toolchain")).defect = none
  rw [lookup_toolchain_document]
  cases tools <;> rfl

/-- A document gives what it has been made of. -/
theorem given_document (k : Setting) : Environment.given (document values tools) k =
    match k with
    | .tool t => tools.map fun name => .ok (name t)
    | k => (values k).map k.readValue := by
  match k with
  | .buildRoot | .buildTypes | .formats | .jobs | .buildFile | .builtinRoot =>
      exact congrArg (Option.map _) (lookup_document (by decide))
  | .tool t =>
      simp only [Environment.given, Environment.value?, lookup_toolchain_document]
      cases tools with
      | none => rfl
      | some name => cases t <;> rfl

end Document

/-- The document of what is built in. -/
def builtInDocument : List (String × Value) :=
  document (fun k => k.write k.builtIn) (some Tool.builtIn)

/-- The document of a file that has been read.  A toolchain is written with all its tools, those
    that it does not mention as they are built in. -/
def File.document (fields : List (String × Yaml.Tree)) : List (String × Value) :=
  Configuration.document
    (fun k => (File.given fields k).bind fun content => content.toOption.bind k.write)
    ((File.field? fields "toolchain").map fun _ t =>
      ((File.given fields (.tool t)).bind Except.toOption).getD t.builtIn)

/-- The value that the command line has for a setting. -/
def Overrides.value? (o : Overrides) : Setting → Option Value
  | .buildRoot => o.buildRoot.map fun path => .text path.text
  | .buildTypes => if o.buildTypes = [] then none else some (.list (o.buildTypes.map .text))
  | .formats => if o.formats = [] then none else some (.list (o.formats.map .text))
  | .jobs => o.jobs.map fun n : Nat => .integer n
  | .buildFile | .builtinRoot | .tool _ => none

/-- The document of a command line. -/
def Overrides.document (o : Overrides) : List (String × Value) :=
  Configuration.document o.value? none

/-! ### What the documents give -/

theorem Environment.texts_map_text (l : List String) :
    Environment.texts (.list (l.map .text)) = .ok l := by
  show (l.map Value.text).mapM Environment.text = .ok l
  rw [mapM_eq_ok_iff_forall₂, List.forall₂_map_left_iff]
  exact List.forall₂_same.2 fun _ _ => rfl

theorem buildTypesOf_names (types : List BuildType) :
    buildTypesOf (types.map BuildType.name) = .ok types := by
  have hparse : (types.map BuildType.name).mapM BuildType.parse = .ok types := by
    rw [mapM_eq_ok_iff_forall₂, List.forall₂_map_left_iff]
    refine List.forall₂_same.2 fun type _ => ?_
    cases type <;> decide +kernel
  rw [buildTypesOf, hparse]
  rfl

namespace Setting

variable {k : Setting}

/-- What is written is read again. -/
theorem readValue_write {x : k.Content} {v : Value} (h : k.write x = some v) :
    k.readValue v = .ok x := by
  cases k with
  | buildRoot | buildFile | tool _ =>
      cases h
      rfl
  | buildTypes =>
      cases h
      have htexts := Environment.texts_map_text (x.map BuildType.name)
      rw [List.map_map] at htexts
      change Environment.texts (.list (x.map (Value.text ∘ BuildType.name))) >>= _ = _
      rw [htexts]
      exact buildTypesOf_names x
  | formats =>
      cases h
      exact Environment.texts_map_text x
  | jobs =>
      obtain ⟨n, rfl, rfl⟩ := Option.map_eq_some_iff.1 h
      show (Environment.count (.integer n)).map some = .ok (some n)
      rw [Environment.count, if_neg (Int.not_lt.2 (Int.natCast_nonneg n))]
      rfl
  | builtinRoot =>
      obtain ⟨path, rfl, rfl⟩ := Option.map_eq_some_iff.1 h
      rfl

/-- What is read off a file is something. -/
theorem exists_write_of_readTree {tree : Yaml.Tree} {x : k.Content}
    (h : k.readTree tree = .ok x) : ∃ v, k.write x = some v := by
  cases k with
  | buildRoot | buildTypes | formats | buildFile | tool _ => exact ⟨_, rfl⟩
  | jobs =>
      simp only [readTree] at h
      cases hcount : File.count tree with
      | error e =>
          rw [hcount] at h
          cases h
      | ok n =>
          rw [hcount] at h
          cases h
          exact ⟨_, rfl⟩
  | builtinRoot =>
      simp only [readTree] at h
      cases htext : File.text tree with
      | error e =>
          rw [htext] at h
          cases h
      | ok s =>
          rw [htext] at h
          cases h
          exact ⟨_, rfl⟩

theorem distinct_write {x : k.Content} {v : Value} (h : k.write x = some v) : v.Distinct := by
  refine .other v fun entries hv => ?_
  subst hv
  have hread := readValue_write h
  cases k <;> cases hread

end Setting

theorem given_builtInDocument (k : Setting) :
    (Environment.given builtInDocument k).getD (.ok k.builtIn) = .ok k.builtIn := by
  rw [builtInDocument, given_document]
  match k with
  | .tool t => rfl
  | .buildRoot => exact Setting.readValue_write (k := .buildRoot) rfl
  | .buildTypes => exact Setting.readValue_write (k := .buildTypes) rfl
  | .formats => exact Setting.readValue_write (k := .formats) rfl
  | .buildFile => exact Setting.readValue_write (k := .buildFile) rfl
  | .jobs | .builtinRoot => rfl

theorem given_overridesDocument (o : Overrides) (k : Setting) :
    Environment.given o.document k = o.given k := by
  rw [Overrides.document, given_document]
  match k with
  | .tool t => rfl
  | .buildFile | .builtinRoot => rfl
  | .buildRoot =>
      cases hroot : o.buildRoot <;> simp only [Overrides.value?, Overrides.given, hroot] <;> rfl
  | .jobs =>
      cases hjobs : o.jobs with
      | none => simp only [Overrides.value?, Overrides.given, hjobs, Option.map_none]
      | some n =>
          simp only [Overrides.value?, Overrides.given, hjobs, Option.map_some]
          exact congrArg some (Setting.readValue_write (k := .jobs) (x := some n) rfl)
  | .formats =>
      simp only [Overrides.value?, Overrides.given]
      split
      · rfl
      · exact congrArg some (Environment.texts_map_text o.formats)
  | .buildTypes =>
      simp only [Overrides.value?, Overrides.given]
      split
      · rfl
      · rw [Option.map_some]
        refine congrArg some ?_
        show Environment.texts _ >>= buildTypesOf = buildTypesOf o.buildTypes
        rw [Environment.texts_map_text]
        rfl

/-- The tools that the document of a file adds to those it mentions are built in anyway. -/
theorem given_fileDocument {fields : List (String × Yaml.Tree)} {k : Setting}
    (h : ∀ content, File.given fields k = some content → ∃ a, content = .ok a) :
    (Environment.given (File.document fields) k <|> Environment.given builtInDocument k).getD
      (.ok k.builtIn) = (File.given fields k).getD (.ok k.builtIn) := by
  have hfield : (((File.given fields k).bind fun content => content.toOption.bind k.write).map
      k.readValue <|> Environment.given builtInDocument k).getD (.ok k.builtIn) =
      (File.given fields k).getD (.ok k.builtIn) := by
    cases hgiven : File.given fields k with
    | none => exact given_builtInDocument k
    | some content =>
        obtain ⟨a, rfl⟩ := h content hgiven
        obtain ⟨tree, -, htree⟩ := Option.map_eq_some_iff.1 hgiven
        obtain ⟨v, hv⟩ := Setting.exists_write_of_readTree htree
        have hdocument : (Option.some (Except.ok a : Checked k.Content)).bind
            (fun content => content.toOption.bind k.write) = some v := hv
        rw [hdocument, Option.map_some, Setting.readValue_write hv]
        rfl
  rw [File.document, given_document]
  match k with
  | .buildRoot | .buildTypes | .formats | .jobs | .buildFile | .builtinRoot => exact hfield
  | .tool t =>
      dsimp only
      cases htoolchain : File.field? fields "toolchain" with
      | none =>
          -- without a toolchain there are no tools, in the file as in its document
          have hnone : File.given fields (.tool t) = none := by
            rw [File.given, File.tree?, File.toolFields, htoolchain]
            rfl
          rw [hnone]
          exact given_builtInDocument (.tool t)
      | some tree =>
          show (Except.ok (((File.given fields (.tool t)).bind Except.toOption).getD t.builtIn) :
            Checked String) = _
          cases hgiven : File.given fields (.tool t) with
          | none => rfl
          | some content =>
              obtain ⟨a, rfl⟩ := h content hgiven
              rfl

theorem distinct_fileDocument (fields : List (String × Yaml.Tree)) :
    (Value.map (File.document fields)).Distinct := by
  refine distinct_document fun k v hv => ?_
  obtain ⟨content, -, hcontent⟩ := Option.bind_eq_some_iff.1 hv
  obtain ⟨x, -, hx⟩ := Option.bind_eq_some_iff.1 hcontent
  exact Setting.distinct_write hx

theorem distinct_overridesDocument (o : Overrides) : (Value.map o.document).Distinct := by
  refine distinct_document fun k v hv => .other v fun entries hmap => ?_
  subst hmap
  cases k with
  | buildRoot | jobs =>
      obtain ⟨_, -, h⟩ := Option.map_eq_some_iff.1 hv
      cases h
  | buildTypes | formats =>
      simp only [Overrides.value?] at hv
      split at hv <;> cases hv
  | buildFile | builtinRoot | tool _ => cases hv

/-- The documents of all sources on top of each other. -/
def merged (fields : List (String × Yaml.Tree)) (environment : List (String × Value))
    (o : Overrides) : List (String × Value) :=
  Value.mergeEntries (Value.mergeEntries (Value.mergeEntries builtInDocument (File.document fields))
    environment) o.document

/-- **Layers can be merged before they are read**: composing the layers of a file, an
    environment and a command line gives the settings that are read off their merged
    documents. -/
theorem compose_eq_merged {fields : List (String × Yaml.Tree)} {file : Layer}
    {environment : List (String × Value)} {o : Overrides} {s : Settings}
    (hfile : Layer.ofFields fields = .ok file) (henvironment : (Value.map environment).Distinct) :
    compose file (.ofEntries environment) o.layer = .ok s ↔
      (Layer.ofEntries (merged fields environment o)).settings = .ok s ∧ check s = .ok s := by
  obtain ⟨hdefect, hgiven⟩ := Layer.get_ofFields hfile
  have hcli : o.document.lookup "toolchain" = none := lookup_toolchain_document
  have hbuiltIn : Layer.HasTools builtInDocument := hasTools_document _
  have hlower : Layer.HasTools (Value.mergeEntries builtInDocument (File.document fields)) := by
    refine hbuiltIn.merge (distinct_fileDocument fields).keys ?_
    rw [File.document]
    cases File.field? fields "toolchain" with
    | none => exact .inl lookup_toolchain_document
    | some tree => exact .inr (hasTools_document _)
  -- only the environment can have a defect, and merging neither hides it nor adds one
  have hmergedDefect : (Layer.ofEntries (merged fields environment o)).defect = none ↔
      (Layer.ofEntries environment).defect = none := by
    rw [← Layer.defect_merge henvironment hlower]
    show (Environment.tools ((merged fields environment o).lookup "toolchain")).defect = none ↔ _
    rw [merged, Value.lookup_mergeEntries (distinct_overridesDocument o).keys, hcli]
    rfl
  have hlayersDefect : (o.layer.upon ((Layer.ofEntries environment).upon file)).defect = none ↔
      (Layer.ofEntries environment).defect = none := by
    rw [Layer.defect_upon, Layer.defect_upon, hdefect]
    exact ⟨fun h => h.2.1, fun h => ⟨rfl, h, rfl⟩⟩
  rw [compose_eq_ok_iff, Layer.settings_eq_ok_iff, Layer.settings_eq_ok_iff, hmergedDefect,
    hlayersDefect]
  refine and_congr_left fun _ => and_congr_right fun henv => forall_congr' fun k => ?_
  have hmerged : (Layer.ofEntries (merged fields environment o)).get k =
      (o.given k <|> Environment.given environment k <|>
        Environment.given (File.document fields) k <|> Environment.given builtInDocument k) := by
    rw [Layer.get_ofEntries (hmergedDefect.2 henv), merged,
      Layer.given_merge (distinct_overridesDocument o) defect_document (.inl hcli),
      Layer.given_merge henvironment henv (.inr hlower),
      Layer.given_merge (distinct_fileDocument fields) defect_document (.inr hbuiltIn),
      given_overridesDocument]
  rw [hmerged, Layer.get_upon, Layer.get_upon, Layer.get_layer, Layer.get_ofEntries henv,
    (hgiven k).1]
  cases o.given k with
  | some content => exact Iff.rfl
  | none =>
      cases Environment.given environment k with
      | some content => exact Iff.rfl
      | none =>
          show (File.given fields k).getD _ = _ ↔ (Environment.given (File.document fields) k <|>
            Environment.given builtInDocument k).getD _ = _
          rw [given_fileDocument (hgiven k).2]

end Buildwright.Configuration
