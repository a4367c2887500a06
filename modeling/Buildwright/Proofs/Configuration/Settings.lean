import Buildwright.Configuration.Load
import Buildwright.Proofs.Outcome

/-! # Single settings

    Nine things can be set by themselves: six keys of a document, and the three tools
    under the key of the toolchain.  Each is read by itself off the text of a file, off the
    variables of an environment and off the command line, and composing takes each from the
    highest of them that gives it.

    * `Setting`, `Setting.of` — what can be set by itself;
    * `File.given`, `Environment.given`, `Overrides.given` — what a source gives to a setting;
    * `Layer.get`, `Layer.settings_eq_ok_iff` — layers, setting by setting;
    * `compose_eq_ok_iff` — what composing gives. -/

namespace Buildwright.Configuration

/-! ## Settings -/

/-- The tools of a toolchain. -/
inductive Tool where
  | cc
  | cxx
  | ar
deriving DecidableEq, Repr

namespace Tool

def name : Tool → String
  | cc => "cc"
  | cxx => "cxx"
  | ar => "ar"

/-- The place in a list of tools. -/
def place : Tool → Nat
  | cc => 0
  | cxx => 1
  | ar => 2

def of (t : Toolchain) : Tool → String
  | cc => t.cc
  | cxx => t.cxx
  | ar => t.ar

def builtIn (tool : Tool) : String :=
  tool.of {}

end Tool

/-- What can be set by itself. -/
inductive Setting where
  | buildRoot
  | buildTypes
  | formats
  | jobs
  | buildFile
  | builtinRoot
  | tool (tool : Tool)
deriving DecidableEq, Repr

namespace Setting

abbrev Content : Setting → Type
  | buildRoot => Path
  | buildTypes => List BuildType
  | formats => List String
  | jobs => Option Nat
  | buildFile => String
  | builtinRoot => Option Path
  | tool _ => String

/-- The key in a document.  The tools lie in a map under the key of the toolchain. -/
def key : Setting → String
  | buildRoot => "build_root"
  | buildTypes => "build_types"
  | formats => "formats"
  | jobs => "jobs"
  | buildFile => "build_file"
  | builtinRoot => "builtin_root"
  | tool _ => "toolchain"

def of (s : Settings) : (k : Setting) → k.Content
  | buildRoot => s.buildRoot
  | buildTypes => s.buildTypes
  | formats => s.formats
  | jobs => s.jobs
  | buildFile => s.buildFile
  | builtinRoot => s.builtinRoot
  | tool t => t.of s.toolchain

def builtIn (k : Setting) : k.Content :=
  k.of {}

/-- What the tree of a file is read as. -/
def readTree : (k : Setting) → Yaml.Tree → Checked k.Content
  | buildRoot, tree => (File.text tree).map Path.mk
  | buildTypes, tree => do buildTypesOf (← File.texts tree)
  | formats, tree => File.texts tree
  | jobs, tree => (File.count tree).map some
  | buildFile, tree => File.text tree
  | builtinRoot, tree => ((File.text tree).map Path.mk).map some
  | tool _, tree => File.text tree

/-- What the value of a variable is read as. -/
def readValue : (k : Setting) → Value → Checked k.Content
  | buildRoot, v => (Environment.text v).map Path.mk
  | buildTypes, v => do buildTypesOf (← Environment.texts v)
  | formats, v => Environment.texts v
  | jobs, v => Environment.orNull Environment.count v
  | buildFile, v => Environment.text v
  | builtinRoot, v => Environment.orNull (fun v => (Environment.text v).map Path.mk) v
  | tool _, v => Environment.text v

end Setting

/-! ## What a source gives to a setting -/

/-- The fields of the text of a file. -/
def File.fieldsOf (content : String) : Checked (List (String × Yaml.Tree)) :=
  if Text.isBlankText content then .ok []
  else
    match Yaml.Node.ofText? content with
    | none => .error "not a YAML document"
    | some none => .ok []
    | some (some node) => File.fieldsAmong File.keys (.ofNode node)

/-- The tools that the toolchain of a file mentions. -/
def File.toolFields (fields : List (String × Yaml.Tree)) : List (String × Yaml.Tree) :=
  ((File.field? fields "toolchain").bind Yaml.Tree.fields?).getD []

/-- The tree that a file has for a setting.  A key without a value has none, but a tool that is
    mentioned has one in any case. -/
def File.tree? (fields : List (String × Yaml.Tree)) : Setting → Option Yaml.Tree
  | .tool t => (File.toolFields fields).lookup t.name
  | k => File.field? fields k.key

/-- What the fields of a file give to a setting. -/
def File.given (fields : List (String × Yaml.Tree)) (k : Setting) : Option (Checked k.Content) :=
  (File.tree? fields k).map k.readTree

/-- The value that the variables of an environment have for a setting.  A list of tools has one
    for every tool, which is the built-in one where the list is too short. -/
def Environment.value? (entries : List (String × Value)) : Setting → Option Value
  | .tool t =>
    match entries.lookup "toolchain" with
    | some (.map tools) => tools.lookup t.name
    | some (.list items) => some (items.getD t.place (.text t.builtIn))
    | _ => none
  | k => entries.lookup k.key

/-- What the variables of an environment give to a setting. -/
def Environment.given (entries : List (String × Value)) (k : Setting) :
    Option (Checked k.Content) :=
  (Environment.value? entries k).map k.readValue

/-- What the command line gives to a setting.  Neither nothing nor an empty list gives
    anything. -/
def Overrides.given (o : Overrides) : (k : Setting) → Option (Checked k.Content)
  | .buildRoot => o.buildRoot.map .ok
  | .buildTypes => if o.buildTypes = [] then none else some (buildTypesOf o.buildTypes)
  | .formats => if o.formats = [] then none else some (.ok o.formats)
  | .jobs => o.jobs.map fun n => .ok (some n)
  | .buildFile | .builtinRoot | .tool _ => none

/-! ## Layers -/

namespace Layer

variable {l : Layer} {s : Settings}

/-- What a layer gives to a setting. -/
def get (l : Layer) : (k : Setting) → Option (Checked k.Content)
  | .buildRoot => l.buildRoot
  | .buildTypes => l.buildTypes
  | .formats => l.formats
  | .jobs => l.jobs
  | .buildFile => l.buildFile
  | .builtinRoot => l.builtinRoot
  | .tool .cc => l.cc
  | .tool .cxx => l.cxx
  | .tool .ar => l.ar

theorem get_upon (upper lower : Layer) (k : Setting) :
    (upper.upon lower).get k = (upper.get k <|> lower.get k) := by
  match k with
  | .buildRoot | .buildTypes | .formats | .jobs | .buildFile | .builtinRoot => rfl
  | .tool .cc | .tool .cxx | .tool .ar => rfl

theorem defect_upon (upper lower : Layer) :
    (upper.upon lower).defect = none ↔ upper.defect = none ∧ lower.defect = none := by
  show (upper.defect <|> lower.defect) = none ↔ _
  cases upper.defect with
  | none => exact (and_iff_right rfl).symm
  | some reason => exact iff_of_false nofun fun h => absurd h.1 nofun

/-- The settings of a layer are what it gives to each setting, or else what is built in. -/
theorem settings_eq_ok_iff : l.settings = .ok s ↔
    l.defect = none ∧ ∀ k, (l.get k).getD (.ok k.builtIn) = .ok (k.of s) := by
  cases hdefect : l.defect with
  | some reason =>
      rw [settings, hdefect]
      exact iff_of_false nofun fun h => absurd h.1 nofun
  | none =>
      rw [settings, hdefect]
      constructor
      · intro h
        obtain ⟨buildRoot, h₁, h⟩ := exists_of_bind_eq_ok h
        obtain ⟨buildTypes, h₂, h⟩ := exists_of_bind_eq_ok h
        obtain ⟨formats, h₃, h⟩ := exists_of_bind_eq_ok h
        obtain ⟨jobs, h₄, h⟩ := exists_of_bind_eq_ok h
        obtain ⟨buildFile, h₅, h⟩ := exists_of_bind_eq_ok h
        obtain ⟨builtinRoot, h₆, h⟩ := exists_of_bind_eq_ok h
        obtain ⟨cc, h₇, h⟩ := exists_of_bind_eq_ok h
        obtain ⟨cxx, h₈, h⟩ := exists_of_bind_eq_ok h
        obtain ⟨ar, h₉, h⟩ := exists_of_bind_eq_ok h
        cases h
        refine ⟨rfl, fun k => ?_⟩
        match k with
        | .buildRoot => exact h₁
        | .buildTypes => exact h₂
        | .formats => exact h₃
        | .jobs => exact h₄
        | .buildFile => exact h₅
        | .builtinRoot => exact h₆
        | .tool .cc => exact h₇
        | .tool .cxx => exact h₈
        | .tool .ar => exact h₉
      · rintro ⟨-, h⟩
        have h₁ := h .buildRoot
        have h₂ := h .buildTypes
        have h₃ := h .formats
        have h₄ := h .jobs
        have h₅ := h .buildFile
        have h₆ := h .builtinRoot
        have h₇ := h (.tool .cc)
        have h₈ := h (.tool .cxx)
        have h₉ := h (.tool .ar)
        simp only [get, Setting.builtIn, Setting.of, Tool.of] at h₁ h₂ h₃ h₄ h₅ h₆ h₇ h₈ h₉
        simp only [valueOr, h₁, h₂, h₃, h₄, h₅, h₆, h₇, h₈, h₉]
        rfl

/-! ### The layers of the sources -/

/-- The layer of values under keys. -/
def ofEntries (entries : List (String × Value)) : Layer :=
  let tools := Environment.tools (entries.lookup "toolchain")
  { buildRoot := (entries.lookup "build_root").map (Setting.readValue .buildRoot)
    buildTypes := (entries.lookup "build_types").map (Setting.readValue .buildTypes)
    formats := (entries.lookup "formats").map (Setting.readValue .formats)
    jobs := (entries.lookup "jobs").map (Setting.readValue .jobs)
    buildFile := (entries.lookup "build_file").map (Setting.readValue .buildFile)
    builtinRoot := (entries.lookup "builtin_root").map (Setting.readValue .builtinRoot)
    cc := tools.tool? "cc" (Tool.builtIn .cc)
    cxx := tools.tool? "cxx" (Tool.builtIn .cxx)
    ar := tools.tool? "ar" (Tool.builtIn .ar)
    defect := tools.defect }

/-- The layer of an environment is the one of the values of its variables. -/
theorem ofEnvironment_eq (environment : List (String × String)) :
    ofEnvironment environment = ofEntries (Environment.entries environment) :=
  rfl

theorem get_tool_ofEntries (entries : List (String × Value)) (t : Tool) :
    (ofEntries entries).get (.tool t) =
      (Environment.tools (entries.lookup "toolchain")).tool? t.name t.builtIn := by
  cases t <;> rfl

/-- A list of tools gives every tool. -/
theorem tool?_list {items : List Value} (h : items.length ≤ toolKeys.length) (t : Tool) :
    (Environment.tools (some (.list items))).tool? t.name t.builtIn =
      some (Environment.text (items.getD t.place (.text t.builtIn))) := by
  rw [Environment.tools, if_pos h]
  match items, h with
  | [], _ | [_], _ | [_, _], _ | [_, _, _], _ => cases t <;> rfl

theorem get_ofEntries {entries : List (String × Value)} (h : (ofEntries entries).defect = none)
    (k : Setting) : (ofEntries entries).get k = Environment.given entries k := by
  match k with
  | .buildRoot | .buildTypes | .formats | .jobs | .buildFile | .builtinRoot => rfl
  | .tool t =>
      rw [get_tool_ofEntries, Environment.given, Environment.value?]
      replace h : (Environment.tools (entries.lookup "toolchain")).defect = none := h
      cases htools : entries.lookup "toolchain" with
      | none => rfl
      | some v =>
          rw [htools] at h
          cases v with
          | map tools =>
              simp only [Environment.tools] at h ⊢
              cases hunknown : tools.find? fun e => e.1 ∉ toolKeys with
              | some e =>
                  rw [hunknown] at h
                  cases h
              | none =>
                  simp only [Environment.Tools.tool?]
                  cases tools.lookup t.name <;> rfl
          | list items =>
              by_cases hlength : items.length ≤ toolKeys.length
              · exact tool?_list hlength t
              · rw [Environment.tools, if_neg hlength] at h
                cases h
          | null | flag _ | integer _ | fraction | text _ => cases h

variable {fields : List (String × Yaml.Tree)}

/-- What is given without an error is the tree as it is read, and it has been read. -/
theorem eq_map_of_match {α : Type} {tree? : Option Yaml.Tree} {read : Yaml.Tree → Checked α}
    {x : Option (Checked α)}
    (h : (match tree? with
      | none => .ok none
      | some tree => (read tree).map fun value => some (.ok value) : Checked _) = .ok x) :
    x = tree?.map read ∧ ∀ content, tree?.map read = some content → ∃ a, content = .ok a := by
  cases tree? with
  | none => exact ⟨(Except.ok.inj h).symm, nofun⟩
  | some tree =>
      rw [Option.map_some]
      cases hread : read tree with
      | error e =>
          simp only [hread] at h
          cases h
      | ok a =>
          simp only [hread] at h
          refine ⟨(Except.ok.inj h).symm, ?_⟩
          rintro _ ⟨⟩
          exact ⟨a, rfl⟩

/-- What is done with the tools of a file is done with those that it mentions. -/
theorem eq_ok_of_toolFields {f : List (String × Yaml.Tree) → Checked Layer}
    (h : (match File.field? fields "toolchain" with
      | none => do f (← pure [])
      | some tree => do f (← File.fieldsAmong toolKeys tree) : Checked Layer) = .ok l) :
    f (File.toolFields fields) = .ok l := by
  rw [File.toolFields]
  cases hfield : File.field? fields "toolchain" with
  | none =>
      rw [hfield] at h
      exact h
  | some tree =>
      rw [hfield] at h
      obtain ⟨tools, htools, h⟩ := exists_of_bind_eq_ok h
      rw [File.fieldsAmong] at htools
      cases hfields : tree.fields? with
      | none =>
          rw [hfields] at htools
          cases htools
      | some tools' =>
          simp only [hfields] at htools
          split at htools
          · cases htools
          · cases htools
            rw [Option.bind_some, hfields]
            exact h

/-- A file that is read gives its settings as they are read. -/
theorem get_ofFields (h : ofFields fields = .ok l) :
    l.defect = none ∧ ∀ k, l.get k = File.given fields k ∧
      ∀ content, File.given fields k = some content → ∃ a, content = .ok a := by
  simp only [ofFields] at h
  have h := eq_ok_of_toolFields h
  obtain ⟨buildRoot, h₁, h⟩ := exists_of_bind_eq_ok h
  obtain ⟨buildTypes, h₂, h⟩ := exists_of_bind_eq_ok h
  obtain ⟨formats, h₃, h⟩ := exists_of_bind_eq_ok h
  obtain ⟨jobs, h₄, h⟩ := exists_of_bind_eq_ok h
  obtain ⟨buildFile, h₅, h⟩ := exists_of_bind_eq_ok h
  obtain ⟨builtinRoot, h₆, h⟩ := exists_of_bind_eq_ok h
  obtain ⟨cc, h₇, h⟩ := exists_of_bind_eq_ok h
  obtain ⟨cxx, h₈, h⟩ := exists_of_bind_eq_ok h
  obtain ⟨ar, h₉, h⟩ := exists_of_bind_eq_ok h
  cases h
  refine ⟨rfl, fun k => ?_⟩
  match k with
  | .buildRoot => exact eq_map_of_match h₁
  | .buildTypes => exact eq_map_of_match h₂
  | .formats => exact eq_map_of_match h₃
  | .jobs => exact eq_map_of_match h₄
  | .buildFile => exact eq_map_of_match h₅
  | .builtinRoot => exact eq_map_of_match h₆
  | .tool .cc => exact eq_map_of_match h₇
  | .tool .cxx => exact eq_map_of_match h₈
  | .tool .ar => exact eq_map_of_match h₉

theorem ofFile_eq (content : String) : ofFile content = File.fieldsOf content >>= ofFields := by
  rw [ofFile, File.fieldsOf]
  split
  · rfl
  · cases Yaml.Node.ofText? content with
    | none => rfl
    | some node? => cases node? <;> rfl

theorem get_layer (o : Overrides) (k : Setting) : o.layer.get k = o.given k := by
  match k with
  | .buildRoot | .buildTypes | .formats | .jobs | .buildFile | .builtinRoot => rfl
  | .tool .cc | .tool .cxx | .tool .ar => rfl

end Layer

/-! ## Composing -/

/-- Settings that pass the check are as they were. -/
theorem check_eq_ok_iff {s s' : Settings} : check s = .ok s' ↔
    s = s' ∧ s.jobs ≠ some 0 ∧ s.buildTypes ≠ [] ∧ s.buildFile ≠ "" ∧ '/' ∉ s.buildFile.toList := by
  have hname : isPlainFileName s.buildFile = true ↔
      s.buildFile ≠ "" ∧ '/' ∉ s.buildFile.toList := by
    simp [isPlainFileName]
  rw [check, ← hname]
  by_cases hjobs : s.jobs = some 0
  · rw [if_pos hjobs]
    exact iff_of_false nofun fun h => h.2.1 hjobs
  rw [if_neg hjobs]
  by_cases htypes : s.buildTypes = []
  · rw [if_pos htypes]
    exact iff_of_false nofun fun h => h.2.2.1 htypes
  rw [if_neg htypes]
  by_cases hplain : isPlainFileName s.buildFile = true
  · rw [if_pos hplain]
    exact ⟨fun h => ⟨Except.ok.inj h, hjobs, htypes, hplain⟩, fun h => congrArg Except.ok h.1⟩
  · rw [if_neg hplain]
    exact iff_of_false nofun fun h => hplain h.2.2.2

/-- The settings of a run are read off its layers, setting by setting, and checked. -/
theorem compose_eq_ok_iff {file environment commandLine : Layer} {s : Settings} :
    compose file environment commandLine = .ok s ↔
      (commandLine.upon (environment.upon file)).settings = .ok s ∧ check s = .ok s := by
  rw [compose]
  cases hsettings : (commandLine.upon (environment.upon file)).settings with
  | error reason => exact iff_of_false nofun fun h => absurd h.1 nofun
  | ok s' =>
      constructor
      · intro h
        obtain ⟨rfl, -⟩ := check_eq_ok_iff.1 h
        exact ⟨rfl, h⟩
      · rintro ⟨h, hcheck⟩
        cases h
        exact hcheck

end Buildwright.Configuration
