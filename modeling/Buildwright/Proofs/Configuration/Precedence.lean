import Buildwright.Proofs.Configuration.Documents
import Mathlib.Control.Monad.Basic

/-! # The precedence of sources

    Each setting has the value of the highest source that sets it: the command line, then
    the environment, then the file, then what is built in.  What else the sources set does
    not matter, nor do settings left without a value.

    * `precedence` — every setting by itself, and what is never the result;
    * `short_list_hides_tool` — a list of tools is a whole toolchain. -/

namespace Buildwright.Configuration

/-- **Precedence goes by settings**: what composing gives is read off the merged documents of
    the sources, and every setting of it is what the highest source gives that gives anything to
    this very setting. -/
theorem precedence {content : String} {file : Layer} {environment : List (String × Value)}
    {o : Overrides} {s : Settings} (hfile : Layer.ofFile content = .ok file)
    (henvironment : (Value.map environment).Distinct)
    (h : compose file (.ofEntries environment) o.layer = .ok s) :
    (∃ fields, File.fieldsOf content = .ok fields ∧
      (Layer.ofEntries (merged fields environment o)).settings = .ok s ∧
      ∀ k, (o.given k <|> Environment.given environment k <|> File.given fields k <|>
        some (.ok k.builtIn)) = some (.ok (k.of s))) ∧
    s.jobs ≠ some 0 ∧ s.buildTypes ≠ [] ∧ s.buildFile ≠ "" ∧ '/' ∉ s.buildFile.toList := by
  rw [Layer.ofFile_eq] at hfile
  obtain ⟨fields, hfields, hfile⟩ := exists_of_bind_eq_ok hfile
  have hmerged := ((compose_eq_merged hfile henvironment).1 h).1
  obtain ⟨hsettings, hcheck⟩ := compose_eq_ok_iff.1 h
  obtain ⟨hdefect, hget⟩ := Layer.settings_eq_ok_iff.1 hsettings
  have henv : (Layer.ofEntries environment).defect = none :=
    ((Layer.defect_upon _ _).1 ((Layer.defect_upon _ _).1 hdefect).2).1
  refine ⟨⟨fields, hfields, hmerged, fun k => ?_⟩, (check_eq_ok_iff.1 hcheck).2⟩
  have hk := hget k
  rw [Layer.get_upon, Layer.get_upon, Layer.get_layer, Layer.get_ofEntries henv,
    ((Layer.get_ofFields hfile).2 k).1] at hk
  rw [← hk]
  cases o.given k with
  | some content => rfl
  | none =>
      cases Environment.given environment k with
      | some content => rfl
      | none => cases File.given fields k <;> rfl

/-- Sources that set one thing or another: a file, an environment and a command line. -/
def mixedFile : String :=
  "jobs: 2\nbuild_root: out\nformats: ~\ntoolchain: {cxx: clang++}\n"

def mixedVariables : List (String × String) :=
  [("JK_JOBS", "5"), ("JK_TOOLCHAIN__AR", "gar"), ("PATH", "/bin")]

def mixedOverrides : Overrides where
  buildTypes := ["release"]

def mixedSettings : Settings where
  buildRoot := ⟨"out"⟩
  buildTypes := [.release]
  jobs := some 5
  toolchain := { cxx := "clang++", ar := "gar" }

/-- The jobs and the archiver are those of the environment, the compiler is that of the file. -/
theorem precedence_mixed : ∃ fields, File.fieldsOf mixedFile = .ok fields ∧
    (Layer.ofEntries (merged fields (Environment.entries mixedVariables)
      mixedOverrides)).settings = .ok mixedSettings ∧
    ∀ k, (mixedOverrides.given k <|> Environment.given (Environment.entries mixedVariables) k <|>
      File.given fields k <|> some (.ok k.builtIn)) = some (.ok (k.of mixedSettings)) := by
  have hcompose : (Layer.ofFile mixedFile >>= fun file => .ok (compose file
      (.ofEnvironment mixedVariables) mixedOverrides.layer)) = .ok (.ok mixedSettings) := by
    decide +kernel
  obtain ⟨file, hfile, h⟩ := exists_of_bind_eq_ok hcompose
  rw [Layer.ofEnvironment_eq] at h
  exact (precedence hfile (Environment.distinct_entries mixedVariables) (Except.ok.inj h)).1

/-- A list of tools in the environment hides a tool of the file that it does not reach, and a
    tool of the file counts although it is null. -/
theorem short_list_hides_tool :
    (∃ file, Layer.ofFile "toolchain: {ar: gar}\n" = .ok file ∧
      file.get (.tool .ar) = some (.ok "gar") ∧
      compose file (.ofEntries [("toolchain", .list [.text "clang"])]) (Overrides.layer {}) =
        .ok { toolchain := { cc := "clang", ar := "ar" } }) ∧
    ∃ fields file, File.fieldsOf "toolchain: {cc: null}\n" = .ok fields ∧
      (File.tree? fields (.tool .cc)).map Yaml.Tree.isNothing = some true ∧
      Layer.ofFile "toolchain: {cc: null}\n" = .ok file ∧
      compose file (.ofEntries []) (Overrides.layer {}) =
        .ok { toolchain := { cc := "null" } } := by
  constructor
  · have hcompose : (Layer.ofFile "toolchain: {ar: gar}\n" >>= fun file => .ok (file.ar,
        compose file (.ofEntries [("toolchain", .list [.text "clang"])]) (Overrides.layer {}))) =
        .ok (some (.ok "gar"), .ok { toolchain := { cc := "clang", ar := "ar" } }) := by
      decide +kernel
    obtain ⟨file, hfile, h⟩ := exists_of_bind_eq_ok hcompose
    obtain ⟨har, hsettings⟩ := Prod.mk.inj (Except.ok.inj h)
    exact ⟨file, hfile, har, hsettings⟩
  · have hnull : (File.fieldsOf "toolchain: {cc: null}\n" >>= fun fields => .ok
        ((File.tree? fields (.tool .cc)).map Yaml.Tree.isNothing)) = .ok (some true) := by
      decide +kernel
    have hcompose : (Layer.ofFile "toolchain: {cc: null}\n" >>= fun file => .ok
        (compose file (.ofEntries []) (Overrides.layer {}))) =
        .ok (.ok { toolchain := { cc := "null" } }) := by decide +kernel
    obtain ⟨fields, hfields, hnull⟩ := exists_of_bind_eq_ok hnull
    obtain ⟨file, hfile, hsettings⟩ := exists_of_bind_eq_ok hcompose
    exact ⟨fields, file, hfields, Except.ok.inj hnull, hfile, Except.ok.inj hsettings⟩

end Buildwright.Configuration
