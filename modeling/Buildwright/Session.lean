import Buildwright.BuildType
import Buildwright.Layout
import Buildwright.Registry

/-!
# Settings and sessions

Settings are what a user can choose; a session is a checked choice for one run:
build types in their order and formats in the order of the request, each once, at
least one of both, and every format known.

## Contents

* `Toolchain`, `Settings` — with the defaults;
* `Session`, `Settings.start` — the check.
-/

namespace Buildwright

/-- The programs that recipes call. -/
structure Toolchain where
  /-- The C compiler. -/
  cc : String := "cc"
  /-- The C++ compiler, which links as well. -/
  cxx : String := "c++"
  /-- The archiver of libraries. -/
  ar : String := "ar"
deriving DecidableEq, Repr, Inhabited

/-- What a user can choose. -/
structure Settings where
  /-- The output directory, relative to the project root. -/
  buildRoot : Path := ⟨"build"⟩
  buildTypes : List BuildType := [.debug, .release]
  formats : List String := [Registry.makefileFormat]
  /-- The number of workers; none leaves it to the machine. -/
  jobs : Option Nat := none
  /-- The name of declaration files. -/
  buildFile : String := "BUILD"
  /-- The directory of the builtin tree. -/
  builtinRoot : Option Path := none
  toolchain : Toolchain := {}
deriving DecidableEq, Repr, Inhabited

/-- A checked choice for one run. -/
structure Session where
  layout : Layout
  buildTypes : List BuildType
  formats : List String
  toolchain : Toolchain
  /-- The number of workers, at least one. -/
  workers : Nat
  registry : Registry
deriving DecidableEq, Repr, Inhabited

namespace Settings

/-- Check the settings of a project. -/
def start (s : Settings) (projectRoot : Path) : Outcome Session :=
  if s.buildTypes = [] then .error (.config .noBuildTypes)
  else if s.formats = [] then .error (.config .noFormats)
  else
    match s.formats.find? fun f => !Registry.standard.hasFormat f with
    | some unknown => .error (.config (.unknownFormat unknown Registry.standard.formats))
    | none =>
      .ok {
        layout := {
          projectRoot
          buildRoot := s.buildRoot
          buildFile := s.buildFile
          builtinRoot := s.builtinRoot }
        buildTypes := BuildType.sorted s.buildTypes
        formats := s.formats.eraseDups
        toolchain := s.toolchain
        workers := max 1 (s.jobs.getD 1)
        registry := Registry.standard }

end Settings

end Buildwright
