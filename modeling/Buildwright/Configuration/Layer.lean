import Buildwright.Session

/-!
# Layers of settings

Settings come from several layers: what is built in, a file, the environment and the
command line. A layer gives values to some keys; of the layers that give one to a key
the highest counts, and what lower layers say about that key does not matter, even if
it is wrong.

## Contents

* `Layer` — the values that one source gives;
* `Layer.upon` — a layer on top of another;
* `Layer.settings` — the settings that a layer on top of the built-in ones gives.
-/

namespace Buildwright.Configuration

/-- A value, or the reason why what is given cannot be used. -/
abbrev Checked := Except String

/-- The keys of the tools of a toolchain, in their order. -/
def toolKeys : List String := ["cc", "cxx", "ar"]

/-- The values that one source gives. A list is given as a whole. -/
structure Layer where
  buildRoot : Option (Checked Path) := none
  buildTypes : Option (Checked (List BuildType)) := none
  formats : Option (Checked (List String)) := none
  /-- The number of jobs. Nothing can be given as well, and then hides lower layers. -/
  jobs : Option (Checked (Option Nat)) := none
  buildFile : Option (Checked String) := none
  /-- The root of built-in packages, or nothing. -/
  builtinRoot : Option (Checked (Option Path)) := none
  cc : Option (Checked String) := none
  cxx : Option (Checked String) := none
  ar : Option (Checked String) := none
  /-- What is wrong beside the values; no higher layer hides it. -/
  defect : Option String := none
deriving Inhabited

namespace Layer

/-- One layer above another: key by key, the upper one counts if it gives a value. -/
def upon (upper lower : Layer) : Layer where
  buildRoot := upper.buildRoot <|> lower.buildRoot
  buildTypes := upper.buildTypes <|> lower.buildTypes
  formats := upper.formats <|> lower.formats
  jobs := upper.jobs <|> lower.jobs
  buildFile := upper.buildFile <|> lower.buildFile
  builtinRoot := upper.builtinRoot <|> lower.builtinRoot
  cc := upper.cc <|> lower.cc
  cxx := upper.cxx <|> lower.cxx
  ar := upper.ar <|> lower.ar
  defect := upper.defect <|> lower.defect

/-- The value that a layer gives to a key, or else the one that is built in. -/
def valueOr {α : Type} (given : Option (Checked α)) (builtIn : α) : Checked α :=
  given.getD (.ok builtIn)

/-- The settings that a layer on top of the built-in ones gives. -/
def settings (l : Layer) : Checked Settings :=
  match l.defect with
  | some reason => .error reason
  | none => do
    let builtIn : Settings := {}
    return {
      buildRoot := ← valueOr l.buildRoot builtIn.buildRoot
      buildTypes := ← valueOr l.buildTypes builtIn.buildTypes
      formats := ← valueOr l.formats builtIn.formats
      jobs := ← valueOr l.jobs builtIn.jobs
      buildFile := ← valueOr l.buildFile builtIn.buildFile
      builtinRoot := ← valueOr l.builtinRoot builtIn.builtinRoot
      toolchain := {
        cc := ← valueOr l.cc builtIn.toolchain.cc
        cxx := ← valueOr l.cxx builtIn.toolchain.cxx
        ar := ← valueOr l.ar builtIn.toolchain.ar } }

end Layer

def buildTypesOf (names : List String) : Checked (List BuildType) :=
  (names.mapM BuildType.parse).mapError ConfigProblem.message

end Buildwright.Configuration
