import Buildwright.Rule.Declaration

/-!
# Registry of output formats

The registry says, for an output format and a rule type, which compiler turns rules
into files. A pair can also be registered as one that gives no file; a pair that
nobody registered is a fault when such a rule is met. A format is known when it has
a generator for its top file.

## Contents

* `Compiler`, `RootGenerator` — the two kinds of producers;
* `Registry.find`, `Registry.root?` — what is registered;
* `Registry.standard` — the formats that every run knows.
-/

namespace Buildwright

/-- Producers of the files of one rule. -/
inductive Compiler where
  /-- The makefile fragment of a compiled rule. -/
  | cc
  /-- The makefile fragment of an external project. -/
  | external
  /-- The makefile fragment of a script. -/
  | shell
  /-- The compilation database of a rule. -/
  | database
deriving DecidableEq, Repr, Inhabited

/-- Producers of the top file of a format. -/
inductive RootGenerator where
  | makefile
  | database
deriving DecidableEq, Repr, Inhabited

/-- What is registered for a format and a rule type. -/
inductive Registration where
  | compiler (compiler : Compiler)
  /-- Rules of the type give no file. -/
  | nothing
deriving DecidableEq, Repr, Inhabited

/-- The registered producers; later entries stand before those they replace. -/
structure Registry where
  compilers : List ((String × String) × Registration) := []
  roots : List (String × RootGenerator) := []
deriving DecidableEq, Repr, Inhabited

namespace Registry

/-- Register a compiler for a format and the name of a rule type. -/
def register (r : Registry) (format type : String) (c : Compiler) : Registry :=
  { r with compilers := ((format, type), .compiler c) :: r.compilers }

/-- Register that rules of the type give no file in the format. -/
def registerNothing (r : Registry) (format type : String) : Registry :=
  { r with compilers := ((format, type), .nothing) :: r.compilers }

/-- Register the generator of the top file of a format. -/
def registerRoot (r : Registry) (format : String) (g : RootGenerator) : Registry :=
  { r with roots := (format, g) :: r.roots }

/-- What is registered for a format and the name of a rule type. -/
def find? (r : Registry) (format type : String) : Option Registration :=
  r.compilers.lookup (format, type)

/-- The generator of the top file of a format. -/
def root? (r : Registry) (format : String) : Option RootGenerator :=
  r.roots.lookup format

def hasFormat (r : Registry) (format : String) : Bool :=
  (r.root? format).isSome

/-- The known formats in alphabetical order. -/
def formats (r : Registry) : List String :=
  ((r.roots.map Prod.fst).mergeSort (· ≤ ·)).eraseDups

def makefileFormat : String := "makefile"

def databaseFormat : String := "compile_commands"

/-- The names of the rule types that are compiled. -/
def ccTypes : List String :=
  (RuleType.all.filter RuleType.isCc).map RuleType.name

/-- The formats that every run knows. -/
def standard : Registry :=
  let r : Registry := {}
  let r := ccTypes.foldl (fun r type => r.register makefileFormat type .cc) r
  let r := r.register makefileFormat RuleType.externalProject.name .external
  let r := r.register makefileFormat RuleType.shellScript.name .shell
  let r := r.registerRoot makefileFormat .makefile
  let r := ccTypes.foldl (fun r type => r.register databaseFormat type .database) r
  let r := r.registerNothing databaseFormat RuleType.externalProject.name
  let r := r.registerNothing databaseFormat RuleType.shellScript.name
  r.registerRoot databaseFormat .database

end Registry

end Buildwright
