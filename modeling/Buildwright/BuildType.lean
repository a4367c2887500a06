import Buildwright.Fault

/-!
# Build types

A build type is a way to compile the same rules: its name is the folder of its
outputs, its target the suffix of its make targets, its flags are passed to the
compiler.
-/

namespace Buildwright

/-- A way to compile, in the order in which outputs list them. -/
inductive BuildType where
  | debug
  | release
  | profiling
deriving DecidableEq, Repr, Inhabited

namespace BuildType

/-- All build types in order. -/
def all : List BuildType := [debug, release, profiling]

/-- Position in the order of build types. -/
def rank : BuildType → Nat
  | debug => 0
  | release => 1
  | profiling => 2

/-- The name of a build type and of its output folder. -/
def name : BuildType → String
  | debug => "DEBUG"
  | release => "RELEASE"
  | profiling => "PROFILING"

/-- The suffix of its make targets. -/
def target : BuildType → String
  | debug => "debug"
  | release => "release"
  | profiling => "profiling"

/-- The compiler flags it adds. -/
def flags : BuildType → List String
  | debug => ["-g", "-O0"]
  | release => ["-O2", "-DNDEBUG"]
  | profiling => ["-O2", "-g", "-pg"]

/-- The build type of a name, whose case does not count. -/
def ofName? (name : String) : Option BuildType :=
  all.find? fun t => t.target.toList = name.toList.map Char.toLower

/-- The build type of a name, or the problem with it. -/
def parse (name : String) : Except ConfigProblem BuildType :=
  match ofName? name with
  | some t => .ok t
  | none => .error (.unknownBuildType name)

/-- Build types in order, each once. -/
def sorted (types : List BuildType) : List BuildType :=
  all.filter (· ∈ types)

end BuildType

end Buildwright
