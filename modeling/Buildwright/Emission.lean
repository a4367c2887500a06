import Buildwright.Prepared

/-!
# What outputs are made from

Every output of a run is a function of its session, of the prepared rules and of the
order in which rules are emitted.

## Contents

* `Emission` — the three together;
* `Emission.dependencyArtifacts` — what a rule uses of others;
* `Emission.compileCommand` — how a source is compiled.
-/

namespace Buildwright

/-- What the outputs of a run are made from. -/
structure Emission where
  session : Session
  prepared : Prepared
  /-- The rules, each after those it depends on. -/
  order : List RuleId
deriving DecidableEq

/-- How a source is compiled. -/
structure CompileCommand where
  source : Path
  object : Path
  /-- The compiler and its arguments. -/
  arguments : List String
deriving DecidableEq, Repr, Inhabited

/-- Entries without those that have the key of an earlier one. -/
def distinctKeys {κ α : Type} [DecidableEq κ] : List (κ × α) → List (κ × α)
  | [] => []
  | e :: rest => e :: (distinctKeys rest).filter fun f => f.1 ≠ e.1

/-- Paths without those that are the same as an earlier one. -/
def Path.distinct (paths : List Path) : List Path :=
  (distinctKeys (paths.map fun p => (p.components, p))).map Prod.snd

namespace Emission

def rule (e : Emission) (id : RuleId) : Rule := e.prepared.rule id

def resolved (e : Emission) (id : RuleId) : Resolved := e.prepared.at_ id

/-- The output directory. -/
def buildRoot (e : Emission) : Path := e.session.layout.buildRoot

/-- The artifacts of everything that a rule depends on, dependencies first. -/
def dependencyArtifacts (e : Emission) (id : RuleId) (t : BuildType) : List Path :=
  Path.distinct ((e.resolved id).order.flatMap fun d => (e.resolved d).artifactsFor t)

/-- The command that compiles a source of a rule. -/
def compileCommand (e : Emission) (id : RuleId) (s : SourceFile) (t : BuildType) :
    CompileCommand :=
  let rule := e.rule id
  let known := e.resolved id
  let tools := e.session.toolchain
  let (compiler, own) :=
    match rule.cc? with
    | some a => if s.isC then (tools.cc, a.cflags) else (tools.cxx, a.cxxflags)
    | none => (tools.cxx, [])
  let object := rule.objectPath e.buildRoot t s
  { source := s.path
    object
    arguments :=
      compiler :: t.flags ++ known.includes ++ known.defines ++ own ++
        ["-c", s.path.text, "-o", object.text] }

end Emission

end Buildwright
