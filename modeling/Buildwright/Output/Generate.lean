import Buildwright.CompilationDatabase
import Buildwright.Loading
import Buildwright.Make.Root
import Buildwright.Output.Files

/-!
# Generation

Generation leads from root files to the generated files: load, freeze, link, prepare,
order, and then for every format the files of the rules and the top file.

## Contents

* `Emission.ruleFile?`, `Emission.rootFile` — one file of a format;
* `Emission.items` — all files of a run, up to the first fault;
* `Emission.compile` — the collected files;
* `Session.load`, `Session.prepareRules`, `Session.compilePrepared` — the stages;
* `Session.prepare`, `Session.generate` — the whole way.
-/

namespace Buildwright

namespace Emission

/-- The file that a compiler makes of a rule. A script compiler makes none of a rule of
    another kind. -/
def compilerFile? (e : Emission) (c : Compiler) (id : RuleId) : Option (Path × String) :=
  let rule := e.rule id
  let file (f : Make.Fragment) := some (Make.fragmentPath e rule, f.text)
  match c, rule.declaration.attributes with
  | .cc, _ => file (Make.ofCc e id)
  | .external, .external a => file (Make.ofExternal e id a)
  | .shell, .script a => file (Make.ofScript e id a)
  | .database, _ => some (CompilationDatabase.ofRule e id)
  | _, _ => none

/-- The file of a rule in a format. A rule type without a compiler is a fault. -/
def ruleFile? (e : Emission) (format : String) (id : RuleId) : Outcome (Option (Path × String)) :=
  let rule := e.rule id
  match e.session.registry.find? format rule.type.name with
  | some (.compiler c) => .ok (e.compilerFile? c id)
  | some .nothing => .ok none
  | none => .error (.noCompiler format rule.type.name rule.fullName)

def rootFile (e : Emission) (format : String) : Outcome (Path × String) :=
  match e.session.registry.root? format with
  | some .makefile => .ok (Make.Root.path e, (Make.Root.ofEmission e).text)
  | some .database => .ok (CompilationDatabase.ofAll e)
  | none => .error (.config (.noRootGenerator format))

/-- The files of a format in order; a fault stands where it is met. -/
def formatItems (e : Emission) (format : String) : List (Outcome (Path × String)) :=
  (e.order.filterMap fun id =>
    match e.ruleFile? format id with
    | .ok file => file.map .ok
    | .error fault => some (.error fault)) ++ [e.rootFile format]

/-- The files of a run in order; a fault stands where it is met. -/
def items (e : Emission) : List (Outcome (Path × String)) :=
  e.session.formats.flatMap e.formatItems

/-- Collect the files of a run. The rules may not form cycles. -/
def compile (e : Emission) (c : Condensation) : GeneratedFiles × Outcome Unit :=
  match e.prepared.linked.set.checkAcyclic c with
  | .error fault => ({}, .error fault)
  | .ok () => ({} : GeneratedFiles).storeAll e.items

end Emission

namespace Session

/-- Load the rules that root files lead to. -/
def load (s : Session) (w : Workspace) (roots : List Path) : Outcome RuleSet := do
  let catalog ← Loading.load s.layout w roots
  catalog.freeze

/-- Link and prepare loaded rules. -/
def prepareRules (s : Session) (expand : String → Path → Except ExpandFault (List String))
    (set : RuleSet) : Outcome Prepared := do
  let linked ← set.link
  Prepared.ofLinked { layout := s.layout, buildTypes := s.buildTypes, expand } linked

/-- Load, link and prepare the rules that root files lead to. -/
def prepare (s : Session) (w : Workspace) (roots : List Path) : Outcome Prepared := do
  let set ← s.load w roots
  s.prepareRules w.expand set

/-- What the outputs of prepared rules are made from. -/
def emission (s : Session) (p : Prepared) : Emission :=
  let c := p.linked.condense
  { session := s, prepared := p, order := c.vertices c.emission }

def compilePrepared (s : Session) (p : Prepared) : Outcome GeneratedFiles := do
  let (files, result) := (s.emission p).compile p.linked.condense
  result
  return files

/-- Generate the files of loaded rules. -/
def generateRules (s : Session) (expand : String → Path → Except ExpandFault (List String))
    (set : RuleSet) : Outcome GeneratedFiles := do
  let p ← s.prepareRules expand set
  s.compilePrepared p

/-- Generate the files of a project. -/
def generate (s : Session) (w : Workspace) (roots : List Path) : Outcome GeneratedFiles :=
  if roots.isEmpty then .error (.config .noRootFiles)
  else do
    let set ← s.load w roots
    s.generateRules w.expand set

end Session

end Buildwright
