import Buildwright.Package.Key
import Buildwright.Rule.Basic

/-!
# The catalog of packages

Loading fills a catalog: packages by key, each with its state and its rules in
order of declaration, and all rules in order of loading. The number of a rule is
its place in that order.

## Contents

* `Package`, `LoadState` — one package;
* `Catalog.visit`, `begin`, `addRule`, `finish` — the steps of loading;
* `Catalog.freeze` — the finished catalog, if every package is done.
-/

namespace Buildwright

/-- How far a package has been loaded. -/
inductive LoadState where
  | notStarted
  | inProgress
  | done
deriving DecidableEq, Repr, Inhabited

namespace LoadState

def name : LoadState → String
  | notStarted => "NotStarted"
  | inProgress => "InProgress"
  | done => "Done"

/-- States come in the order of loading. -/
def rank : LoadState → Nat
  | notStarted => 0
  | inProgress => 1
  | done => 2

end LoadState

/-- A package in the catalog. -/
structure Package where
  key : String
  state : LoadState := .notStarted
  /-- The declaration file, once loading has begun. -/
  file : Option Path := none
  /-- Rule names and numbers in order of declaration. -/
  rules : List (String × RuleId) := []
deriving DecidableEq, Repr, Inhabited

/-- Packages in order of their keys, and rules in order of their numbers. -/
structure Catalog where
  packages : List Package := []
  rules : List Rule := []
deriving DecidableEq, Repr, Inhabited

namespace Catalog

def package? (c : Catalog) (key : String) : Option Package :=
  c.packages.find? (·.key = key)

def contains (c : Catalog) (key : String) : Bool :=
  c.packages.any (·.key = key)

def rule? (c : Catalog) (id : RuleId) : Option Rule :=
  c.rules[id]?

/-- Put a package into a list that is ordered by key. -/
def insertPackage (p : Package) : List Package → List Package
  | [] => [p]
  | q :: rest => if p.key < q.key then p :: q :: rest else q :: insertPackage p rest

/-- Make sure that the catalog has a package of this key. -/
def visit (c : Catalog) (key : String) : Catalog :=
  if c.contains key then c else { c with packages := insertPackage { key } c.packages }

def modify (c : Catalog) (key : String) (f : Package → Package) : Catalog :=
  { c with packages := c.packages.map fun p => if p.key = key then f p else p }

/-- Whether loading of the package has not begun. -/
def isFresh (c : Catalog) (key : String) : Bool :=
  match c.package? key with
  | some p => p.state = .notStarted
  | none => true

/-- Begin to load a package that is not started; others stay as they are. -/
def begin (c : Catalog) (key : String) (file : Path) : Catalog :=
  (c.visit key).modify key fun p =>
    if p.state = .notStarted then { p with state := .inProgress, file := some file } else p

/-- Mark a package as loaded. -/
def finish (c : Catalog) (key : String) : Catalog :=
  (c.visit key).modify key fun p => { p with state := .done }

def lookup? (c : Catalog) (key rule : String) : Option RuleId :=
  (c.package? key).bind fun p => p.rules.lookup rule

/-- Add a rule to a package under the next number. A name that the package has
    already is refused, and nothing changes. -/
def addRule (c : Catalog) (key : String) (declaration : Declaration) :
    Outcome (RuleId × Catalog) :=
  let c := c.visit key
  match c.lookup? key declaration.name with
  | some _ => .error (.duplicateRule key declaration.name)
  | none =>
    let id := c.rules.length
    let c := c.modify key fun p => { p with rules := p.rules ++ [(declaration.name, id)] }
    .ok (id, { c with rules := c.rules ++ [{ id, package := key, declaration }] })

end Catalog

/-- A package whose loading is finished. -/
structure LoadedPackage where
  key : String
  file : Path
  rules : List (String × RuleId)
deriving DecidableEq, Repr, Inhabited

/-- Every loaded rule and package. -/
structure RuleSet where
  rules : List Rule
  packages : List LoadedPackage
deriving DecidableEq, Repr, Inhabited

namespace RuleSet

def package? (s : RuleSet) (key : String) : Option LoadedPackage :=
  s.packages.find? (·.key = key)

def lookup? (s : RuleSet) (key rule : String) : Option RuleId :=
  (s.package? key).bind fun p => p.rules.lookup rule

def fullName (s : RuleSet) (id : RuleId) : String :=
  (s.rules[id]?.map Rule.fullName).getD ""

/-- The rules in order of their full names; rules of one name stay in the order of
    their numbers. -/
def byName (s : RuleSet) : List Rule :=
  s.rules.mergeSort fun a b => a.fullName ≤ b.fullName

/-- The numbers of the rules in order of full names. -/
def idsByName (s : RuleSet) : List RuleId :=
  s.byName.map Rule.id

/-- The declaration files in order of package keys. -/
def files (s : RuleSet) : List Path :=
  s.packages.map LoadedPackage.file

end RuleSet

namespace Catalog

/-- Finish a package, if it is done. -/
def freezePackage (p : Package) : Outcome LoadedPackage :=
  if p.state = .done then .ok { key := p.key, file := p.file.getD ⟨""⟩, rules := p.rules }
  else
    .error (.internal
      ("package '" ++ p.key ++ "' is still " ++ p.state.name ++ " after loading"))

/-- Freeze the catalog. Every package has to be done. -/
def freeze (c : Catalog) : Outcome RuleSet := do
  let packages ← c.packages.mapM freezePackage
  return { rules := c.rules, packages }

end Catalog

end Buildwright
