import Buildwright.Argument
import Buildwright.Document
import Buildwright.Fault
import Buildwright.Path.Basic
import Buildwright.Text.Blank

/-!
# Declaration files

A declaration file is a list of calls: every entry is a map with one key, the rule
type, whose value maps argument names to values. An argument is a text, a flag, an
integer of 64 bits or a list of texts.

## Contents

* `DeclarationFile.Problem` — what can be wrong with a document;
* `DeclarationFile.calls` — the calls of a document;
* `DeclarationFile.read` — the calls of a text.
-/

namespace Buildwright.DeclarationFile

/-- What is wrong with the value of an argument. -/
inductive ArgumentProblem where
  | notAnInteger (text : String)
  | notTexts (kind : String)
  | unsupported (kind : String)
deriving DecidableEq, Repr

/-- What is wrong with a document. -/
inductive Problem where
  | notAList (kind : String)
  | notAMap (entry : Nat)
  | notOneKey (entry : Nat)
  | argumentsNotAMap (typeName kind : String)
  | argument (typeName name : String) (problem : ArgumentProblem)
deriving DecidableEq, Repr

/-- The end of the message on an argument. -/
def ArgumentProblem.message : ArgumentProblem → String
  | notAnInteger text => "must be an integer, found " ++ text
  | notTexts kind => "must be a list of strings, found " ++ kind
  | unsupported kind => "has unsupported type " ++ kind

def Problem.message : Problem → String
  | notAList kind => "expected a list of rule declarations, found " ++ kind
  | notAMap i => "entry " ++ toString i ++ " must be a map of rule type to arguments"
  | notOneKey i => "entry " ++ toString i ++ " must have exactly one rule type key"
  | argumentsNotAMap type kind => "arguments of " ++ type ++ " must be a map, found " ++ kind
  | argument type name problem => type ++ " argument '" ++ name ++ "' " ++ problem.message

/-- Whether an integer fits 64 bits with its sign. -/
def isSmall (n : Int) : Bool :=
  -(Number.negatives64 : Int) ≤ n && n < Number.negatives64

def texts : List Document → Except ArgumentProblem (List String)
  | [] => .ok []
  | .text s :: rest => do return s :: (← texts rest)
  | other :: _ => .error (.notTexts other.kind)

/-- The argument that a value gives. -/
def argument : Document → Except ArgumentProblem Argument
  | .text s => .ok (.text s)
  | .flag b => .ok (.flag b)
  | .number (.integer n) => if isSmall n then .ok (.number n) else .error (.notAnInteger (toString n))
  | .number n => .error (.notAnInteger n.text)
  | .list items => do return .list (← texts items)
  | other => .error (.unsupported other.kind)

/-- The arguments of a call of the type `typeName`. -/
def arguments (typeName : String) (entries : List (String × Document)) :
    Except Problem (List (String × Argument)) :=
  entries.mapM fun (name, value) =>
    match argument value with
    | .ok a => .ok (name, a)
    | .error problem => .error (.argument typeName name problem)

/-- The call that the entry at place `i` declares. -/
def callOf (i : Nat) : Document → Except Problem Call
  | .map [(type, value)] =>
    match value with
    | .map entries => do return ⟨type, .ofList (← arguments type entries)⟩
    | .null => .ok ⟨type, .empty⟩
    | other => .error (.argumentsNotAMap type other.kind)
  | .map _ => .error (.notOneKey i)
  | _ => .error (.notAMap i)

/-- The calls of the entries from place `i` on. -/
def callsFrom (i : Nat) : List Document → Except Problem (List Call)
  | [] => .ok []
  | entry :: rest => do
    let call ← callOf i entry
    return call :: (← callsFrom (i + 1) rest)

def calls : Document → Except Problem (List Call)
  | .null => .ok []
  | .list entries => callsFrom 0 entries
  | other => .error (.notAList other.kind)

/-- The calls that the text of the file `path` declares. A blank text declares none. -/
def read (path : Path) (text : String) : Outcome (List Call) :=
  if Text.isBlankText text then .ok []
  else
    match Document.ofText? text with
    | none => .error (.unreadableScript path.text)
    | some document =>
      match calls document with
      | .ok calls => .ok calls
      | .error problem => .error (.script path.text problem.message)

end Buildwright.DeclarationFile
