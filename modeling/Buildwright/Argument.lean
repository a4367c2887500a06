import Buildwright.Entries
import Buildwright.Text.Quoted

/-!
# Arguments of a rule call

A declaration file calls rule types with named arguments. The values are of four
kinds, and the names of one call are distinct.

## Contents

* `Argument` — a value, its kind and its printed form;
* `Arguments` — the named arguments of a call, in order of first mention.
-/

namespace Buildwright

/-- The value of one argument. -/
inductive Argument where
  | text (value : String)
  | list (items : List String)
  | flag (value : Bool)
  | number (value : Int)
deriving DecidableEq, Repr, Inhabited

namespace Argument

/-- The name of the kind, as messages spell it. -/
def kind : Argument → String
  | text _ => "string"
  | list _ => "list"
  | flag _ => "bool"
  | number _ => "int"

/-- The value as it is shown: texts quoted, lists between brackets. -/
def shown : Argument → String
  | text s => Text.quote s
  | list items => Text.quoteList items
  | flag true => "true"
  | flag false => "false"
  | number n => toString n

end Argument

/-- The named arguments of a call, in order of first mention. -/
structure Arguments where
  entries : List (String × Argument)
  distinct : (entries.map Prod.fst).Nodup
deriving DecidableEq

namespace Arguments

instance : Inhabited Arguments := ⟨⟨[], by simp⟩⟩

def empty : Arguments := ⟨[], by simp⟩

/-- Give the argument called `name` a value. A name that is there keeps its place. -/
def set (as : Arguments) (name : String) (value : Argument) : Arguments where
  entries := setEntry name value as.entries
  distinct := by
    rw [map_fst_setEntry]
    split
    · exact as.distinct
    · rename_i h
      refine List.nodup_append.2 ⟨as.distinct, by simp, ?_⟩
      intro a ha b hb
      rw [List.mem_singleton] at hb
      exact fun e => h (hb ▸ e ▸ ha)

/-- The arguments of a list of pairs: the first place and the last value of a
    name that is repeated. -/
def ofList (pairs : List (String × Argument)) : Arguments :=
  pairs.foldl (fun as p => as.set p.1 p.2) empty

def get? (as : Arguments) (name : String) : Option Argument :=
  as.entries.lookup name

def names (as : Arguments) : List String :=
  as.entries.map Prod.fst

end Arguments

/-- One call of a rule type in a declaration file. -/
structure Call where
  typeName : String
  arguments : Arguments
deriving DecidableEq, Inhabited

end Buildwright
