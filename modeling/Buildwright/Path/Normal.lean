import Buildwright.Path.Basic

/-!
# Lexical normal form of paths

`.` steps are dropped and every `..` cancels the name before it, without looking
at the file system. A `..` that finds nothing to cancel is kept at the front of a
relative path and dropped after the root; either way the path *climbs*: it leaves
the directory it started from.

## Contents

* `Normal.step`, `Normal.run` — the normaliser on components, a stack machine;
* `Path.normal`, `Path.climbs` — its two results for a path.
-/

namespace Buildwright

namespace Normal

/-- The components kept so far, the last one first, and whether the path has
    climbed above its start. -/
structure State where
  kept : List Component := []
  climbed : Bool := false
deriving DecidableEq, Repr

/-- Take one more component. -/
def step (s : State) : Component → State
  | .current => s
  | .parent =>
    match s.kept with
    | .name _ :: rest => { s with kept := rest }
    | .root :: _ => { s with climbed := true }
    | kept => ⟨.parent :: kept, true⟩
  | c => { s with kept := c :: s.kept }

/-- Take all components from left to right. -/
def run (cs : List Component) : State :=
  cs.foldl step {}

def components (cs : List Component) : List Component :=
  (run cs).kept.reverse

end Normal

namespace Path

/-- The path in lexical normal form. -/
def normal (p : Path) : Path :=
  ofComponents (Normal.components p.components)

/-- Whether a `..` of the path had nothing left to cancel. -/
def climbs (p : Path) : Bool :=
  (Normal.run p.components).climbed

end Path

end Buildwright
