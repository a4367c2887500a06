import Buildwright.Main
import Buildwright.Pool
import Buildwright.Proofs.Graph.Cycles
import Buildwright.Proofs.Graph.Dependencies
import Buildwright.Proofs.Graph.Order
import Buildwright.Proofs.Loading.BreadthFirst
import Buildwright.Proofs.Loading.Builtin
import Buildwright.Proofs.Loading.Linking
import Buildwright.Proofs.Loading.PooledRuns
import Buildwright.Proofs.Make.Complete
import Buildwright.Proofs.Make.Lines
import Buildwright.Proofs.Output.Commit
import Buildwright.Proofs.Output.Locality
import Buildwright.Proofs.Output.Names
import Buildwright.Proofs.Output.Range
import Buildwright.Proofs.Output.Regeneration
import Buildwright.Proofs.Package.Operations
import Buildwright.Proofs.Pool.Protocol
import Buildwright.Proofs.Reference.Text
import Buildwright.Proofs.Renumbering.Outputs
import Buildwright.Proofs.Rule.Inside
import Buildwright.Proofs.Rule.Names
import Buildwright.Proofs.Rule.Ownership
import Buildwright.Proofs.Make.ReadBack
import Buildwright.Proofs.FileTree.Kept
import Buildwright.Proofs.Output.Faithful
import Buildwright.Proofs.Rule.Flags
import Buildwright.Proofs.Rule.Spellings
import Buildwright.Proofs.Graph.Rounds
import Buildwright.Proofs.Make.LinkLine
import Buildwright.Proofs.Linking
import Buildwright.Proofs.Reference.Relative
import Buildwright.Proofs.Package.RootFiles
import Buildwright.Proofs.Make.Recipes
import Buildwright.Proofs.Loading.Missing
import Buildwright.Proofs.Loading.Termination
import Buildwright.Proofs.Make.Names
import Buildwright.Proofs.Output.Writers
import Buildwright.Proofs.Rule.Artifacts
import Buildwright.Proofs.Rule.Calls
import Buildwright.Proofs.Configuration.Precedence
import Buildwright.Proofs.DeclarationFile
import Buildwright.Proofs.Loading.Keys
import Buildwright.Proofs.Path.Lexical
