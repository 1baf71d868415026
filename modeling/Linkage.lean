import Linkage.Table
import Linkage.Descriptor.Parser
import Linkage.Fault
import Linkage.Class.Definition
import Linkage.Access
import Linkage.Area.Load
import Linkage.Area.Boot
import Linkage.Lattice.Merge
import Linkage.Reference
import Linkage.Resolver.Resolve
import Linkage.Code.Memory
import Linkage.Code.Instruction
import Linkage.Code.Builder
import Linkage.Machine.Run
import Linkage.Options
import Linkage.Proofs.Outcome
import Linkage.Proofs.Constraints
import Linkage.Proofs.Area.Change
import Linkage.Proofs.Area.Steps
import Linkage.Proofs.Area.Questions
import Linkage.Proofs.Area.Agreement
import Linkage.Proofs.Area.Delegation
import Linkage.Proofs.Area.Loading
import Linkage.Proofs.Area.Lasting
import Linkage.Proofs.Area.Initializers
import Linkage.Proofs.Area.Partition
import Linkage.Proofs.Resolver.Success
import Linkage.Proofs.Resolver.Protected
import Linkage.Proofs.Resolver.Access
import Linkage.Proofs.Resolver.Parts
import Linkage.Proofs.Resolver.Run
import Linkage.Proofs.Resolver.Agreement
import Linkage.Proofs.Resolver.Repeat
import Linkage.Proofs.Resolver.RepeatMembers
import Linkage.Proofs.Resolver.Recall
import Linkage.Proofs.Resolver.Laziness
import Linkage.Proofs.Machine.Layout
import Linkage.Proofs.Machine.Sites
import Linkage.Proofs.Machine.Watch
import Linkage.Proofs.Machine.Patching
import Linkage.Proofs.Machine.Routine
import Linkage.Proofs.Machine.Failing
import Linkage.Proofs.Machine.Parts
import Linkage.Proofs.Machine.Blind
import Linkage.Proofs.Machine.Progress
import Linkage.Proofs.Machine.Bindings
import Linkage.Proofs.Machine.Moves
import Linkage.Proofs.Area.Ownership
import Linkage.Proofs.Resolver.Tidy
import Linkage.Proofs.Resolver.Values
import Linkage.Proofs.Resolver.Objects
import Linkage.Proofs.Machine.Readiness
import Linkage.Proofs.Resolver.Identity
import Linkage.Proofs.Lattice.Form
import Linkage.Proofs.Lattice.Naming
import Linkage.Proofs.Lattice.Verdict
import Linkage.Proofs.Lattice.Shape
import Linkage.Proofs.Lattice.Final
import Linkage.Proofs.Lattice.Arising
import Linkage.Proofs.Lattice.Join
import Linkage.Proofs.Lattice.Superclass
import Linkage.Proofs.Lattice.Bound
import Linkage.Proofs.Lattice.Upper
import Linkage.Proofs.Lattice.Order
import Linkage.Proofs.Dispatch.Slots
import Linkage.Proofs.Dispatch.Calls
import Linkage.Proofs.Machine.Course
import Linkage.Proofs.Descriptor.Grammar
import Linkage.Proofs.Descriptor.Slicing
import Linkage.Proofs.Class.Linking
import Linkage.Proofs.Area.Discord
import Linkage.Proofs.Area.Bonds
import Linkage.Proofs.Resolver.Regular
import Linkage.Proofs.Resolver.Recur
import Linkage.Proofs.Resolver.RecurMembers
import Linkage.Proofs.Machine.Emission
import Linkage.Proofs.Machine.Frame
import Linkage.Proofs.Machine.Prompt
import Linkage.Proofs.Machine.Fidelity
import Linkage.Proofs.Machine.Registry
import Linkage.Proofs.Machine.Targets
import Linkage.Proofs.Machine.Pace
import Linkage.Proofs.Machine.FirstRuns
import Linkage.Proofs.Machine.BothWays
import Linkage.Proofs.Area.Parents
import Linkage.Proofs.Resolver.Names
import Linkage.Proofs.Resolver.Failure
import Linkage.Proofs.Resolver.Obligations
import Linkage.Proofs.Area.Ending
import Linkage.Proofs.Lattice.Branches
import Linkage.Proofs.Lattice.Ceiling
import Linkage.Proofs.Lattice.Permutation
import Linkage.Proofs.Lattice.Dimensions
import Linkage.Proofs.Descriptor.ClassNames
import Linkage.Proofs.Resolver.Deferral
import Linkage.Proofs.Dispatch.Superinterfaces
import Linkage.Proofs.Class.ObjectLayout
