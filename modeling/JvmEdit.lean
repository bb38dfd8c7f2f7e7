import JvmEdit.Describe.Parts
import JvmEdit.Describe.Program
import JvmEdit.Main
import JvmEdit.Program.Consistency
import JvmEdit.Proofs.Data.Table
import JvmEdit.Proofs.Index.Exact
import JvmEdit.Proofs.Program.Key
import JvmEdit.Proofs.Descriptor.Rename
import JvmEdit.Proofs.Index.ClassRename
import JvmEdit.Proofs.Index.Session
import JvmEdit.Proofs.Program.Loading
import JvmEdit.Proofs.References.Binding
import JvmEdit.Proofs.References.ClassRename
import JvmEdit.Proofs.ClassFile.Assembly
import JvmEdit.Proofs.ClassFile.CodeAttribute
import JvmEdit.Proofs.ClassFile.Labels
import JvmEdit.Proofs.ClassFile.Order
import JvmEdit.Proofs.ClassFile.RoundTrip
import JvmEdit.Proofs.ClassFile.Shapes
import JvmEdit.Proofs.Flow.GraphExact
import JvmEdit.Proofs.Flow.Reports
import JvmEdit.Proofs.Flow.Alike
import JvmEdit.Proofs.Flow.Upkeep
import JvmEdit.Proofs.Flow.Derived
import JvmEdit.Proofs.Flow.Blocks
import JvmEdit.Proofs.Flow.ClassRename
import JvmEdit.Proofs.Hierarchy.Search
import JvmEdit.Proofs.Pass.Run
import JvmEdit.Proofs.Pass.Removers
import JvmEdit.Proofs.Pass.Callees
import JvmEdit.Proofs.References.Fallback
import JvmEdit.Proofs.Edit.Refused
import JvmEdit.Proofs.Data.OrderedSet
import JvmEdit.Proofs.Hierarchy.Links
import JvmEdit.Proofs.Hierarchy.Linked
import JvmEdit.Proofs.Hierarchy.Relink
import JvmEdit.Proofs.Hierarchy.Session
import JvmEdit.Proofs.References.Resolution
import JvmEdit.Proofs.References.JustLoaded
import JvmEdit.Proofs.References.Recorded
import JvmEdit.Proofs.References.Relocation
import JvmEdit.Proofs.References.Sweeps
import JvmEdit.Proofs.References.Touched
import JvmEdit.Proofs.References.Deletion
import JvmEdit.Proofs.Descriptor.Recast
import JvmEdit.Proofs.Descriptor.MethodType
import JvmEdit.Proofs.Descriptor.Strict
import JvmEdit.Proofs.Program.Avoids
import JvmEdit.Proofs.Hierarchy.Revert
import JvmEdit.Proofs.Index.Reversal
import JvmEdit.Proofs.ClassFile.Declarations
import JvmEdit.Proofs.ClassFile.Methods
import JvmEdit.Proofs.ClassFile.Structure
import JvmEdit.Proofs.ClassFile.Extent
import JvmEdit.Proofs.ClassFile.Bodies
import JvmEdit.Proofs.Scan.Isolation
import JvmEdit.Proofs.Jumps.Threaded
import JvmEdit.Proofs.Flow.Pruning
import JvmEdit.Proofs.Pass.DeadCode
import JvmEdit.Proofs.Hierarchy.Inheritance
import JvmEdit.Proofs.Pass.Overrides
import JvmEdit.Proofs.References.Members
import JvmEdit.Proofs.Pass.Renamers
import JvmEdit.Proofs.References.Handles
import JvmEdit.Proofs.Pass.NewOverrides
import JvmEdit.Proofs.Flow.Bound
import JvmEdit.Proofs.Flow.Expansion
import JvmEdit.Proofs.ClassFile.Placed
import JvmEdit.Proofs.Program.Bodies
import JvmEdit.Proofs.ClassFile.Reanalysis
import JvmEdit.Proofs.Descriptor.Grammar
import JvmEdit.Proofs.Descriptor.Reading
import JvmEdit.Proofs.Descriptor.Exact
import JvmEdit.Proofs.ClassFile.Sizes
import JvmEdit.Proofs.ClassFile.Overflow
import JvmEdit.Proofs.ClassFile.Counts
import JvmEdit.Proofs.ClassFile.Features
import JvmEdit.Proofs.ClassFile.Versions
import JvmEdit.Proofs.ClassFile.Elements
import JvmEdit.Proofs.ClassFile.Reencoding
import JvmEdit.Proofs.ClassFile.Unchecked
import JvmEdit.Proofs.ClassFile.Offsets
import JvmEdit.Proofs.ClassFile.Drawing
import JvmEdit.Proofs.Pass.Cutting
import JvmEdit.Proofs.Flow.Storing
import JvmEdit.Proofs.Pass.Folding
import JvmEdit.Proofs.Pass.Initialised
import JvmEdit.Proofs.Descriptor.Unambiguous
import JvmEdit.Proofs.Descriptor.Erasure
import JvmEdit.Proofs.Index.Occurrences
import JvmEdit.Proofs.Pass.Candidates
import JvmEdit.Proofs.Pass.Sequential
import JvmEdit.Proofs.Pass.Traversal
import JvmEdit.Proofs.Pass.Sparing
import JvmEdit.Proofs.Pass.Reruns
import JvmEdit.Proofs.ClassFile.PoolRequests
import JvmEdit.Proofs.Jumps.Settled
import JvmEdit.Proofs.Jumps.Analysed
import JvmEdit.Proofs.Program.Gathering
import JvmEdit.Proofs.Pass.Classes
import JvmEdit.Proofs.Scan.Rescans
