import MulleRbtree.Library.Program
import MulleRbtree.Library.Runs
import MulleRbtree.Library.Cells
import MulleRbtree.Library.Zipper
import MulleRbtree.Library.RedBlack
import MulleRbtree.Library.Local
import MulleRbtree.Library.Search
import MulleRbtree.Library.Preorder
import MulleRbtree.Library.StableSort
import MulleRbtree.Library.Custody
import MulleRbtree.Library.Image
import MulleRbtree.Library.Cursor
import MulleRbtree.Library.Credit
import MulleRbtree.Library.Wiring
import MulleRbtree.Source.Color
import MulleRbtree.Source.Storage
import MulleRbtree.Source.Node
import MulleRbtree.Source.Base
import MulleRbtree.Source.Rotate
import MulleRbtree.Source.Fixup
import MulleRbtree.Source.Search
import MulleRbtree.Source.Insert
import MulleRbtree.Source.Remove
import MulleRbtree.Source.Walk
import MulleRbtree.Source.Rbtree
import MulleRbtree.Source.Api
import MulleRbtree.Tree.Entry
import MulleRbtree.Tree.Dirt
import MulleRbtree.Tree.RedRed
import MulleRbtree.Tree.Attach
import MulleRbtree.Tree.BlackBlack
import MulleRbtree.Tree.Remove
import MulleRbtree.Tree.Value
import MulleRbtree.Tree.Image
import MulleRbtree.Tree.Marker
import MulleRbtree.Tree.Augment
import MulleRbtree.Tree.Recolor
import MulleRbtree.Tree.Upkeep
import MulleRbtree.Tree.Wiring
import MulleRbtree.Tree.Stain
import MulleRbtree.Layout.Memory
import MulleRbtree.Layout.Holds
import MulleRbtree.Layout.Parts
import MulleRbtree.Layout.Marks
import MulleRbtree.Layout.Navigation
import MulleRbtree.Layout.Rotation
import MulleRbtree.Layout.RedRed
import MulleRbtree.Layout.Parents
import MulleRbtree.Layout.BlackBlack
import MulleRbtree.Layout.Relinks
import MulleRbtree.Layout.Attach
import MulleRbtree.Layout.Remove
import MulleRbtree.Layout.Nodes
import MulleRbtree.Layout.Attached
import MulleRbtree.Layout.Consistent
import MulleRbtree.Layout.Isolated
import MulleRbtree.Layout.Walks
import MulleRbtree.Layout.Search
import MulleRbtree.Layout.Insert
import MulleRbtree.Layout.Enumerate
import MulleRbtree.Runs.Calls
import MulleRbtree.Runs.Valid
import MulleRbtree.Runs.Balance
import MulleRbtree.Runs.Places
import MulleRbtree.Runs.Operations
import MulleRbtree.Runs.Asserts
import MulleRbtree.Runs.Dirty
import MulleRbtree.Runs.Sorted
import MulleRbtree.Runs.Order
import MulleRbtree.Runs.Pool
import MulleRbtree.Runs.Traversals
import MulleRbtree.Runs.Nullable
import MulleRbtree.Runs.Extra
import MulleRbtree.Runs.Ownership
import MulleRbtree.Runs.Determined
import MulleRbtree.Runs.Mirror
import MulleRbtree.Runs.Flags
import MulleRbtree.Runs.Paint
import MulleRbtree.Runs.Records
import MulleRbtree.Runs.Sentinel
import MulleRbtree.Runs.Marker
import MulleRbtree.Runs.Augment
import MulleRbtree.Runs.Cursor
import MulleRbtree.Runs.Strides
import MulleRbtree.Runs.Sweep
import MulleRbtree.Runs.Amortized
import MulleRbtree.Runs.Journal
import MulleRbtree.Runs.Upkeep
import MulleRbtree.Runs.Wiring
import MulleRbtree.Runs.Matches
import MulleRbtree.Runs.Handles
import MulleRbtree.Runs.Postponed
import MulleRbtree.Runs.Access
import MulleRbtree.Runs.Rekey
