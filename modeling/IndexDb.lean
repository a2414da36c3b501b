import IndexDb.Library.Traced
import IndexDb.Library.SortedSearch
import IndexDb.Library.Simulation
import IndexDb.Vectors
import IndexDb.Node
import IndexDb.Store
import IndexDb.Ops
import IndexDb.Cursor
import IndexDb.BPlusTree
import IndexDb.Library.AscendingEntries
import IndexDb.Library.InorderMarks
import IndexDb.Tree
import IndexDb.TreeInsert
import IndexDb.TreeRemove
import IndexDb.SearchTree
import IndexDb.Library.OwnedCells
import IndexDb.StoreLaws
import IndexDb.InMemoryLaws
import IndexDb.StoredTree
import IndexDb.StoredInsert
import IndexDb.StoredRemove
import IndexDb.Library.EvenParts
import IndexDb.TreeBulk
import IndexDb.StoredBulk
import IndexDb.Representation
import IndexDb.Unfolding
import IndexDb.Runs
import IndexDb.OrderedMap
import IndexDb.WellFormed
import IndexDb.Arena
import IndexDb.CursorPaths
import IndexDb.CursorSteps
import IndexDb.CursorBounds
import IndexDb.Library.Windows
import IndexDb.IterSpans
import IndexDb.Scans
import IndexDb.Construction
import IndexDb.Totality
import IndexDb.Demand
import IndexDb.SlabPeak
import IndexDb.Backends
import IndexDb.FreshIds
import IndexDb.SlotStores
import IndexDb.SearchPaths
import IndexDb.Heights
import IndexDb.Packing
import IndexDb.Splits
import IndexDb.Locality
import IndexDb.Untouched
import IndexDb.Repairs
import IndexDb.KeyInstances
import IndexDb.CursorMoves
import IndexDb.Checker
import IndexDb.CheckedReads
import IndexDb.Merges
import IndexDb.Conservation
import IndexDb.SharedStore
import IndexDb.Provenance
import IndexDb.Compaction
import IndexDb.RightEdge
import IndexDb.Library.Amortised
import IndexDb.Turnover
import IndexDb.LeafEdits
import IndexDb.Undoing
import IndexDb.Library.FreshHeap
import IndexDb.ArenaHeap
