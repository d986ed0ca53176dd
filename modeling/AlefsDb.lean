import AlefsDb.Lib.OrdMap
import AlefsDb.Lib.Bytes
import AlefsDb.Lib.Runs
import AlefsDb.Server.Lock
import AlefsDb.Theorems.Exclusion
import AlefsDb.Lib.Rust
import AlefsDb.Storage.Batch
import AlefsDb.Storage.Wal
import AlefsDb.Lemmas.WalFormat
import AlefsDb.Lemmas.WalReads
import AlefsDb.Theorems.LogFormat
import AlefsDb.Lib.Crc
import AlefsDb.Theorems.Damage
import AlefsDb.Server.Framing
import AlefsDb.Theorems.Framing
import AlefsDb.Lib.Triple
import AlefsDb.Storage.Disk
import AlefsDb.Lemmas.Loads
import AlefsDb.Theorems.Durability
import AlefsDb.Theorems.Compaction
import AlefsDb.Theorems.FailedCommit
import AlefsDb.Lib.SortDedup
import AlefsDb.Types.Value
import AlefsDb.Types.Codec
import AlefsDb.Types.Canon
import AlefsDb.Lemmas.CodecFormat
import AlefsDb.Theorems.Canonical
import AlefsDb.Lemmas.Layout
import AlefsDb.Theorems.CanonicalBytes
import AlefsDb.Types.Path
import AlefsDb.Namespace.Keys
import AlefsDb.Namespace.Db
import AlefsDb.Namespace.Txn
import AlefsDb.Namespace.Graph
import AlefsDb.Lemmas.Rows
import AlefsDb.Namespace.Plan
import AlefsDb.Lemmas.Methods
import AlefsDb.Lemmas.Merged
import AlefsDb.Namespace.Commands
import AlefsDb.Lemmas.Reached
import AlefsDb.Theorems.Transactions
import AlefsDb.Theorems.Structure
import AlefsDb.Lib.TreeWalk
import AlefsDb.Lemmas.Listing
import AlefsDb.Theorems.TypeIndex
import AlefsDb.Namespace.PathTree
import AlefsDb.Theorems.Refinement
import AlefsDb.Lib.Numbers
import AlefsDb.Query.Ast
import AlefsDb.Query.Parse
import AlefsDb.Query.Eval
import AlefsDb.Query.Print
import AlefsDb.Theorems.QueryText
import AlefsDb.Lemmas.Walk
import AlefsDb.Theorems.IndexQuery
import AlefsDb.Fuse.Projection
import AlefsDb.Theorems.Projection
import AlefsDb.Fuse.Scalars
import AlefsDb.Fuse.Fs
import AlefsDb.Fuse.Calls
import AlefsDb.Lib.FileContent
import AlefsDb.Theorems.FileWrites
import AlefsDb.Fuse.TypeAt
import AlefsDb.Theorems.TypeStable
import AlefsDb.Server.Handle
import AlefsDb.Lemmas.Handles
import AlefsDb.Theorems.Openers
import AlefsDb.Json.Text
import AlefsDb.Json.Transfer
import AlefsDb.Json.Steps
import AlefsDb.Lemmas.ImportPlans
import AlefsDb.Lemmas.JsonText
import AlefsDb.Lemmas.JsonValues
import AlefsDb.Lemmas.Exports
import AlefsDb.Theorems.Overlays
import AlefsDb.Theorems.Checkpoints
import AlefsDb.Theorems.PathText
import AlefsDb.Lib.Splits
import AlefsDb.Theorems.Globs
import AlefsDb.Lib.Utf8
import AlefsDb.Lib.BinaryFloat
import AlefsDb.Theorems.Comparisons
import AlefsDb.Theorems.JsonSyntax
import AlefsDb.Lemmas.Great
import AlefsDb.Theorems.Walks
import AlefsDb.Lemmas.SameRows
import AlefsDb.Theorems.SetAdds
import AlefsDb.Lib.Scans
import AlefsDb.Fuse.Dirs
import AlefsDb.Fuse.Mounts
import AlefsDb.Theorems.Scans
import AlefsDb.Theorems.Imports
import AlefsDb.Theorems.Exports
import AlefsDb.Theorems.RowScans
import AlefsDb.Lemmas.Recovery
import AlefsDb.Theorems.Recovery
import AlefsDb.Lemmas.Dispatch
import AlefsDb.Theorems.Dispatch
import AlefsDb.Fuse.Files
import AlefsDb.Lemmas.Sessions
import AlefsDb.Theorems.Sessions
import AlefsDb.Fuse.Views
import AlefsDb.Theorems.Files
import AlefsDb.Theorems.Lookups
import AlefsDb.Theorems.Saves
import AlefsDb.Lemmas.Alike
import AlefsDb.Lemmas.AlikeReads
import AlefsDb.Theorems.Indistinct
import AlefsDb.Server.Direct
import AlefsDb.Theorems.Direct
import AlefsDb.Theorems.NormalQueries
import AlefsDb.Theorems.SetBack
import AlefsDb.Theorems.LogBound
