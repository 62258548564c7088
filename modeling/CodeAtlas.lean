import CodeAtlas.Main
import CodeAtlas.Store.Edit
import CodeAtlas.Proofs.Store.Runs
import CodeAtlas.Proofs.Store.Scopes
import CodeAtlas.Proofs.Store.Plain
import CodeAtlas.Proofs.Store.Migrations.Calls
import CodeAtlas.Proofs.Atomicity
import CodeAtlas.Proofs.Store.Ids
import CodeAtlas.Proofs.Store.Soundness
import CodeAtlas.Proofs.Integrity
import CodeAtlas.Proofs.Index.Resolution
import CodeAtlas.Proofs.Index.Replacement
import CodeAtlas.Proofs.Index.Reflection
import CodeAtlas.Proofs.Index.History
import CodeAtlas.Proofs.Index.Walk
import CodeAtlas.Proofs.Index.Renaming
import CodeAtlas.Proofs.Index.Sweeps
import CodeAtlas.Proofs.Index.Rebuild
import CodeAtlas.Proofs.Store.Reading
import CodeAtlas.Proofs.Query.Adjacency
import CodeAtlas.Proofs.Query.Breadth
import CodeAtlas.Proofs.Query.Summary
import CodeAtlas.Proofs.Query.BlastRadius
import CodeAtlas.Proofs.Query.Depths
import CodeAtlas.Proofs.Query.DeadCode
import CodeAtlas.Proofs.Query.Cycles.Search
import CodeAtlas.Proofs.Query.Cycles.Recorded
import CodeAtlas.Proofs.Query.Cycles.Complete
import CodeAtlas.Proofs.Query.Cycles.Capped
import CodeAtlas.Proofs.Query.Cycles.Orderly
import CodeAtlas.Proofs.Index.Lookup
import CodeAtlas.Proofs.Index.Frames
import CodeAtlas.Proofs.Index.Removal
import CodeAtlas.Proofs.Index.SyncExact
import CodeAtlas.Proofs.Index.SyncTwice
import CodeAtlas.Proofs.Index.Decisions
import CodeAtlas.Proofs.Store.Cascades
import CodeAtlas.Proofs.Store.EdgeBatches
import CodeAtlas.Proofs.Index.Leftovers
import CodeAtlas.Proofs.Index.Stale
import CodeAtlas.Proofs.Store.Order
import CodeAtlas.Proofs.Query.Calls
import CodeAtlas.Proofs.Path.Spellings
import CodeAtlas.Proofs.Pattern.Like
import CodeAtlas.Proofs.Store.Search
import CodeAtlas.Proofs.Number.Rounding
import CodeAtlas.Proofs.Number.Shortest
import CodeAtlas.Proofs.Json.Range
import CodeAtlas.Proofs.Json.Numeral
import CodeAtlas.Proofs.Json.Reading
import CodeAtlas.Proofs.Json.RoundTrip
import CodeAtlas.Proofs.Metadata
import CodeAtlas.Proofs.Store.ReadBack
import CodeAtlas.Proofs.Query.Representation
import CodeAtlas.Proofs.Text.Bytes
import CodeAtlas.Proofs.Pattern.Ignore
import CodeAtlas.Proofs.Index.Excludes
import CodeAtlas.Proofs.Store.Replay
import CodeAtlas.Proofs.Store.LedgerHistory
import CodeAtlas.Proofs.Toml.Text
import CodeAtlas.Proofs.Toml.Scalar
import CodeAtlas.Proofs.Toml.Lines
import CodeAtlas.Proofs.Disk
import CodeAtlas.Proofs.Config
