import RamRestore.Main
import RamRestore.PlainWatch
import RamRestore.Pool
import RamRestore.Delta
import RamRestore.Trap.Script
import RamRestore.Proofs.Index.Geometry
import RamRestore.Proofs.Transfer
import RamRestore.Proofs.Load.Move
import RamRestore.Proofs.Load.PageStep
import RamRestore.Proofs.Load.Ownership
import RamRestore.Proofs.Load.Sweep
import RamRestore.Proofs.Load.Start
import RamRestore.Proofs.Load.Completion
import RamRestore.Proofs.Load.InPlace
import RamRestore.Proofs.Load.Once
import RamRestore.Proofs.Guest
import RamRestore.Proofs.Index.Contents
import RamRestore.Proofs.Load.Faithful
import RamRestore.Proofs.Load.Fitting
import RamRestore.Proofs.Load.Yield
import RamRestore.Proofs.Load.EagerOutcome
import RamRestore.Proofs.Load.Agreement
import RamRestore.Proofs.Load.Zeroes
import RamRestore.Proofs.Load.Held
import RamRestore.Proofs.Load.Inline
import RamRestore.Proofs.Load.Lifecycle
import RamRestore.Proofs.Load.Failures
import RamRestore.Proofs.Load.Finality
import RamRestore.Proofs.Load.Pace
import RamRestore.Proofs.Load.Manned
import RamRestore.Proofs.Load.Released
import RamRestore.Proofs.Load.Served
import RamRestore.Proofs.Load.Shutdown
import RamRestore.Proofs.Load.Unwatched
import RamRestore.Proofs.Index.Renumbered
import RamRestore.Proofs.Index.RoundTrip
import RamRestore.Proofs.Index.Partition
import RamRestore.Proofs.Index.Cleared
import RamRestore.Proofs.Index.Locate
import RamRestore.Proofs.Index.Image
import RamRestore.Proofs.Snapshot
import RamRestore.Proofs.Restore
import RamRestore.Proofs.Protocol
import RamRestore.Proofs.Load.Protocol
import RamRestore.Proofs.Confinement
import RamRestore.Proofs.Lz4
import RamRestore.Proofs.Command.Blocks
import RamRestore.Proofs.Command.Run
import RamRestore.Proofs.Index.Positions
import RamRestore.Proofs.Load.Blame
import RamRestore.Proofs.Load.Pooled
import RamRestore.Proofs.Index.Ranges
import RamRestore.Proofs.Load.Watched
import RamRestore.Proofs.Index.Listed
import RamRestore.Proofs.Load.Rejected
import RamRestore.Proofs.Index.Extent
import RamRestore.Proofs.Steady
import RamRestore.Proofs.Load.Alike
import RamRestore.Proofs.Load.Pieces
import RamRestore.Proofs.Load.Renumbered
import RamRestore.Proofs.Load.Reordered
import RamRestore.Proofs.Stream.Groups
import RamRestore.Proofs.Stream.RoundTrip
import RamRestore.Proofs.Text
import RamRestore.Json.Text
import RamRestore.Proofs.Json.Strings
import RamRestore.Proofs.Json.Lexer
import RamRestore.Proofs.Config
import RamRestore.Proofs.Load.Walk
import RamRestore.Proofs.Load.Traffic
import RamRestore.Proofs.Load.ReadAhead
import RamRestore.Proofs.Load.Shelf
import RamRestore.Proofs.Delta
import RamRestore.Proofs.Backlog
