import LkpProjects.Library.Nand
import LkpProjects.Library.Bytes
import LkpProjects.Library.ProbeTable
import LkpProjects.Library.Stepwise
import LkpProjects.Library.Hoare
import LkpProjects.Library.WeightedTree
import LkpProjects.Serial.Config
import LkpProjects.Serial.Hash
import LkpProjects.Serial.Pages
import LkpProjects.Serial.Keyval
import LkpProjects.Serial.Metadata
import LkpProjects.Serial.Store
import LkpProjects.Serial.Effects
import LkpProjects.Serial.Invariant
import LkpProjects.Serial.StoreSteps
import LkpProjects.Serial.UpdatePath
import LkpProjects.Serial.Moves
import LkpProjects.Serial.Collect
import LkpProjects.Serial.Flush
import LkpProjects.Serial.Mount
import LkpProjects.Serial.Words
import LkpProjects.Serial.RoundTrip
import LkpProjects.Serial.Ownership
import LkpProjects.Serial.FlushCut
import LkpProjects.Serial.MapContract
import LkpProjects.Serial.PowerLoss
import LkpProjects.Serial.ProgramOnce
import LkpProjects.Lottery.Queue
import LkpProjects.Lottery.Pick
import LkpProjects.Lottery.Classes
import LkpProjects.Lottery.Accounting
import LkpProjects.Lottery.RbTree
import LkpProjects.Lottery.Winner
import LkpProjects.Lottery.Smp
import LkpProjects.Serial.Device
import LkpProjects.Serial.Reclaim
import LkpProjects.Serial.Destination
import LkpProjects.Serial.Overlap
import LkpProjects.Serial.Relocate
import LkpProjects.Parallel.Config
import LkpProjects.Parallel.Blocks
import LkpProjects.Parallel.Collect
import LkpProjects.Parallel.Metadata
import LkpProjects.Parallel.Store
import LkpProjects.Parallel.Locks
import LkpProjects.Parallel.Updates
import LkpProjects.Library.Rows
import LkpProjects.Parallel.RoundTrip
import LkpProjects.Serial.Completeness
import LkpProjects.Serial.Clock
import LkpProjects.Serial.BufferBounds
import LkpProjects.Serial.Coherence
import LkpProjects.Serial.AllOrNothing
import LkpProjects.Parallel.KeyRoom
import LkpProjects.Parallel.Selection
import LkpProjects.Parallel.Mount
import LkpProjects.Parallel.Room
import LkpProjects.Parallel.Ledger
import LkpProjects.Parallel.LedgerSteps
import LkpProjects.Parallel.LedgerGc
import LkpProjects.Parallel.Allocation
import LkpProjects.Parallel.Merge
import LkpProjects.Vanilla.Mount
import LkpProjects.Lottery.Tick
import LkpProjects.Lottery.Boost
import LkpProjects.Driver.Sweep
import LkpProjects.ProcFs.Protocol
import LkpProjects.ProcFs.Mirror
import LkpProjects.Tasks.Parser
import LkpProjects.Parallel.MapContract
import LkpProjects.Serial.Sessions
import LkpProjects.Serial.Wear
import LkpProjects.Parallel.Wear
import LkpProjects.Serial.Capacity
import LkpProjects.Vanilla.Log
import LkpProjects.ProcFs.SignalFile
import LkpProjects.Lottery.EventLog
import LkpProjects.Driver.Session
