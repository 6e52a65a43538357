import Reclaim.Plan.Collect
import Reclaim.Report.Dump
import Reclaim.Report.Figures
import Reclaim.Report.Names
import Reclaim.Trial.Graph
import Reclaim.Proofs.Status
import Reclaim.Proofs.Trial.Census
import Reclaim.Proofs.Worklist
import Reclaim.Proofs.Trial.Ledger
import Reclaim.Proofs.Trial.Blackening
import Reclaim.Proofs.Trial.Scanning
import Reclaim.Proofs.Queue
import Reclaim.Proofs.Trial.Harvesting
import Reclaim.Proofs.Trial.Filtering
import Reclaim.Proofs.Trial.GreyPhase
import Reclaim.Proofs.Trial.WhitePhase
import Reclaim.Proofs.Trial.Round
import Reclaim.Proofs.Trial.Outcome
import Reclaim.Proofs.Trial.Graph
import Reclaim.Proofs.Trial.Safety
import Reclaim.Proofs.Trial.Exactness
import Reclaim.Proofs.Memory
import Reclaim.Proofs.Space
import Reclaim.Proofs.Cells.Block
import Reclaim.Proofs.Cells.Listing
import Reclaim.Proofs.Cells.Pool
import Reclaim.Proofs.Cells.Pass
import Reclaim.Proofs.ChunkList
import Reclaim.Proofs.Treadmill
import Reclaim.Proofs.Bump
import Reclaim.Proofs.Types
import Reclaim.Proofs.Object
import Reclaim.Proofs.Counting
import Reclaim.Proofs.Counting.Confluence
import Reclaim.Proofs.Cycles
import Reclaim.Proofs.Heap.Rooms
import Reclaim.Proofs.Immortal
import Reclaim.Proofs.Heap.Population
import Reclaim.Proofs.Heap.Spaces
import Reclaim.Proofs.Heap.Trimming
import Reclaim.Proofs.Heap.Counted
import Reclaim.Proofs.Heap.Mortality
import Reclaim.Proofs.Plan.Books
import Reclaim.Proofs.Heap.Extension
import Reclaim.Proofs.Plan.Standing
import Reclaim.Proofs.Plan.Mutations
import Reclaim.Proofs.Plan.Islands
import Reclaim.Proofs.Plan.Rewriting
import Reclaim.Proofs.Plan.Operations
import Reclaim.Proofs.Roots
import Reclaim.Proofs.Plan.Closure
import Reclaim.Proofs.Plan.Phases
import Reclaim.Proofs.Plan.Settling
import Reclaim.Proofs.Plan.Collecting
import Reclaim.Proofs.Plan.Founding
import Reclaim.Proofs.Session.Run
import Reclaim.Proofs.Space.Runs
import Reclaim.Proofs.Space.Tenancy
import Reclaim.Proofs.Plan.Harmless
import Reclaim.Proofs.Session.Steps
import Reclaim.Proofs.Session.Decrements
import Reclaim.Proofs.Session.Balance
import Reclaim.Proofs.Session.Safety
import Reclaim.Proofs.Session.Quiescence
import Reclaim.Proofs.Freeing
import Reclaim.Proofs.Plan.Freeing
import Reclaim.Proofs.Session.Candidates
import Reclaim.Proofs.Cells.Sharing
import Reclaim.Proofs.Workers.Completion
import Reclaim.Proofs.Workers.Alone
import Reclaim.Proofs.Queue.Solo
import Reclaim.Proofs.Queue.Traffic
import Reclaim.Proofs.Queue.Calls
import Reclaim.Proofs.Treadmill.Turning
import Reclaim.Proofs.Treadmill.Windows
import Reclaim.Proofs.Plan.Requests
import Reclaim.Proofs.Cells.Supply
import Reclaim.Proofs.Heap.Young
import Reclaim.Proofs.Session.Trail
import Reclaim.Proofs.Session.HandedOut
import Reclaim.Proofs.Session.Schedules
import Reclaim.Proofs.Session.Accounts
import Reclaim.Proofs.Session.Requested
import Reclaim.Proofs.Trial.Rollback
import Reclaim.Proofs.Trial.Lateness
import Reclaim.Proofs.Space.Extent
import Reclaim.Proofs.Bump.Sharing
import Reclaim.Proofs.Bump.Alignment
import Reclaim.Proofs.Cells.Rebuilding
import Reclaim.Proofs.Cells.Serving
import Reclaim.Proofs.Cells.Sweeping
import Reclaim.Proofs.Trial.Recoloring
import Reclaim.Proofs.Trial.Ending
import Reclaim.Proofs.Space.Peak
import Reclaim.Proofs.Trial.Partition
import Reclaim.Proofs.Session.Fields
import Reclaim.Proofs.Trial.Cadence
import Reclaim.Proofs.Status.Fields
import Reclaim.Proofs.Mapping
import Reclaim.Proofs.Plan.Starting
