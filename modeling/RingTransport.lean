import RingTransport.Agent.Error
import RingTransport.Agent.Handler
import RingTransport.Agent.TypeName
import RingTransport.Bench.Circulate
import RingTransport.Bench.Options
import RingTransport.Bench.Pipeline
import RingTransport.Bench.Report
import RingTransport.Capacity
import RingTransport.Idle.Backoff
import RingTransport.Idle.Duration
import RingTransport.Log
import RingTransport.Main
import RingTransport.Proofs.Agent.Layers
import RingTransport.Proofs.Agent.ShortName
import RingTransport.Proofs.Ring.Calls
import RingTransport.Proofs.Ring.ClaimOrder
import RingTransport.Proofs.Ring.Counts
import RingTransport.Proofs.Ring.Delivery
import RingTransport.Proofs.Ring.FailedRead
import RingTransport.Proofs.Ring.Interleaving
import RingTransport.Proofs.Ring.Ownership
import RingTransport.Proofs.Ring.Queue
import RingTransport.Proofs.Ring.ReadRange
import RingTransport.Proofs.Ring.Refinement
import RingTransport.Proofs.Ring.Retention
import RingTransport.Proofs.Ring.Steps
import RingTransport.Proofs.Runner.Accesses
import RingTransport.Proofs.Runner.Alone
import RingTransport.Proofs.Runner.CloseOnce
import RingTransport.Proofs.Runner.Closing
import RingTransport.Proofs.Runner.ClosingSteps
import RingTransport.Proofs.Runner.Containment
import RingTransport.Proofs.Runner.Latch
import RingTransport.Proofs.Runner.Ledger
import RingTransport.Proofs.Runner.Life
import RingTransport.Proofs.Runner.LifeCycle
import RingTransport.Proofs.Runner.Marks
import RingTransport.Proofs.Runner.Onward
import RingTransport.Proofs.Runner.Release
import RingTransport.Proofs.Runner.Stacks
import RingTransport.Proofs.Runner.WorkLoop
import RingTransport.Ring.Basic
import RingTransport.Ring.Buffer
import RingTransport.Ring.Claim
import RingTransport.Ring.Family
import RingTransport.Ring.Read
import RingTransport.Ring.Threads
import RingTransport.Ring.Traffic
import RingTransport.Runner.Cells
import RingTransport.Runner.Drain
import RingTransport.Runner.Launch
import RingTransport.Runner.Orders
import RingTransport.Runner.Plain
import RingTransport.Runner.Play
import RingTransport.Runner.Script
import RingTransport.Runner.System
import RingTransport.Word
import RingTransport.Proofs.Idle.ClosedForm
import RingTransport.Proofs.Ring.Taking
import RingTransport.Proofs.Runner.Drained
import RingTransport.Proofs.Ring.Publishing
import RingTransport.Proofs.Bench.Turns
import RingTransport.Proofs.Ring.Completion
import RingTransport.Proofs.Bench.Balance
import RingTransport.Proofs.Bench.Shutdown
import RingTransport.Proofs.Bench.Conservation
import RingTransport.Proofs.Ring.Accounting
import RingTransport.Proofs.Ring.DeadSlots
import RingTransport.Proofs.Ring.LateCommits
import RingTransport.Proofs.Ring.Moments
import RingTransport.Proofs.Ring.Orderly
import RingTransport.Proofs.Ring.StrayCommits
import RingTransport.Proofs.Ring.Unfinished
import RingTransport.Proofs.Ring.Reunion
import RingTransport.Proofs.Ring.Reset
import RingTransport.Proofs.Ring.Contention
import RingTransport.Proofs.Bench.Circulation
import RingTransport.Proofs.Bench.Arguments
import RingTransport.Proofs.Ring.Construction
import RingTransport.Proofs.Runner.Causes
import RingTransport.Proofs.Runner.Wrapped
