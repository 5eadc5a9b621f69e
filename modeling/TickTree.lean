import TickTree.Status
import TickTree.TickError
import TickTree.RunError
import TickTree.Behavior
import TickTree.Heap
import TickTree.Prog
import TickTree.Composite
import TickTree.Memorize
import TickTree.AnySuccess
import TickTree.Siblings
import TickTree.Fork
import TickTree.Background
import TickTree.Asynchronous
import TickTree.Evaluation
import TickTree.Machine
import TickTree.Token
import TickTree.Schedule
import TickTree.Context
import TickTree.Ticker
import TickTree.Manager
import TickTree.System
import TickTree.Scenario.Script
import TickTree.Scenario.Plan
import TickTree.Scenario.Cue
import TickTree.Scenario.Build
import TickTree.Scenario.Stage
import TickTree.Scenario.Service
import TickTree.Scenario.Show
import TickTree.Proofs.History
import TickTree.Proofs.Attending
import TickTree.Proofs.Shutdown
import TickTree.Proofs.TokenUse
import TickTree.Proofs.TickerExit
import TickTree.Proofs.Evaluate
import TickTree.Proofs.MemoTree
import TickTree.Proofs.Execution
import TickTree.Proofs.Polling
import TickTree.Proofs.Joining
import TickTree.Proofs.Constituents
import TickTree.Proofs.Searching
import TickTree.Proofs.Sources
import TickTree.Proofs.ForkCycle
import TickTree.Proofs.Resuming
import TickTree.Proofs.Acting
import TickTree.Proofs.Backlog
import TickTree.Proofs.ScopeSteps
import TickTree.Proofs.ScopeLife
import TickTree.Proofs.ScopeTicks
import TickTree.Proofs.Hierarchy
import TickTree.Proofs.Admission
import TickTree.Proofs.Rings
import TickTree.Proofs.Among
import TickTree.Proofs.Locking
import TickTree.Proofs.Gating
import TickTree.Proofs.ForkLoads
import TickTree.Proofs.ForkTrees
import TickTree.Proofs.Flattening
import TickTree.Proofs.Performing
import TickTree.Proofs.Family
import TickTree.Proofs.Executions
import TickTree.Proofs.Memorizing
import TickTree.Proofs.Wrapping
import TickTree.Proofs.Marking
import TickTree.Proofs.Overriding
import TickTree.Proofs.Alongside
import TickTree.Proofs.Transparency
import TickTree.Proofs.AlikeTicks
import TickTree.Proofs.Twins
import TickTree.Proofs.Commuting
import TickTree.Proofs.Formulas
import TickTree.Proofs.PlainTwin
import TickTree.Proofs.EndingOnFailure
import TickTree.Proofs.WorkerLog
import TickTree.Proofs.WorkerCalls
import TickTree.Proofs.WorkerRuns
import TickTree.Proofs.Unwinding
import TickTree.Proofs.Recovering
import TickTree.Proofs.Losses
import TickTree.Proofs.Containment
import TickTree.Proofs.Timetable
import TickTree.Proofs.Downward
import TickTree.Proofs.Waiting
import TickTree.Proofs.Duality
