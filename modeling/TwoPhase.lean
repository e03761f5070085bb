import TwoPhase.Operation
import TwoPhase.Program
import TwoPhase.Store
import TwoPhase.Locking.IdSet
import TwoPhase.Locking.Table
import TwoPhase.History.Entry
import TwoPhase.History.Basic
import TwoPhase.Waiting.Graph
import TwoPhase.Waiting.Cycle
import TwoPhase.Database
import TwoPhase.Transaction
import TwoPhase.Report
import TwoPhase.Ring
import TwoPhase.Stepwise
import TwoPhase.Text.Operation
import TwoPhase.Text.Line
import TwoPhase.Text.Workload
import TwoPhase.Json.Basic
import TwoPhase.Json.Printer
import TwoPhase.Json.Reader
import TwoPhase.Sample
import TwoPhase.Scenario
import TwoPhase.Encoding.Program
import TwoPhase.Encoding.Report
import TwoPhase.Encoding.Workload
import TwoPhase.Command.Arguments
import TwoPhase.Command.Place
import TwoPhase.Command.Directory
import TwoPhase.Command.Execute
import TwoPhase.Main
import TwoPhase.Proofs.Locking
import TwoPhase.Proofs.Waiting
import TwoPhase.Proofs.Search
import TwoPhase.Proofs.FirstCycle
import TwoPhase.Proofs.Serial
import TwoPhase.Proofs.History
import TwoPhase.Proofs.Chain
import TwoPhase.Proofs.Evolution
import TwoPhase.Proofs.Requests
import TwoPhase.Proofs.Holders
import TwoPhase.Proofs.Blockers
import TwoPhase.Proofs.Interpretation
import TwoPhase.Proofs.Atomicity
import TwoPhase.Proofs.Calls
import TwoPhase.Proofs.Holding
import TwoPhase.Proofs.Consistency
import TwoPhase.Proofs.Serializability
import TwoPhase.Proofs.Recovery
import TwoPhase.Proofs.CircularWait
import TwoPhase.Proofs.Progress
import TwoPhase.Proofs.Termination
import TwoPhase.Proofs.Refusal
import TwoPhase.Proofs.Obliviousness
import TwoPhase.Proofs.Rigor
import TwoPhase.Proofs.Victims
import TwoPhase.Proofs.Detection
import TwoPhase.Proofs.Threshold
import TwoPhase.Proofs.Account
import TwoPhase.Proofs.Survivors
import TwoPhase.Proofs.Bookkeeping
import TwoPhase.Proofs.Ordering
import TwoPhase.Proofs.RoundRobin
import TwoPhase.Proofs.ConflictFree
import TwoPhase.Proofs.Grammar
import TwoPhase.Proofs.Reading
import TwoPhase.Proofs.Workload
import TwoPhase.Proofs.Writing
import TwoPhase.Proofs.Concatenation
import TwoPhase.Proofs.Encoding
import TwoPhase.Proofs.SinglePrograms
import TwoPhase.Proofs.FirstFault
import TwoPhase.Proofs.Viability
import TwoPhase.Proofs.FaultPlaces
import TwoPhase.Proofs.Rollback
import TwoPhase.Proofs.Formatting
import TwoPhase.Proofs.Printing
import TwoPhase.Proofs.Decoding
import TwoPhase.Proofs.Unfailing
import TwoPhase.Proofs.Generated
import TwoPhase.Proofs.Trace
import TwoPhase.Proofs.Denials
import TwoPhase.Proofs.LongWaits
import TwoPhase.Proofs.Overflow
