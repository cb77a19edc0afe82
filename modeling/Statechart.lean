import Statechart.Action
import Statechart.Bundle
import Statechart.Description
import Statechart.Descriptor
import Statechart.Descriptor.Builder
import Statechart.Descriptor.Wire
import Statechart.Engine
import Statechart.Engine.Execution
import Statechart.Evaluation
import Statechart.Event
import Statechart.History
import Statechart.Json
import Statechart.Json.Binary64
import Statechart.Json.Decoding
import Statechart.Json.Source
import Statechart.Json.Text
import Statechart.Machine
import Statechart.Machine.Compile
import Statechart.Machine.Flat
import Statechart.Machine.Issue
import Statechart.Machine.Parallel
import Statechart.Machine.Resolve
import Statechart.Machine.Step
import Statechart.OrderedMap
import Statechart.Proofs.Accounting
import Statechart.Proofs.Accuracy
import Statechart.Proofs.Armed
import Statechart.Proofs.Arming
import Statechart.Proofs.Arrays
import Statechart.Proofs.Arrival
import Statechart.Proofs.Attempts
import Statechart.Proofs.Calendar
import Statechart.Proofs.Cascade
import Statechart.Proofs.Channels
import Statechart.Proofs.Completion
import Statechart.Proofs.Composition
import Statechart.Proofs.Conclusion
import Statechart.Proofs.Counterpart
import Statechart.Proofs.Custody
import Statechart.Proofs.Declaration
import Statechart.Proofs.Delays
import Statechart.Proofs.Descent
import Statechart.Proofs.Draining
import Statechart.Proofs.Engine
import Statechart.Proofs.Entry
import Statechart.Proofs.Flattening
import Statechart.Proofs.Grounds
import Statechart.Proofs.Growth
import Statechart.Proofs.Handling
import Statechart.Proofs.Holding
import Statechart.Proofs.Impulse
import Statechart.Proofs.Inertness
import Statechart.Proofs.Informed
import Statechart.Proofs.Interpretation
import Statechart.Proofs.Invocations
import Statechart.Proofs.Legibility
import Statechart.Proofs.Likeness
import Statechart.Proofs.Listening
import Statechart.Proofs.Lockstep
import Statechart.Proofs.Longhand
import Statechart.Proofs.Mailbox
import Statechart.Proofs.Move
import Statechart.Proofs.Nesting
import Statechart.Proofs.Noninterference
import Statechart.Proofs.Operation
import Statechart.Proofs.Order
import Statechart.Proofs.Override
import Statechart.Proofs.Ownership
import Statechart.Proofs.Pairing
import Statechart.Proofs.Parallel
import Statechart.Proofs.Paths
import Statechart.Proofs.Pausing
import Statechart.Proofs.Provenance
import Statechart.Proofs.Punctuality
import Statechart.Proofs.Rearming
import Statechart.Proofs.Receivers
import Statechart.Proofs.Recording
import Statechart.Proofs.Registration
import Statechart.Proofs.Replay
import Statechart.Proofs.Reporting
import Statechart.Proofs.Respite
import Statechart.Proofs.Restoration
import Statechart.Proofs.Run
import Statechart.Proofs.Scoping
import Statechart.Proofs.Script
import Statechart.Proofs.Sight
import Statechart.Proofs.Simulation
import Statechart.Proofs.Soundness
import Statechart.Proofs.Spelling
import Statechart.Proofs.Splitting
import Statechart.Proofs.Staleness
import Statechart.Proofs.Standby
import Statechart.Proofs.Standing
import Statechart.Proofs.Step
import Statechart.Proofs.Tasks
import Statechart.Proofs.Telling
import Statechart.Proofs.Threading
import Statechart.Proofs.Timing
import Statechart.Proofs.Turn
import Statechart.Proofs.Values
import Statechart.Proofs.WellFormed
import Statechart.Scenario.Construction
import Statechart.Scenario.Expression
import Statechart.Scenario.Fields
import Statechart.Scenario.Inquiry
import Statechart.Scenario.Ledger
import Statechart.Scenario.Operation
import Statechart.Scenario.Report
import Statechart.Scenario.Session
import Statechart.Scheduler
import Statechart.StateValue
import Statechart.Table
import Statechart.Text.Quoted
import Statechart.Timestamp
import Statechart.Timing
