import OrocosRtt.Library.Run
import OrocosRtt.Library.Log
import OrocosRtt.Library.Early
import OrocosRtt.Library.Scan
import OrocosRtt.Library.Queue
import OrocosRtt.Library.Ring
import OrocosRtt.Library.Interleaving
import OrocosRtt.Library.Linearize
import OrocosRtt.Program.Status
import OrocosRtt.Program.Graph
import OrocosRtt.Program.Stepping
import OrocosRtt.Program.Restart
import OrocosRtt.Program.Protocol
import OrocosRtt.Program.CallFunction
import OrocosRtt.Program.Clone
import OrocosRtt.Program.TryCatch
import OrocosRtt.Program.Builder
import OrocosRtt.Program.Simulation
import OrocosRtt.Program.Structured
import OrocosRtt.Program.Visits
import OrocosRtt.Program.Semantics
import OrocosRtt.StateMachine.Basic
import OrocosRtt.StateMachine.Pending
import OrocosRtt.StateMachine.Requests
import OrocosRtt.StateMachine.Operations
import OrocosRtt.StateMachine.Evidence
import OrocosRtt.StateMachine.Frame
import OrocosRtt.StateMachine.Rules
import OrocosRtt.StateMachine.Calls
import OrocosRtt.StateMachine.Growth
import OrocosRtt.StateMachine.Scheduling
import OrocosRtt.StateMachine.Plans
import OrocosRtt.StateMachine.WellFormed
import OrocosRtt.StateMachine.Pointers
import OrocosRtt.StateMachine.Accounting
import OrocosRtt.StateMachine.CurrentProgram
import OrocosRtt.StateMachine.CoreRule
import OrocosRtt.StateMachine.Anchored
import OrocosRtt.StateMachine.Grounded
import OrocosRtt.StateMachine.CurrentState
import OrocosRtt.StateMachine.Deactivation
import OrocosRtt.StateMachine.Preconditions
import OrocosRtt.StateMachine.FinalState
import OrocosRtt.StateMachine.ChangeOrder
import OrocosRtt.StateMachine.ChangeRuns
import OrocosRtt.StateMachine.Handlers
import OrocosRtt.StateMachine.TransitionOrder
import OrocosRtt.StateMachine.Cursor
import OrocosRtt.StateMachine.Evaluation
import OrocosRtt.StateMachine.PortConditions
import OrocosRtt.StateMachine.PortParser
import OrocosRtt.StateMachine.PortEvents
import OrocosRtt.StateMachine.PortSamples
import OrocosRtt.Task.FatalError
import OrocosRtt.Task.Settled
import OrocosRtt.Task.Pairing
import OrocosRtt.Engine.Functions
import OrocosRtt.Engine.RemoveFunction
import OrocosRtt.Engine.RemoveMessage
import OrocosRtt.Engine.ProcessFunctions
import OrocosRtt.Expression.Grouping
import OrocosRtt.Expression.Operators
import OrocosRtt.DataSource.Path
import OrocosRtt.DataSource.EvaluateOnce
import OrocosRtt.DataSource.Instance
import OrocosRtt.LockFree.Indexes
import OrocosRtt.LockFree.TsPool
import OrocosRtt.LockFree.AtomicMWSRQueue
import OrocosRtt.LockFree.AtomicQueue
import OrocosRtt.LockFree.DataObjectLockFree
import OrocosRtt.LockFree.DataObjectRegister
import OrocosRtt.LockFree.BufferLockFree
import OrocosRtt.LockFree.BufferOwnership
import OrocosRtt.LockFree.ListLockFree
import OrocosRtt.LockFree.ListLedger
import OrocosRtt.LockFree.ListLinearizable
import OrocosRtt.Buffer.Interface
import OrocosRtt.Buffer.Deque
import OrocosRtt.Buffer.LockFree
import OrocosRtt.Buffer.Results
import OrocosRtt.Channel.DataElement
import OrocosRtt.Channel.DataObject
import OrocosRtt.Channel.DataSample
import OrocosRtt.Channel.Connections
import OrocosRtt.Channel.Delivery
import OrocosRtt.Channel.InputPort
import OrocosRtt.Property.Ownership
import OrocosRtt.Property.Paths
import OrocosRtt.Property.Listing
import OrocosRtt.Property.PathUpdate
import OrocosRtt.Property.PathAgreement
import OrocosRtt.Property.PathStore
import OrocosRtt.Property.Flatten
import OrocosRtt.StateMachine.GraphInstance
import OrocosRtt.Marsh.PropertyBag
import OrocosRtt.Marsh.Update
import OrocosRtt.Marsh.TinyXml
import OrocosRtt.Marsh.Cpf
import OrocosRtt.Marsh.CpfText
import OrocosRtt.Marsh.CpfElements
import OrocosRtt.Marsh.CpfValues
import OrocosRtt.Marsh.CpfFile
import OrocosRtt.Marsh.CpfRoundTrip
import OrocosRtt.Marsh.Restore
import OrocosRtt.Marsh.PropertyLoader
import OrocosRtt.Marsh.Given
import OrocosRtt.Marsh.CpfStore
import OrocosRtt.Marsh.CpfSession
import OrocosRtt.Os.TimeService
import OrocosRtt.Operation.LocalOperationCaller
import OrocosRtt.Operation.Ownership
import OrocosRtt.Operation.SendCollect
import OrocosRtt.Os.Alarms
import OrocosRtt.Os.Timer
import OrocosRtt.Os.TimerRuns
import OrocosRtt.Os.TimerProgress
import OrocosRtt.Os.TimerTable
import OrocosRtt.Os.Thread
import OrocosRtt.Os.ThreadLifeCycle
import OrocosRtt.Os.ThreadRunning
import OrocosRtt.Task.Peers
import OrocosRtt.Task.PeerNames
import OrocosRtt.Task.EventPorts
import OrocosRtt.Event.Signal
import OrocosRtt.Mqueue.Exchange
import OrocosRtt.Extras.TimerThread
import OrocosRtt.Extras.PeriodicActivity
import OrocosRtt.Library.Index
import OrocosRtt.Scripting.Conditions
import OrocosRtt.Scripting.Registry
import OrocosRtt.Scripting.ValueChange
import OrocosRtt.Scripting.Loading
import OrocosRtt.Scripting.Consistency
import OrocosRtt.Scripting.Clearing
import OrocosRtt.Types.Items
import OrocosRtt.Types.Decomposition
import OrocosRtt.Types.PropertyComposition
import OrocosRtt.Types.UpdateProperties
import OrocosRtt.Types.Atomicity
