import Chase.Evm.Basic
import Chase.Evm.Backend
import Chase.Seer.Simulator
import Chase.Seer.Training
import Chase.Graph.Basic
import Chase.Cds.Scheduler
import Chase.Cds.ChainOrder
import Chase.Cds.Greedy
import Chase.Cds.Iteration
import Chase.Graph.LocalOrder
import Chase.Graph.Order
import Chase.Graph.Ranks
import Chase.Graph.Iteration
import Chase.Graph.FirstUpdater
import Chase.Evm.SlotBackend
import Chase.Evm.Clearing
import Chase.Evm.WriteCover
import Chase.Core.FirstWave
import Chase.Core.Commit
import Chase.Core.Parallel
import Chase.Core.Partition
import Chase.Core.Degrees
import Chase.Core.Determinism
import Chase.Core.Execute
import Chase.Core.Accounts
import Chase.Core.Waves
import Chase.Core.Validation
import Chase.Core.ExactlyOnce
import Chase.Core.Isolated
import Chase.Core.Locality
import Chase.Cache.TwoLevel
import Chase.Cache.Runs
import Chase.Cache.Durable
import Chase.Cache.Visibility
import Chase.Cache.Paging
import Chase.Cache.L2Bytes
import Chase.EvBlp.Agreement
import Chase.EvBlp.Pipeline
import Chase.EvBlp.Controller
import Chase.EvBlp.Capture
import Chase.EvBlp.Sync
import Chase.EvBlp.Completes
import Chase.Stack.Recovery
import Chase.Stack.SlotTable
import Chase.Stack.Restart
import Chase.Stack.Prepare
import Chase.Stack.Failures
import Chase.Narwhal.Agreement
import Chase.Narwhal.Progress
import Chase.Narwhal.Store
import Chase.Narwhal.Restart
import Chase.Vm.Simulate
