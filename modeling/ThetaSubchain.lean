import ThetaSubchain.Ledger.Receipt
import ThetaSubchain.Interchain.Orchestrator
import ThetaSubchain.Consensus.Outsiders
import ThetaSubchain.Consensus.ProposerSelection
import ThetaSubchain.Snapshot.VoteCount
import ThetaSubchain.Store.Compaction
import ThetaSubchain.Ledger.Replay
import ThetaSubchain.Ledger.ValidatorAccounts
import ThetaSubchain.Consensus.Lifecycle
import ThetaSubchain.Ledger.NoTrace
import ThetaSubchain.Vm.ReadOnly
import ThetaSubchain.Ledger.CreateOnce
import ThetaSubchain.Blockchain.TxIndex
import ThetaSubchain.Ledger.AllOrNothing
import ThetaSubchain.Ledger.DynastyHistory
import ThetaSubchain.Netsync.Survival
import ThetaSubchain.Core.Consolidation
import ThetaSubchain.Consensus.EpochQuorum
import ThetaSubchain.Consensus.SyncStatus
import ThetaSubchain.Interchain.ValidatorSetCache
import ThetaSubchain.Snapshot.StateFile
import ThetaSubchain.Interchain.Denom
import ThetaSubchain.Interchain.Survival
import ThetaSubchain.Netsync.Delivery
import ThetaSubchain.Netsync.InventoryRequest
import ThetaSubchain.Snapshot.Backup
import ThetaSubchain.Mempool.SeenRecords
import ThetaSubchain.Mempool.Resubmission
import ThetaSubchain.Ledger.Locks
import ThetaSubchain.Ledger.TxBytes
