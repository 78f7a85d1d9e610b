import ConnectCoin.Consensus.BlockIdentity
import ConnectCoin.Node.IndexedWork
import ConnectCoin.Chainstate.ScriptCache
import ConnectCoin.Node.TemplateCheck
import ConnectCoin.Node.BountyScan
import ConnectCoin.Coins.CoinCode
import ConnectCoin.Index.CoinStatsRun
import ConnectCoin.Wallet.P2CBatch
import ConnectCoin.Psbt.Finalize
import ConnectCoin.Wallet.P2CClaimPriority
import ConnectCoin.Util.CompareChunks
import ConnectCoin.Sync.Retarget
import ConnectCoin.Sync.KeyPreparation
import ConnectCoin.Chainstate.PrefetchOrder
import ConnectCoin.Node.WitnessCommitment
import ConnectCoin.Consensus.DomainGrammar
import ConnectCoin.Consensus.ScriptView
import ConnectCoin.Wallet.P2CClaimFee
import ConnectCoin.P2C.CertificateMessage
import ConnectCoin.P2C.CertificateTimes
import ConnectCoin.Wallet.P2CConnectionResult
import ConnectCoin.Consensus.HexTx
import ConnectCoin.Wallet.P2CEndpointPriority
import ConnectCoin.Wallet.StoredLocks
import ConnectCoin.Wallet.P2CConnectionRate
import ConnectCoin.P2C.CacheSlots
import ConnectCoin.Chainstate.Reorganisation
