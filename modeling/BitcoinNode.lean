import BitcoinNode.BlockCodec
import BitcoinNode.MerkleTree
import BitcoinNode.MerkleCommitment
import BitcoinNode.HexStrings
import BitcoinNode.Lib.HashMap
import BitcoinNode.Lib.Ledger
import BitcoinNode.UtxoSet
import BitcoinNode.Lib.CheckedSum
import BitcoinNode.Account
import BitcoinNode.UnspentOutputs
import BitcoinNode.Wallet
import BitcoinNode.Lib.Runs
import BitcoinNode.Handlers
import BitcoinNode.HeightIndex
import BitcoinNode.Replay
import BitcoinNode.Linkage
import BitcoinNode.DownloadOrder
import BitcoinNode.MalformedBytes
import BitcoinNode.RequestedBlocks
import BitcoinNode.HandOver
import BitcoinNode.HeadersFile
import BitcoinNode.MoneyConserved
import BitcoinNode.SpendableOutputs
import BitcoinNode.ArrivalTiming
import BitcoinNode.TwoPeers
import BitcoinNode.SignedInputs
import BitcoinNode.PendingTransactions
import BitcoinNode.FailedPayments
import BitcoinNode.WirePayments
import BitcoinNode.PendingLists
import BitcoinNode.MessageFraming
import BitcoinNode.GetdataReplies
import BitcoinNode.GetheadersReplies
import BitcoinNode.RejectedBatches
import BitcoinNode.AccountViews
import BitcoinNode.ParallelDownload
import BitcoinNode.ProofOfWork
import BitcoinNode.MerkleRoots
import BitcoinNode.HeadersMessages
import BitcoinNode.MalformedPayloads
import BitcoinNode.UnreadableScripts
import BitcoinNode.Addresses
import BitcoinNode.Confirmations
import BitcoinNode.AnnouncedHeaders
import BitcoinNode.NodePool
import BitcoinNode.EarlyStop
import BitcoinNode.Announcements
import BitcoinNode.AwaitedMessages
import BitcoinNode.LocatorHashes
import BitcoinNode.ConfigFile
import BitcoinNode.Handshake
import BitcoinNode.Balances
import BitcoinNode.InitialHeaders
import BitcoinNode.TransactionLists
import BitcoinNode.HashEntry
import BitcoinNode.IncomingConnections
import BitcoinNode.NodesHandshake
import BitcoinNode.HandshakeProtocol
import BitcoinNode.PaymentRelay
import BitcoinNode.ChainLog
import BitcoinNode.HeadersSync
