import Urma.Core.Error
import Urma.Lib.Layout
import Urma.Core.Bytes
import Urma.Core.Format
import Urma.Lib.Sha256
import Urma.Lib.Aes256
import Urma.Core.Crypto
import Urma.Core.Container
import Urma.Core.Framing
import Urma.Core.Sealing
import Urma.Core.Reassembly
import Urma.Core.Recovery
import Urma.Core.RoundTrip
import Urma.Core.RobustRecovery
import Urma.Lib.Assembly
import Urma.Lib.Journal
import Urma.Lib.SecondaryIndex
import Urma.Names.Name
import Urma.Names.Payload
import Urma.Names.State
import Urma.Names.Engine
import Urma.Names.Step
import Urma.Names.Passes
import Urma.Names.Undo
import Urma.Names.Run
import Urma.Names.Expiries
import Urma.Lib.Noninterference
import Urma.Lib.Quorum
import Urma.Names.Quorum
import Urma.Names.Ownership
import Urma.Names.Provenance
import Urma.Names.Isolation
import Urma.Names.Outcomes
import Urma.Core.Multipart
import Urma.Core.Consistency
import Urma.Runtime.DiskOrder
import Urma.Runtime.Publication
import Urma.Runtime.Acceptance
import Urma.Runtime.Canonical
import Urma.Core.MultipartCodec
import Urma.Lib.Reader
import Urma.Core.Text
import Urma.Core.Topics
import Urma.Core.PublicRecord
import Urma.Lib.Script
import Urma.Core.Envelope
import Urma.Core.EnvelopeExact
import Urma.Lib.Merkle
import Urma.Chain.Block
import Urma.Chain.Validation
import Urma.Chain.Config
import Urma.Chain.Inclusion
import Urma.Chain.InclusionComplete
import Urma.Chain.InclusionSound
import Urma.Chain.Pow
import Urma.Lib.OffsetIndex
import Urma.Runtime.Headers
import Urma.Runtime.HeaderInvariant
import Urma.Runtime.HeaderContext
import Urma.Lib.Program
import Urma.Core.Proof
import Urma.Runtime.Publish
import Urma.Runtime.DiskPublish
import Urma.Runtime.PublishSafe
import Urma.Runtime.PublishWalk
import Urma.Runtime.PublishPhases
import Urma.Runtime.WalkSafety
import Urma.Runtime.BufferWeights
import Urma.Runtime.WalkRows
import Urma.Runtime.BufferBound
import Urma.Core.Inventory
import Urma.Runtime.Reconstruct
import Urma.Runtime.RecoverySource
import Urma.Runtime.RecoverySound
import Urma.Runtime.RecoveryManifests
import Urma.Runtime.RecoveryParts
import Urma.Runtime.RecoveryExact
import Urma.Runtime.Backend
import Urma.Files.ChainScan
import Urma.Runtime.ManyObjects
import Urma.Web.PackageCodec
import Urma.Web.StoreAuthentic
import Urma.Lib.WorkQueue
import Urma.Wire.Index
import Urma.Wire.Batch
import Urma.Wire.BatchOrdered
import Urma.Wire.Sync
import Urma.Wire.SyncAgreement
import Urma.Git.Scan
import Urma.Git.ScanPool
import Urma.Git.ScanPoolExact
import Urma.Chain.DecodeBlock
import Urma.Lib.Stateful
import Urma.P2p.Peer
import Urma.P2p.Peers
import Urma.P2p.Pipeline
import Urma.P2p.Worker
import Urma.P2p.Offers
import Urma.P2p.Invariant
import Urma.P2p.Selected
import Urma.Chain.Difficulty
import Urma.Names.PayloadCodec
import Urma.Names.Truthful
import Urma.Names.Allocation
import Urma.Names.Restore
import Urma.Runtime.PlanValidation
import Urma.Runtime.ValueConserved
import Urma.Chain.TransactionCodec
import Urma.Chain.TransactionExact
import Urma.Runtime.Prepare
import Urma.Runtime.Planner
import Urma.Runtime.PlanSizes
import Urma.Runtime.PrepareExact
import Urma.Runtime.PlannerFunded
import Urma.Runtime.PlannerSafe
import Urma.Core.ScriptSize
import Urma.Runtime.Quote
import Urma.Runtime.QuoteRecords
import Urma.Runtime.QuoteExact
import Urma.Git.Descriptor
import Urma.Git.DescriptorCodec
import Urma.Lib.Utf8
import Urma.Core.TextParts
import Urma.Web.Route
import Urma.Web.RouteClosed
import Urma.Web.Host
import Urma.Web.HostLinks
import Urma.Lib.Best
import Urma.Runtime.Candidates
import Urma.Runtime.Transfer
import Urma.Runtime.TransferSizes
import Urma.Runtime.CoinChoice
import Urma.Runtime.TransferExact
import Urma.Runtime.Journal
import Urma.Runtime.JournalExact
import Urma.Lib.JsonText
import Urma.Runtime.DiskJournal
import Urma.Runtime.DiskJournalTorn
import Urma.Lib.Search
import Urma.Lib.Regex
import Urma.Git.Review
import Urma.Git.ReviewExact
import Urma.Gateway.Cache
import Urma.Gateway.Flights
import Urma.Gateway.SingleFlight
import Urma.Chain.BlockCodec
import Urma.Chain.BlockSplit
import Urma.Identity.Keyring
import Urma.Identity.Vault
import Urma.Identity.PayloadExact
import Urma.Lib.Gcm
import Urma.Identity.VaultExact
import Urma.Lib.Paging
import Urma.Node.NamesView
import Urma.Node.NamesArchive
import Urma.Node.ArchiveFaithful
import Urma.Lib.Partition
import Urma.Core.Geometry
import Urma.Runtime.Relay
import Urma.Runtime.RelayChecks
import Urma.Runtime.RelayLedger
import Urma.Runtime.RelayHonest
import Urma.Runtime.RelayRun
import Urma.Runtime.RelayExact
import Urma.P2p.Addr
import Urma.P2p.Discovery
import Urma.P2p.Pool
import Urma.P2p.PoolSteps
import Urma.P2p.Bans
import Urma.Runtime.HeaderCache
import Urma.Lib.Fork
import Urma.P2p.HeaderSync
import Urma.P2p.HeaderAnswer
import Urma.P2p.HeaderAdoption
