import Leaderboards.Library.Program
import Leaderboards.Library.RowNumber
import Leaderboards.Library.Interleaving
import Leaderboards.Library.Trace
import Leaderboards.Library.Keyset
import Leaderboards.Library.Glob
import Leaderboards.Library.Delimited
import Leaderboards.Data.Models
import Leaderboards.Store.Database
import Leaderboards.Store.Jsonb
import Leaderboards.Store.Sql
import Leaderboards.Store.Locks
import Leaderboards.Store.Redis
import Leaderboards.Store.SqlTokens
import Leaderboards.Service
import Leaderboards.Repo.Pagination
import Leaderboards.Repo.Boards
import Leaderboards.Repo.Collections
import Leaderboards.Repo.Entries
import Leaderboards.Repo.Versions
import Leaderboards.Repo.Scores
import Leaderboards.Repo.Realtime
import Leaderboards.Repo.Export
import Leaderboards.Repo.References
import Leaderboards.Sync.Execute
import Leaderboards.Auth.Jsonwebtoken
import Leaderboards.Auth.Middleware
import Leaderboards.Webhooks
import Leaderboards.Db
import Leaderboards.Transactions.Server
import Leaderboards.Transactions.Schema
import Leaderboards.Transactions.Positions
import Leaderboards.Transactions.Legal
import Leaderboards.Transactions.Stability
import Leaderboards.Transactions.Contract
import Leaderboards.Transactions.Drafting
import Leaderboards.Transactions.Statements
import Leaderboards.Transactions.Rules
import Leaderboards.Routes
import Leaderboards.Ws
import Leaderboards.Sse
import Leaderboards.Transactions.Reachable
import Leaderboards.Transactions.SingleClient
import Leaderboards.Transactions.Footprint
import Leaderboards.Transactions.LiveScores
import Leaderboards.Transactions.Running
import Leaderboards.Transactions.Snapshot
import Leaderboards.Transactions.Committing
import Leaderboards.Transactions.Schedule
import Leaderboards.Transactions.Patching
import Leaderboards.Properties.Immutability
import Leaderboards.Properties.Creation
import Leaderboards.Properties.BoardSetup
import Leaderboards.Properties.OrderedPositions
import Leaderboards.Properties.ScoreMap
import Leaderboards.Properties.ScoredRank
import Leaderboards.Properties.History
import Leaderboards.Properties.TierConfigRead
import Leaderboards.Properties.Serialization
import Leaderboards.Properties.CrossBoard
import Leaderboards.Properties.RedisKeys
import Leaderboards.Properties.LiveNames
import Leaderboards.Properties.Pagination
import Leaderboards.Properties.LiveEntries
import Leaderboards.Properties.LiveStandings
import Leaderboards.Properties.FreshBoard
import Leaderboards.Properties.JwtAcceptance
import Leaderboards.Auth.JwksCache
import Leaderboards.Properties.KeyFreshness
import Leaderboards.Properties.WriteAuth
import Leaderboards.Sse.Registry
import Leaderboards.Sse.Locking
import Leaderboards.Library.Counting
import Leaderboards.Properties.EventBus
import Leaderboards.Properties.ConnectionLimit
import Leaderboards.Properties.Throttling
import Leaderboards.Properties.VersionDiff
import Leaderboards.Properties.CreateResponse
import Leaderboards.Properties.RankOrder
import Leaderboards.Properties.TierGroups
import Leaderboards.Transactions.Importing
import Leaderboards.Properties.NextNumber
import Leaderboards.Properties.VersionListings
import Leaderboards.Properties.Patches
import Leaderboards.Properties.Periods
import Leaderboards.Transactions.Reading
import Leaderboards.Transactions.Calls
import Leaderboards.Transactions.VersionReads
import Leaderboards.Transactions.Creating
import Leaderboards.Transactions.Syncing
import Leaderboards.Properties.AtomicReads
import Leaderboards.Properties.FailedSync
import Leaderboards.Properties.AccumulativeSync
import Leaderboards.Properties.BoardFilters
import Leaderboards.Properties.SchemaNames
import Leaderboards.Properties.Independence
import Leaderboards.Properties.Convergence
import Leaderboards.Properties.FailedSnapshot
import Leaderboards.Library.Reader
import Leaderboards.Repo.Reads
import Leaderboards.Transactions.Observing
import Leaderboards.Properties.MonotonicReads
import Leaderboards.Properties.EntryHistory
import Leaderboards.Library.Extension
import Leaderboards.Library.Erasure
import Leaderboards.Library.Naming
import Leaderboards.Library.Atomicity
import Leaderboards.Repo.CollectionBoards
import Leaderboards.Github
import Leaderboards.Router
import Leaderboards.Transactions.Api
import Leaderboards.Transactions.Looking
import Leaderboards.Properties.WriteAccess
import Leaderboards.Transactions.Messages
import Leaderboards.Transactions.ApiRuns
import Leaderboards.Contents.Catalog
import Leaderboards.Transactions.Finding
import Leaderboards.Properties.CollectionMembers
import Leaderboards.Library.Product
import Leaderboards.Sync.Checkout
import Leaderboards.Sync.GitRuns
import Leaderboards.Sync.Files
import Leaderboards.Sync.Tasks
import Leaderboards.Sync.Critical
import Leaderboards.Properties.PushSync
import Leaderboards.Webhooks.Deliver
import Leaderboards.Properties.Deliveries
