import Supermemory.Storage.SchemaMigrations
import Supermemory.Startup.LegacySnapshot
import Supermemory.Startup.LegacyExport
import Supermemory.Bytes
import Supermemory.Server.CreateDocument
import Supermemory.Server.Readers
import Supermemory.Server.Writer
import Supermemory.Storage.Presence
import Supermemory.Library.Actor
import Supermemory.Storage.Tenancy
import Supermemory.Server.Wakeups
import Supermemory.Storage.QueuedDocuments
import Supermemory.Storage.ClaimOrder
import Supermemory.Library.Queue
import Supermemory.Storage.Integrity
import Supermemory.Storage.Statements
import Supermemory.Library.Cover
import Supermemory.MemoryEngine.ChunkFit
import Supermemory.MemoryEngine.ChunkCover
import Supermemory.Storage.ChunkRows
import Supermemory.Storage.Search
import Supermemory.Storage.Fencing
import Supermemory.Storage.Visibility
import Supermemory.Server.Cohort
import Supermemory.Server.Health
import Supermemory.Server.ExtractionExits
import Supermemory.Storage.Extraction
import Supermemory.Storage.Updates
import Supermemory.Storage.Forgetting
import Supermemory.Storage.Idempotence
import Supermemory.Storage.MemoryRows
import Supermemory.MemoryEngine.Delivery
import Supermemory.MemoryEngine.QueryBurst
import Supermemory.Storage.LocalIdentity
import Supermemory.Server.SearchEngine
import Supermemory.Storage.DocumentIdentity
import Supermemory.Storage.Lifecycle
import Supermemory.Storage.Reimport
import Supermemory.Storage.ImportedDocuments
import Supermemory.Storage.Attempts
import Supermemory.Server.SearchTenancy
import Supermemory.Server.SearchFilters
import Supermemory.Server.Authentication
import Supermemory.Server.CandidateNormalization
import Supermemory.Server.Similarity
import Supermemory.Server.ContextBudget
import Supermemory.Server.FilterGrammar
import Supermemory.Storage.DirectoryFilter
import Supermemory.Storage.Recovery
import Supermemory.Server.CandidateCache
import Supermemory.Storage.Constraints
import Supermemory.Server.AcceptedCandidates
import Supermemory.MemoryEngine.MarkdownSections
import Supermemory.Credentials.EnvDocument
import Supermemory.Credentials.SecretStore
import Supermemory.Storage.Publication
import Supermemory.Server.DocumentGroups
import Supermemory.Storage.Profiles
