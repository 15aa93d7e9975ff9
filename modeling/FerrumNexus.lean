import FerrumNexus.Agents.Exposure
import FerrumNexus.Outbox.Delivery
import FerrumNexus.Accounts.Runs
import FerrumNexus.Saga.Program
import FerrumNexus.Saga.Fallible
import FerrumNexus.Saga.Runs
import FerrumNexus.Platform.Calls
import FerrumNexus.Credentials.Store
import FerrumNexus.Credentials.Service
import FerrumNexus.Sequences.Alignment
import FerrumNexus.Credentials.Mirror
import FerrumNexus.Credentials.MirrorOperations
import FerrumNexus.Credentials.MirrorRuns
import FerrumNexus.Access.Rows
import FerrumNexus.Credentials.Recovery
import FerrumNexus.Credentials.RecoveryProofs
import FerrumNexus.Credentials.RecoverySweep
import FerrumNexus.Leases.Fence
import FerrumNexus.Publishing.Conversion
import FerrumNexus.Publishing.ConversionFrame
import FerrumNexus.Publishing.JournalRuns
import FerrumNexus.Publishing.EstateRuns
import FerrumNexus.Saga.Fencing
import FerrumNexus.Teardown.Generations
import FerrumNexus.Credentials.Withdrawal
import FerrumNexus.Publishing.RecoveryJournals
import FerrumNexus.Catalog.Privacy
import FerrumNexus.Database.GateRuns
import FerrumNexus.Access.RecoveryExactness
import FerrumNexus.Links.Runs
import FerrumNexus.OpenApi.References
import FerrumNexus.Credentials.Restoration
import FerrumNexus.Agents.Endpoint
import FerrumNexus.Credentials.LegacyScan
import FerrumNexus.Credentials.LegacyPositions
import FerrumNexus.Access.RequestAdmission
import FerrumNexus.Access.RequestBudget
import FerrumNexus.Publishing.SpecBudget
import FerrumNexus.Publishing.SpecPairs
import FerrumNexus.Settings.RevisionMemo
import FerrumNexus.Settings.Generation
import FerrumNexus.Publishing.EdgePluginUndo
import FerrumNexus.Publishing.GatewayGuard
import FerrumNexus.Egress.DateTimes
import FerrumNexus.Egress.Fleet
import FerrumNexus.Egress.Guarantee
import FerrumNexus.Graphs.Unfolding
import FerrumNexus.Publishing.SpecShape
import FerrumNexus.Publishing.SpecShapeWalk
import FerrumNexus.Publishing.SpecShapeRuns
import FerrumNexus.Publishing.SpecShapeBounds
import FerrumNexus.Publishing.SpecShapeSums
import FerrumNexus.Publishing.SpecExpansion
import FerrumNexus.Formats.DeepEquality
import FerrumNexus.OpenApi.Contents
import FerrumNexus.Sequences.Sorting
import FerrumNexus.Sequences.Overriding
import FerrumNexus.Publishing.ParameterKeys
import FerrumNexus.Publishing.SpecDiff
import FerrumNexus.Publishing.SpecDiffRuns
import FerrumNexus.Publishing.SpecListing
import FerrumNexus.Publishing.SpecHoisting
import FerrumNexus.Publishing.SpecDifferences
import FerrumNexus.Runtime.LruCache
import FerrumNexus.Sequences.Scanning
import FerrumNexus.Sequences.Paging
import FerrumNexus.Runtime.UrlLogging
import FerrumNexus.Leases.KeyQueue
import FerrumNexus.Telemetry.Prometheus
import FerrumNexus.Telemetry.Exposition
import FerrumNexus.Sequences.OrderedMap
import FerrumNexus.Settings.SecretBinding
import FerrumNexus.Settings.SecretHistories
import FerrumNexus.Sequences.Wildcards
import FerrumNexus.Audit.DetailFilters
import FerrumNexus.Sequences.Replaying
import FerrumNexus.Migrations.Statements
import FerrumNexus.Migrations.Mysql
import FerrumNexus.Migrations.Replay
import FerrumNexus.Publishing.SpecNotices
import FerrumNexus.Publishing.SpecNoticeRuns
import FerrumNexus.Sequences.Matching
import FerrumNexus.Email.Templates
import FerrumNexus.Email.TemplateLinks
import FerrumNexus.Email.Substitution
import FerrumNexus.Email.Renderings
import FerrumNexus.Email.DecodedValues
import FerrumNexus.Email.VariableSafety
import FerrumNexus.Email.Placement
import FerrumNexus.Email.RenderedDestinations
import FerrumNexus.Email.StrayPlaceholders
import FerrumNexus.Email.InertVariables
import FerrumNexus.Saga.Steady
import FerrumNexus.Access.Books
import FerrumNexus.Access.Ledger
import FerrumNexus.Access.Entries
import FerrumNexus.Access.Untouched
import FerrumNexus.Access.Bookkeeping
import FerrumNexus.Access.BookkeepingPrograms
import FerrumNexus.Access.BookkeepingRuns
import FerrumNexus.Sequences.Windows
import FerrumNexus.Campaigns.Copies
import FerrumNexus.Campaigns.Sizes
import FerrumNexus.Campaigns.Service
import FerrumNexus.Campaigns.Charging
import FerrumNexus.Campaigns.Fanout
import FerrumNexus.Campaigns.Runs
