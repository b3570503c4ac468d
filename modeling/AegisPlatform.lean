import AegisPlatform.Api.Answers
import AegisPlatform.Api.Attribution
import AegisPlatform.Api.AuditOrder
import AegisPlatform.Api.AuditTrail
import AegisPlatform.Api.Authentication
import AegisPlatform.Api.Bindings
import AegisPlatform.Api.Browsing
import AegisPlatform.Api.ConcurrentKeys
import AegisPlatform.Api.Coverage
import AegisPlatform.Api.Deployment
import AegisPlatform.Api.Deps
import AegisPlatform.Api.Documents
import AegisPlatform.Api.Edits
import AegisPlatform.Api.Executed
import AegisPlatform.Api.Feed
import AegisPlatform.Api.Finishing
import AegisPlatform.Api.Frontend
import AegisPlatform.Api.Handlers
import AegisPlatform.Api.HealingReview
import AegisPlatform.Api.Integrity
import AegisPlatform.Api.Isolation
import AegisPlatform.Api.Metering
import AegisPlatform.Api.Notification
import AegisPlatform.Api.Paging
import AegisPlatform.Api.Platform
import AegisPlatform.Api.Retrying
import AegisPlatform.Api.Runs
import AegisPlatform.Api.Site
import AegisPlatform.Api.StoredSuites
import AegisPlatform.Api.Streaming
import AegisPlatform.Api.SuiteView
import AegisPlatform.Api.UniqueKeys
import AegisPlatform.Api.Watching
import AegisPlatform.Cache.Clients
import AegisPlatform.Cache.Lifetimes
import AegisPlatform.Cache.Lockout
import AegisPlatform.Cache.RateLimit
import AegisPlatform.Cache.Store
import AegisPlatform.Core.Exceptions
import AegisPlatform.Core.Overlap
import AegisPlatform.Core.Pagination
import AegisPlatform.Core.Representation
import AegisPlatform.Core.Resilience
import AegisPlatform.Core.Security
import AegisPlatform.Db.Columns
import AegisPlatform.Db.Evolution
import AegisPlatform.Db.Integrity
import AegisPlatform.Db.Models
import AegisPlatform.Domain.Enums
import AegisPlatform.Domain.Schemas
import AegisPlatform.Foundations.Expiring
import AegisPlatform.Foundations.FixedWindow
import AegisPlatform.Foundations.ForeignKeys
import AegisPlatform.Foundations.JsonText
import AegisPlatform.Foundations.Keys
import AegisPlatform.Foundations.Matching
import AegisPlatform.Foundations.Paging
import AegisPlatform.Foundations.PubSub
import AegisPlatform.Foundations.PyNumber
import AegisPlatform.Foundations.PyText
import AegisPlatform.Foundations.Regex
import AegisPlatform.Foundations.Runs
import AegisPlatform.Foundations.Selection
import AegisPlatform.Foundations.Sharing
import AegisPlatform.Foundations.Table
import AegisPlatform.Foundations.UuidForm
import AegisPlatform.Healing.Chain
import AegisPlatform.Healing.Choice
import AegisPlatform.Healing.Compound
import AegisPlatform.Healing.Dom
import AegisPlatform.Healing.Engine
import AegisPlatform.Healing.FreeText
import AegisPlatform.Healing.Llm
import AegisPlatform.Healing.Printer
import AegisPlatform.Healing.Reading
import AegisPlatform.Healing.Signals
import AegisPlatform.Healing.Snapshot
import AegisPlatform.Healing.Strategies
import AegisPlatform.Healing.Threshold
import AegisPlatform.Services.AccountService
import AegisPlatform.Services.AuthService
import AegisPlatform.Services.RunService
import AegisPlatform.Services.SuiteService
import AegisPlatform.Workers.Announcements
import AegisPlatform.Workers.AuditTrail
import AegisPlatform.Workers.Browser
import AegisPlatform.Workers.Completion
import AegisPlatform.Workers.Coverage
import AegisPlatform.Workers.Degradation
import AegisPlatform.Workers.Dispatch
import AegisPlatform.Workers.Drift
import AegisPlatform.Workers.Execution
import AegisPlatform.Workers.Executor
import AegisPlatform.Workers.Faults
import AegisPlatform.Workers.Finishing
import AegisPlatform.Workers.Following
import AegisPlatform.Workers.Forgery
import AegisPlatform.Workers.Healing
import AegisPlatform.Workers.HeuristicRuns
import AegisPlatform.Workers.Loop
import AegisPlatform.Workers.Messages
import AegisPlatform.Workers.News
import AegisPlatform.Workers.Pool
import AegisPlatform.Workers.Protection
import AegisPlatform.Workers.Recording
import AegisPlatform.Workers.Records
import AegisPlatform.Workers.Redelivery
import AegisPlatform.Workers.Rendering
import AegisPlatform.Workers.Rows
import AegisPlatform.Workers.Serial
import AegisPlatform.Workers.Stored
import AegisPlatform.Workers.Terminal
import AegisPlatform.Workers.TextHealing
import AegisPlatform.Workers.Widths
