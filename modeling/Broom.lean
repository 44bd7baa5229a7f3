import Broom.Api.Caller
import Broom.Api.ClientAddress
import Broom.Api.Closing
import Broom.Api.Coverage
import Broom.Api.Events
import Broom.Api.Gate
import Broom.Api.Gzip
import Broom.Api.Handover
import Broom.Api.Nukes
import Broom.Api.RateLimit
import Broom.Api.Repeat
import Broom.Api.Scans
import Broom.Api.Selected
import Broom.Api.Spa
import Broom.Api.StartJob
import Broom.Api.Streaming
import Broom.Catalog.Build
import Broom.Core.Codec
import Broom.Core.Compressor
import Broom.Core.Duration
import Broom.Core.Encoding
import Broom.Core.EventSource
import Broom.Core.FixedWindow
import Broom.Core.Gather
import Broom.Core.Grouping
import Broom.Core.Json
import Broom.Core.LineScanner
import Broom.Core.OrderedMap
import Broom.Core.Partition
import Broom.Core.Percent
import Broom.Core.Pool
import Broom.Core.Program
import Broom.Core.Ranking
import Broom.Core.Regexp
import Broom.Core.Schedule
import Broom.Core.ServeMux
import Broom.Core.SlashPath
import Broom.Core.Threads
import Broom.Core.Timestamp
import Broom.Core.Transition
import Broom.Core.Word
import Broom.Engine.Accounting
import Broom.Engine.AlreadyGone
import Broom.Engine.Batches
import Broom.Engine.Closes
import Broom.Engine.Deleting
import Broom.Engine.Emitter
import Broom.Engine.Exclusion
import Broom.Engine.FailedRescan
import Broom.Engine.Keys
import Broom.Engine.Nuke
import Broom.Engine.NukeRun
import Broom.Engine.Parallel
import Broom.Engine.RegionWalk
import Broom.Engine.Run
import Broom.Engine.RunEvents
import Broom.Engine.Spec
import Broom.Engine.Wire
import Broom.Jobs.Aggregation
import Broom.Jobs.Brief
import Broom.Jobs.Channels
import Broom.Jobs.Job
import Broom.Jobs.Moments
import Broom.Jobs.Recorded
import Broom.Jobs.Replay
import Broom.Jobs.Store
import Broom.Jobs.Subscription
import Broom.Jobs.Supervisor
import Broom.Jobs.Tallies
import Broom.Jobs.View
import Broom.Service.Cancelled
import Broom.Service.Confirmed
import Broom.Service.Ended
import Broom.Service.Entry
import Broom.Service.Server
import Broom.Service.Tenants
import Broom.Sessions.Idle
import Broom.Sessions.Store
import Broom.Sessions.Teardown
import Broom.Sessions.Timed
import Broom.Tools.GoSyntax
import Broom.Tools.IamPolicy
import Broom.Tools.Policies
import Broom.Web.Agreement
import Broom.Web.Answers
import Broom.Web.Api
import Broom.Web.CleanPage
import Broom.Web.Counts
import Broom.Web.EventSchema
import Broom.Web.Failures
import Broom.Web.History
import Broom.Web.Hops
import Broom.Web.LivePage
import Broom.Web.LivePageEnd
import Broom.Web.LogTail
import Broom.Web.Lost
import Broom.Web.Order
import Broom.Web.Outcome
import Broom.Web.Progress
import Broom.Web.Reducer
import Broom.Web.Requests
import Broom.Web.Review
import Broom.Web.ScanAgain
import Broom.Web.Tabs
import Broom.Web.Tracker
import Broom.Web.Unreliable
import Broom.Web.Wizard
