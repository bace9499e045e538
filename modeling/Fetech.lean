import Fetech.Api
import Fetech.Api.Truncation
import Fetech.Archive
import Fetech.Archive.Members
import Fetech.Archive.Names
import Fetech.Archive.Response
import Fetech.Auth
import Fetech.AuthAdapter.Submissions
import Fetech.AuthFlows.Csrf
import Fetech.Broker.Bundle
import Fetech.Context
import Fetech.Discovery
import Fetech.Discovery.Ceilings
import Fetech.Discovery.Frontier
import Fetech.DoclingArtifacts
import Fetech.DoclingArtifacts.Identity
import Fetech.DoclingArtifacts.Scanning
import Fetech.DoclingArtifacts.Writing
import Fetech.Documents
import Fetech.Documents.Exposure
import Fetech.Documents.Hiding
import Fetech.Executor
import Fetech.Executor.AttemptLimit
import Fetech.Executor.Attempts
import Fetech.Executor.Budget
import Fetech.Executor.Losers
import Fetech.Executor.Merging
import Fetech.Executor.Outcomes
import Fetech.Executor.Outputs
import Fetech.Executor.Progress
import Fetech.Executor.Retries
import Fetech.Executor.RuntimeEvents
import Fetech.Gateway
import Fetech.Gateway.FinalRows
import Fetech.Gateway.Moves
import Fetech.Gateway.Recovery
import Fetech.Http
import Fetech.Http.Accounts
import Fetech.Http.CookieChain
import Fetech.Http.Cookies
import Fetech.Http.Credentials
import Fetech.Http.Errors
import Fetech.Http.Execute
import Fetech.Http.Limit
import Fetech.Http.Methods
import Fetech.Http.Receipts
import Fetech.Http.Route
import Fetech.Http.Stages
import Fetech.Http.Steps
import Fetech.Http.Tracks
import Fetech.Http.Transports
import Fetech.Http.Turns
import Fetech.Ledger
import Fetech.Ledger.Invariant
import Fetech.Ledger.Persisted
import Fetech.Ledger.Restart
import Fetech.Ledger.Streams
import Fetech.Lib.AnswerSets
import Fetech.Lib.Base64
import Fetech.Lib.Dict
import Fetech.Lib.Except
import Fetech.Lib.Gather
import Fetech.Lib.Json
import Fetech.Lib.JsonEncoding
import Fetech.Lib.JsonFaults
import Fetech.Lib.JsonReader
import Fetech.Lib.JsonRoundtrip
import Fetech.Lib.JsonText
import Fetech.Lib.JsonValue
import Fetech.Lib.Lists
import Fetech.Lib.Loop
import Fetech.Lib.PosixPath
import Fetech.Lib.Program
import Fetech.Lib.Query
import Fetech.Lib.QueryRoundtrip
import Fetech.Lib.Runs
import Fetech.Lib.Text
import Fetech.Lib.Url
import Fetech.Lib.UrlRoundtrip
import Fetech.Lib.Utf8
import Fetech.Logic
import Fetech.Logic.Clingo
import Fetech.Logic.Coordinator
import Fetech.Logic.Reasoner
import Fetech.Logic.Rules
import Fetech.Logic.Written
import Fetech.Media.Images
import Fetech.Media.Jpeg
import Fetech.Media.Transcripts
import Fetech.Models
import Fetech.Parsers
import Fetech.Parsers.Acceptance
import Fetech.Parsers.Answers
import Fetech.Parsers.Formats
import Fetech.Parsers.JsonLeaves
import Fetech.Parsers.MemberNames
import Fetech.Parsers.Rereading
import Fetech.Parsers.Results
import Fetech.Parsers.Routing
import Fetech.Parsers.Wellmade
import Fetech.Parsers.Worker
import Fetech.Parsers.Xml
import Fetech.Planning
import Fetech.Planning.Aliases
import Fetech.Planning.Names
import Fetech.Planning.Order
import Fetech.Planning.Outputs
import Fetech.Planning.Structure
import Fetech.Planning.Targets
import Fetech.Registry
import Fetech.Scheduling
import Fetech.Scheduling.Capacity
import Fetech.Scheduling.Hosts
import Fetech.Scheduling.Pacing
import Fetech.Scheduling.Wakeups
import Fetech.Security
import Fetech.Security.Destinations
import Fetech.Security.NormalForm
import Fetech.Security.PublicUrl
import Fetech.Security.Stability
import Fetech.Snapshots
import Fetech.Snapshots.Isolation
import Fetech.Snapshots.Latest
import Fetech.Snapshots.Lossless
import Fetech.Snapshots.Partition
import Fetech.Snapshots.Sample
import Fetech.Storage
import Fetech.Storage.Interference
import Fetech.Storage.Roundtrip
import Fetech.Storage.Verification
import Fetech.Transport
import Fetech.Variants
import Fetech.Variants.Acceptance
import Fetech.Variants.Expansion
import Fetech.Wayback.Captures
import Fetech.Wayback.Gzip
import Fetech.WorkerAudit
import Fetech.WorkerAudit.Guard
import Fetech.YtDlp
import Fetech.YtDlp.Canonical
import Fetech.YtDlp.Envelope
