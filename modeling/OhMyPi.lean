import OhMyPi.Lib.Except
import OhMyPi.Lib.Framing
import OhMyPi.Lib.KeyedList
import OhMyPi.Lib.OrdMap
import OhMyPi.Lib.Search
import OhMyPi.Lib.Text
import OhMyPi.Journal.Ulid
import OhMyPi.Journal.Entry
import OhMyPi.Journal.Json
import OhMyPi.Journal.Sse
import OhMyPi.Journal.SseLemmas
import OhMyPi.Journal.File
import OhMyPi.Journal.FileLemmas
import OhMyPi.Journal.Chain
import OhMyPi.Journal.Recovery
import OhMyPi.Journal.AppendFailure
import OhMyPi.Journal.Roots
import OhMyPi.Journal.Collection
import OhMyPi.Dom.Node
import OhMyPi.Dom.Txn
import OhMyPi.Dom.Replica
import OhMyPi.Dom.Decode
import OhMyPi.Dom.History
import OhMyPi.Dom.Noninterference
import OhMyPi.Dom.WireSnapshot
import OhMyPi.Bridge.Delivery
import OhMyPi.Lib.Action
import OhMyPi.Session.Commands
import OhMyPi.Edit.Files
import OhMyPi.Approvals.Answers
import OhMyPi.Approvals.Grants
import OhMyPi.Edit.NotebookRoundTrip
import OhMyPi.Docserver.Resolution
import OhMyPi.Docserver.MoveSafety
import OhMyPi.Trust.Revocation
import OhMyPi.Console.Overlay
import OhMyPi.Recovery.Separation
import OhMyPi.Lib.Layers
import OhMyPi.Sandbox.Spec
import OhMyPi.Sandbox.Plan
import OhMyPi.Sandbox.Bubblewrap
import OhMyPi.Sandbox.Gvisor
import OhMyPi.Sandbox.Seatbelt
import OhMyPi.Sandbox.Confinement
import OhMyPi.Sandbox.Admission
import OhMyPi.Sandbox.Opening
import OhMyPi.Credentials.Store
import OhMyPi.Credentials.Operations
import OhMyPi.Credentials.Fencing
import OhMyPi.Credentials.Reveal
import OhMyPi.Lib.LossyStream
import OhMyPi.Dispatch.OutputStream
import OhMyPi.Lib.Delimited
import OhMyPi.Lib.Substitute
import OhMyPi.Secrets.Placeholder
import OhMyPi.Secrets.PlaceholderLemmas
import OhMyPi.Secrets.Replacement
import OhMyPi.Secrets.Obfuscator
import OhMyPi.Secrets.States
import OhMyPi.Secrets.RoundTrip
import OhMyPi.Secrets.Stream
import OhMyPi.Secrets.Survival
import OhMyPi.Secrets.FixedPoint
import OhMyPi.Dispatch.Bounding
import OhMyPi.Dispatch.Clamping
import OhMyPi.Lib.Longest
import OhMyPi.Dispatch.HeadTail
import OhMyPi.Dispatch.Honesty
import OhMyPi.Credentials.Refresh
import OhMyPi.Credentials.SingleFlight
import OhMyPi.Journal.Scanner
import OhMyPi.Lib.Lineage
import OhMyPi.Journal.Branches
import OhMyPi.Session.Lifecycle
import OhMyPi.Dom.Refinement
import OhMyPi.Collab.Frame
import OhMyPi.Collab.HostUi
import OhMyPi.Session.Rewind
import OhMyPi.Session.Runs
import OhMyPi.Lib.Base64
import OhMyPi.Collab.Codec
import OhMyPi.Collab.Agreement
import OhMyPi.Lib.Slice
import OhMyPi.Docserver.Position
import OhMyPi.Lib.Splice
import OhMyPi.Docserver.Places
import OhMyPi.Docserver.TextEdits
import OhMyPi.Docserver.Rebase
import OhMyPi.Docserver.Alignment
import OhMyPi.Docserver.Ambiguity
import OhMyPi.Lib.Ancestry
import OhMyPi.Dom.Selector
import OhMyPi.Secrets.Registry
import OhMyPi.Secrets.Markers
import OhMyPi.Secrets.KeyNeed
import OhMyPi.Secrets.Foresight
import OhMyPi.Edit.TextShape
import OhMyPi.Edit.Fuzzy
import OhMyPi.Edit.ReplaceText
import OhMyPi.Edit.Windows
import OhMyPi.Edit.ReplaceLoop
import OhMyPi.Edit.ReplaceAll
import OhMyPi.Lib.JsonTokens
import OhMyPi.Slopjson.Value
import OhMyPi.Slopjson.Parser
import OhMyPi.Slopjson.De
import OhMyPi.Slopjson.Repair
import OhMyPi.Slopjson.Standard
import OhMyPi.Slopjson.Tokens
import OhMyPi.Slopjson.Conservative
import OhMyPi.Edit.Sequence
import OhMyPi.Edit.Hunks
import OhMyPi.Edit.Patch
import OhMyPi.Edit.Placement
import OhMyPi.Edit.Changes
import OhMyPi.Docserver.Leases
import OhMyPi.Docserver.LeaseSafety
import OhMyPi.Docserver.Exclusivity
import OhMyPi.Jobs.Output
import OhMyPi.Jobs.RoundTrip
import OhMyPi.Edit.ExactMode
import OhMyPi.Console.Keys
import OhMyPi.Console.Balance
import OhMyPi.Console.Scopes
import OhMyPi.Console.Effective
import OhMyPi.Recovery.Schema
import OhMyPi.Recovery.Repair
import OhMyPi.Recovery.Blame
import OhMyPi.Recovery.Licensed
import OhMyPi.Edit.Hashline
import OhMyPi.Edit.HashlineOverlaps
import OhMyPi.Accounts.Windows
import OhMyPi.Accounts.Pool
import OhMyPi.Accounts.RetryTimes
import OhMyPi.Lib.Tokenizer
import OhMyPi.Terminal.Decode
import OhMyPi.Terminal.Input
import OhMyPi.Terminal.Frames
import OhMyPi.Terminal.Arrival
import OhMyPi.Lib.EditGraph
import OhMyPi.Edit.Myers
import OhMyPi.Edit.MyersCorrect
import OhMyPi.Edit.MyersRuns
import OhMyPi.Lib.EditDistance
import OhMyPi.Edit.Distance
import OhMyPi.Journal.PrefixScan
import OhMyPi.Journal.Identities
import OhMyPi.Collab.Replication
import OhMyPi.Recovery.Subset
import OhMyPi.Edit.LineDiff
