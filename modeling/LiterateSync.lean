import LiterateSync.Command.Basic
import LiterateSync.Command.Check
import LiterateSync.Command.Line
import LiterateSync.Command.Listing
import LiterateSync.DocComment
import LiterateSync.Document.Basic
import LiterateSync.Document.BlockId
import LiterateSync.Document.Diff
import LiterateSync.Document.InPlace
import LiterateSync.Document.Pairing
import LiterateSync.Document.Patch
import LiterateSync.Document.Rebase
import LiterateSync.Document.Subsequence
import LiterateSync.Document.View
import LiterateSync.Files.Basic
import LiterateSync.Files.Name
import LiterateSync.Language.Builtin
import LiterateSync.Language.Profile
import LiterateSync.Language.Registry
import LiterateSync.Main
import LiterateSync.Proofs.DocComment
import LiterateSync.Proofs.Document.Bare
import LiterateSync.Proofs.Document.Carrying
import LiterateSync.Proofs.Document.CodeText
import LiterateSync.Proofs.Document.CommonRun
import LiterateSync.Proofs.Document.Cut
import LiterateSync.Proofs.Document.DiffApply
import LiterateSync.Proofs.Document.Duality
import LiterateSync.Proofs.Document.Edits
import LiterateSync.Proofs.Document.Emission
import LiterateSync.Proofs.Document.Fallback
import LiterateSync.Proofs.Document.FewestMoves
import LiterateSync.Proofs.Document.Framing
import LiterateSync.Proofs.Document.InPlace
import LiterateSync.Proofs.Document.Kept
import LiterateSync.Proofs.Document.Landing
import LiterateSync.Proofs.Document.LastContent
import LiterateSync.Proofs.Document.Layout
import LiterateSync.Proofs.Document.Minting
import LiterateSync.Proofs.Document.Naming
import LiterateSync.Proofs.Document.Normalizing
import LiterateSync.Proofs.Document.Numbering
import LiterateSync.Proofs.Document.Opening
import LiterateSync.Proofs.Document.Partners
import LiterateSync.Proofs.Document.Places
import LiterateSync.Proofs.Document.ProseEdit
import LiterateSync.Proofs.Document.Rebase
import LiterateSync.Proofs.Document.Renaming
import LiterateSync.Proofs.Document.Restoring
import LiterateSync.Proofs.Document.RisingRun
import LiterateSync.Proofs.Document.Rows
import LiterateSync.Proofs.Document.SingleEdit
import LiterateSync.Proofs.Document.Survivors
import LiterateSync.Proofs.Document.Taking
import LiterateSync.Proofs.Document.Touch
import LiterateSync.Proofs.Document.Tracking
import LiterateSync.Proofs.Document.Unknown
import LiterateSync.Proofs.Document.Upkeep
import LiterateSync.Proofs.Document.View
import LiterateSync.Proofs.Document.Written
import LiterateSync.Proofs.Files.Replace
import LiterateSync.Proofs.Language.Openings
import LiterateSync.Proofs.Language.Registering
import LiterateSync.Proofs.Language.Regular
import LiterateSync.Proofs.Segment.Contexts
import LiterateSync.Proofs.Segment.Delimiters
import LiterateSync.Proofs.Segment.DocForm
import LiterateSync.Proofs.Segment.Faults
import LiterateSync.Proofs.Segment.Grouping
import LiterateSync.Proofs.Segment.LineFeeds
import LiterateSync.Proofs.Segment.Lines
import LiterateSync.Proofs.Segment.Locality
import LiterateSync.Proofs.Segment.Markup
import LiterateSync.Proofs.Segment.Parts
import LiterateSync.Proofs.Segment.Progress
import LiterateSync.Proofs.Segment.Prose
import LiterateSync.Proofs.Segment.Reading
import LiterateSync.Proofs.Segment.Rendering
import LiterateSync.Proofs.Segment.Reporting
import LiterateSync.Proofs.Segment.Rewriting
import LiterateSync.Proofs.Segment.RunLocality
import LiterateSync.Proofs.Segment.SourceLines
import LiterateSync.Proofs.Segment.Spans
import LiterateSync.Proofs.Segment.Tiling
import LiterateSync.Proofs.Segment.Tokens
import LiterateSync.Proofs.Session.Always
import LiterateSync.Proofs.Session.Backing
import LiterateSync.Proofs.Session.Calm
import LiterateSync.Proofs.Session.Commands
import LiterateSync.Proofs.Session.Consistency
import LiterateSync.Proofs.Session.Convergence
import LiterateSync.Proofs.Session.Copies
import LiterateSync.Proofs.Session.Echo
import LiterateSync.Proofs.Session.Effect
import LiterateSync.Proofs.Session.Escalation
import LiterateSync.Proofs.Session.Hearing
import LiterateSync.Proofs.Session.History
import LiterateSync.Proofs.Session.Invariant
import LiterateSync.Proofs.Session.Log
import LiterateSync.Proofs.Session.Minting
import LiterateSync.Proofs.Session.Mirror
import LiterateSync.Proofs.Session.Moves
import LiterateSync.Proofs.Session.Muting
import LiterateSync.Proofs.Session.Naming
import LiterateSync.Proofs.Session.Opened
import LiterateSync.Proofs.Session.Outgoing
import LiterateSync.Proofs.Session.Overwriting
import LiterateSync.Proofs.Session.OwnEdits
import LiterateSync.Proofs.Session.Rebasing
import LiterateSync.Proofs.Session.Receiving
import LiterateSync.Proofs.Session.Refusing
import LiterateSync.Proofs.Session.Relayout
import LiterateSync.Proofs.Session.Replica
import LiterateSync.Proofs.Session.Saving
import LiterateSync.Proofs.Session.Settlement
import LiterateSync.Proofs.Session.Settling
import LiterateSync.Proofs.Session.Subscribers
import LiterateSync.Proofs.Session.Telling
import LiterateSync.Proofs.Session.Writing
import LiterateSync.Proofs.Text.Digits
import LiterateSync.Proofs.Text.Fields
import LiterateSync.Proofs.Text.LineEnding
import LiterateSync.Proofs.Text.LongestFirst
import LiterateSync.Proofs.Text.Pattern
import LiterateSync.Proofs.Text.PatternReader
import LiterateSync.Proofs.Text.Regex
import LiterateSync.Proofs.Text.Search
import LiterateSync.Proofs.Wire.Codes
import LiterateSync.Proofs.Wire.Document
import LiterateSync.Proofs.Wire.Language
import LiterateSync.Proofs.Wire.Lines
import LiterateSync.Proofs.Wire.Literals
import LiterateSync.Proofs.Wire.RoundTrip
import LiterateSync.Proofs.Wire.Session
import LiterateSync.Proofs.Wire.Spelling
import LiterateSync.Proofs.Workspace.Attached
import LiterateSync.Proofs.Workspace.Backing
import LiterateSync.Proofs.Workspace.Course
import LiterateSync.Proofs.Workspace.Effects
import LiterateSync.Proofs.Workspace.Muting
import LiterateSync.Proofs.Workspace.OpenFiles
import LiterateSync.Proofs.Workspace.Orderly
import LiterateSync.Proofs.Workspace.Outboxes
import LiterateSync.Proofs.Workspace.Relaying
import LiterateSync.Proofs.Workspace.Schedules
import LiterateSync.Proofs.Workspace.Serving
import LiterateSync.Proofs.Workspace.Traffic
import LiterateSync.Regex
import LiterateSync.Segment.Basic
import LiterateSync.Segment.Code
import LiterateSync.Segment.DocRun
import LiterateSync.Segment.Excerpt
import LiterateSync.Segment.Grammar
import LiterateSync.Segment.Report
import LiterateSync.Segment.Split
import LiterateSync.Session.Basic
import LiterateSync.Session.Command
import LiterateSync.Session.Config
import LiterateSync.Session.Message
import LiterateSync.Session.Pending
import LiterateSync.Session.Reconcile
import LiterateSync.Settings.Basic
import LiterateSync.Settings.Load
import LiterateSync.Text.Basic
import LiterateSync.Text.Checksum
import LiterateSync.Text.Colour
import LiterateSync.Text.LineEnding
import LiterateSync.Text.Pattern.Basic
import LiterateSync.Text.Pattern.CharClass
import LiterateSync.Text.Pattern.Library
import LiterateSync.Text.Pattern.Reader
import LiterateSync.Text.Pattern.Size
import LiterateSync.Text.WidthTable
import LiterateSync.Text.WordTable
import LiterateSync.Wire.Document
import LiterateSync.Wire.Json
import LiterateSync.Wire.Language
import LiterateSync.Wire.Magnitude
import LiterateSync.Wire.Reader
import LiterateSync.Wire.Record
import LiterateSync.Wire.Session
import LiterateSync.Wire.Settings
import LiterateSync.Workspace.Basic
import LiterateSync.Workspace.Host
import LiterateSync.Workspace.Loading
import LiterateSync.Workspace.Opening
import LiterateSync.Workspace.Outbox
import LiterateSync.Workspace.Relay
import LiterateSync.Workspace.Request
import LiterateSync.Workspace.Task
import LiterateSync.Workspace.Watch
