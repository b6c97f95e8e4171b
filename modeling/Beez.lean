import Beez.Cli.Direct
import Beez.Cli.Relayed
import Beez.Cli.Report
import Beez.Cli.Reported
import Beez.Core.Accepted
import Beez.Core.Braces
import Beez.Core.Calls
import Beez.Core.Cycles
import Beez.Core.Execution
import Beez.Core.Lossless
import Beez.Core.Task
import Beez.Core.Template
import Beez.Core.Validation
import Beez.Core.Workflow
import Beez.Daemon.Accounted
import Beez.Daemon.Bind
import Beez.Daemon.CatchUps
import Beez.Daemon.Client
import Beez.Daemon.Conditions
import Beez.Daemon.Control
import Beez.Daemon.Copies
import Beez.Daemon.Counting
import Beez.Daemon.Daemon
import Beez.Daemon.Dropped
import Beez.Daemon.Due
import Beez.Daemon.Effects
import Beez.Daemon.Execute
import Beez.Daemon.Fires
import Beez.Daemon.Identity
import Beez.Daemon.Job
import Beez.Daemon.Late
import Beez.Daemon.Listed
import Beez.Daemon.Lives
import Beez.Daemon.Loaded
import Beez.Daemon.Moves
import Beez.Daemon.Offline
import Beez.Daemon.Overlap
import Beez.Daemon.Owed
import Beez.Daemon.Pruned
import Beez.Daemon.Rereads
import Beez.Daemon.Restarts
import Beez.Daemon.Running
import Beez.Daemon.Sandboxed
import Beez.Daemon.Saved
import Beez.Daemon.Stopping
import Beez.Daemon.Store
import Beez.Daemon.Sweeps
import Beez.Daemon.TakenUp
import Beez.Daemon.Together
import Beez.Daemon.Triggered
import Beez.Daemon.Waiting
import Beez.Daemon.Watching
import Beez.Daemon.Wire
import Beez.Lib.Arguments
import Beez.Lib.Calendar
import Beez.Lib.Chain
import Beez.Lib.Cycle
import Beez.Lib.Decimal
import Beez.Lib.Disk
import Beez.Lib.Fallible
import Beez.Lib.First
import Beez.Lib.Grouping
import Beez.Lib.Hops
import Beez.Lib.I32
import Beez.Lib.Keyed
import Beez.Lib.LastMatch
import Beez.Lib.Ledger
import Beez.Lib.Lexical
import Beez.Lib.Links
import Beez.Lib.Machine
import Beez.Lib.Merge
import Beez.Lib.Named
import Beez.Lib.Newest
import Beez.Lib.Program
import Beez.Lib.SExpr
import Beez.Manifest
import Beez.Manifest.Entries
import Beez.Manifest.Load
import Beez.OsPath
import Beez.Path
import Beez.Policy
import Beez.Policy.Groups
import Beez.Policy.Merge
import Beez.Policy.Written
import Beez.Record.Format
import Beez.Record.Log
import Beez.Record.Recorder
import Beez.Record.Streams
import Beez.Record.Summary
import Beez.Record.Time
import Beez.Runner.Harness
import Beez.Runner.Level
import Beez.Runner.Order
import Beez.Runner.Outcome
import Beez.Runner.Rendering
import Beez.Runner.Run
import Beez.Runner.Settled
import Beez.Runner.Streams
import Beez.Runner.Wave
import Beez.Sandbox.Allowed
import Beez.Sandbox.Authority
import Beez.Sandbox.Bubblewrap
import Beez.Sandbox.Domains
import Beez.Sandbox.Enforced
import Beez.Sandbox.Executables
import Beez.Sandbox.GivenBack
import Beez.Sandbox.Heads
import Beez.Sandbox.Held
import Beez.Sandbox.Http
import Beez.Sandbox.Init
import Beez.Sandbox.Lenient
import Beez.Sandbox.MaskRuns
import Beez.Sandbox.MaskSteps
import Beez.Sandbox.Masks
import Beez.Sandbox.MasksStay
import Beez.Sandbox.Mountable
import Beez.Sandbox.ProfileText
import Beez.Sandbox.Proxy
import Beez.Sandbox.Resolve
import Beez.Sandbox.Seatbelt
import Beez.Sandbox.Server
import Beez.Sandbox.Socks
import Beez.Sandbox.Stream
import Beez.Sandbox.Tree
import Beez.Schedule.Cron
import Beez.Schedule.Matches
import Beez.Schedule.Offset
import Beez.Schedule.Weekdays
import Beez.Text
import Beez.Utf8
