import ProxyPulse.Backoff
import ProxyPulse.Board
import ProxyPulse.Broadcast
import ProxyPulse.Budget
import ProxyPulse.Call
import ProxyPulse.Cli.Options
import ProxyPulse.Cli.Program
import ProxyPulse.Config
import ProxyPulse.Config.Decode
import ProxyPulse.Config.Load
import ProxyPulse.Config.Overrides
import ProxyPulse.Config.Toml
import ProxyPulse.Config.Validation
import ProxyPulse.Controller
import ProxyPulse.Controller.Body
import ProxyPulse.Controller.Exchange
import ProxyPulse.Controller.Remote
import ProxyPulse.Controller.Table
import ProxyPulse.Core
import ProxyPulse.Core.Script
import ProxyPulse.DelayCache
import ProxyPulse.Document
import ProxyPulse.Endpoint
import ProxyPulse.Engine.Coordinator
import ProxyPulse.Engine.Request
import ProxyPulse.Engine.Run
import ProxyPulse.Engine.Session
import ProxyPulse.Engine.State
import ProxyPulse.Engine.Task
import ProxyPulse.Group
import ProxyPulse.Group.Decode
import ProxyPulse.Json
import ProxyPulse.Json.Reader
import ProxyPulse.Json.Writer
import ProxyPulse.Main
import ProxyPulse.Measurement
import ProxyPulse.Permits
import ProxyPulse.Proxy
import ProxyPulse.Registry
import ProxyPulse.Shutdown
import ProxyPulse.Text.Hidden
import ProxyPulse.Text.Quoted
import ProxyPulse.Toml.Reader
import ProxyPulse.Toml.Scalar
import ProxyPulse.Toml.Text
import ProxyPulse.Toml.Tree
import ProxyPulse.Toml.Writer
import ProxyPulse.Url
import ProxyPulse.Url.Address
import ProxyPulse.Url.Domain
import ProxyPulse.Url.Percent
import ProxyPulse.Url.Punycode
import ProxyPulse.Proofs.Board
import ProxyPulse.Proofs.Registry
import ProxyPulse.Proofs.Engine.Action
import ProxyPulse.Proofs.Engine.Move
import ProxyPulse.Proofs.Engine.Conduct
import ProxyPulse.Proofs.Engine.Coherence
import ProxyPulse.Proofs.Engine.Turns
import ProxyPulse.Proofs.Engine.Schedule
import ProxyPulse.Proofs.Engine.Results
import ProxyPulse.Proofs.Engine.History
import ProxyPulse.Proofs.Engine.Ownership
import ProxyPulse.Proofs.Board.Announcements
import ProxyPulse.Proofs.Registry.Replacement
import ProxyPulse.Proofs.Engine.Ledger
import ProxyPulse.Proofs.Engine.Retracking
import ProxyPulse.Proofs.Proxy
import ProxyPulse.Proofs.Board.DelayOrder
import ProxyPulse.Proofs.Registry.Operation
import ProxyPulse.Proofs.Engine.DelayOrder
import ProxyPulse.Proofs.Registry.Links
import ProxyPulse.Proofs.Permits
import ProxyPulse.Proofs.Engine.Staff
import ProxyPulse.Proofs.Engine.Roster
import ProxyPulse.Proofs.Engine.Concurrency
import ProxyPulse.Proofs.Engine.Aftermath
import ProxyPulse.Proofs.Engine.Coordinators
import ProxyPulse.Proofs.Engine.Sweep
import ProxyPulse.Proofs.Engine.Settings
import ProxyPulse.Proofs.Config.Writable
import ProxyPulse.Proofs.Cli.CheckConfig
import ProxyPulse.Proofs.Endpoint
import ProxyPulse.Proofs.Registry.Fidelity
import ProxyPulse.Proofs.Engine.Fidelity
import ProxyPulse.Proofs.Engine.Resolution
import ProxyPulse.Proofs.Engine.Crew
import ProxyPulse.Proofs.Engine.Course
import ProxyPulse.Proofs.Engine.Deeds
import ProxyPulse.Proofs.Engine.Polling
import ProxyPulse.Proofs.Engine.Convergence
import ProxyPulse.Proofs.Registry.Delays
import ProxyPulse.Proofs.Engine.Findings
import ProxyPulse.Proofs.Engine.Deadline
import ProxyPulse.Proofs.Engine.Probes
import ProxyPulse.Proofs.Engine.Stopping
import ProxyPulse.Proofs.Engine.Probing
import ProxyPulse.Proofs.Engine.Collecting
import ProxyPulse.Proofs.Engine.Reports
import ProxyPulse.Proofs.Endpoint.Chains
import ProxyPulse.Proofs.Board.Bursts
import ProxyPulse.Proofs.Engine.Reloading
import ProxyPulse.Proofs.Engine.Overheard
import ProxyPulse.Proofs.Engine.Exchanges
import ProxyPulse.Proofs.Engine.Outstanding
import ProxyPulse.Proofs.DelayCache
import ProxyPulse.Proofs.Board.Updates
import ProxyPulse.Proofs.Board.Batches
import ProxyPulse.Proofs.Engine.Choosing
import ProxyPulse.Proofs.Backoff
import ProxyPulse.Proofs.Config.Validation
import ProxyPulse.Proofs.Budget
import ProxyPulse.Proofs.Engine.Limits
import ProxyPulse.Proofs.Engine.Fetching
import ProxyPulse.Proofs.Engine.Standstill
import ProxyPulse.Proofs.Engine.Prefetch
import ProxyPulse.Proofs.Proxy.Sorting
import ProxyPulse.Proofs.Controller.Table
import ProxyPulse.Proofs.Url.Segments
import ProxyPulse.Proofs.Controller.Endpoints
import ProxyPulse.Proofs.Toml.Strings
import ProxyPulse.Proofs.Toml.Values
import ProxyPulse.Proofs.Toml.Lines
import ProxyPulse.Proofs.Config.RoundTrip
