import AgentRuntimeKit.Context.Refinement
import AgentRuntimeKit.Protocol.Turn
import AgentRuntimeKit.Protocol.Execution
import AgentRuntimeKit.Protocol.Reconciliation
import AgentRuntimeKit.Protocol.Soundness
import AgentRuntimeKit.Protocol.History
import AgentRuntimeKit.Results.Runs
import AgentRuntimeKit.Results.Transcripts
import AgentRuntimeKit.Protocol.Programs
import AgentRuntimeKit.Protocol.Frame
import AgentRuntimeKit.Protocol.Producers
import AgentRuntimeKit.Protocol.Answers
import AgentRuntimeKit.Results.Idempotency
import AgentRuntimeKit.Results.Outcomes
import AgentRuntimeKit.Results.Streams
import AgentRuntimeKit.Results.Stranding
import AgentRuntimeKit.Clients.Sse
import AgentRuntimeKit.Clients.SseFraming
import AgentRuntimeKit.Lib.JsonText
import AgentRuntimeKit.Clients.Canonical
import AgentRuntimeKit.Adapters.Native
import AgentRuntimeKit.Lib.Lossless
import AgentRuntimeKit.Lib.JsonObject
import AgentRuntimeKit.Lib.UuidText
import AgentRuntimeKit.Model.Documents
import AgentRuntimeKit.Clients.Decoding
import AgentRuntimeKit.Clients.OpenAI
import AgentRuntimeKit.Clients.OpenAIStreaming
import AgentRuntimeKit.Clients.Anthropic
import AgentRuntimeKit.Clients.AnthropicStreaming
import AgentRuntimeKit.Clients.Gemini
import AgentRuntimeKit.Lib.GenLoop
import AgentRuntimeKit.Clients.Safety
import AgentRuntimeKit.Clients.Providers
import AgentRuntimeKit.Context.Groups
import AgentRuntimeKit.Context.Selection
import AgentRuntimeKit.Adapters.NativeHistory
import AgentRuntimeKit.Lib.Trail
import AgentRuntimeKit.Model.Payloads
import AgentRuntimeKit.Clients.Payloads
import AgentRuntimeKit.Clients.Wire
import AgentRuntimeKit.Adapters.FrameworkMessages
import AgentRuntimeKit.Adapters.Attribution
import AgentRuntimeKit.Adapters.FrameworkRoundTrip
import AgentRuntimeKit.Lib.Watching
import AgentRuntimeKit.Results.Claims
import AgentRuntimeKit.Protocol.Locks
import AgentRuntimeKit.Results.Deadlock
import AgentRuntimeKit.Feedback.Exec
import AgentRuntimeKit.Feedback.Invariant
import AgentRuntimeKit.Feedback.Replay
import AgentRuntimeKit.Results.Feedback
import AgentRuntimeKit.Lib.Paging
import AgentRuntimeKit.Feedback.Export
import AgentRuntimeKit.Results.Export
import AgentRuntimeKit.Context.Retention
import AgentRuntimeKit.Lib.ExpiringMap
import AgentRuntimeKit.LongTerm.Records
import AgentRuntimeKit.LongTerm.Refinement
import AgentRuntimeKit.Results.LongTerm
import AgentRuntimeKit.Lib.JsonScalars
import AgentRuntimeKit.Lib.JsonReadable
import AgentRuntimeKit.Lib.JsonOrder
import AgentRuntimeKit.Runtime.Hashing
import AgentRuntimeKit.Results.Hashing
import AgentRuntimeKit.Context.Provenance
import AgentRuntimeKit.Protocol.Scopes
import AgentRuntimeKit.Protocol.Confinement
import AgentRuntimeKit.Protocol.ScopedTurns
import AgentRuntimeKit.Protocol.ScopedTasks
import AgentRuntimeKit.Protocol.Threads
import AgentRuntimeKit.Results.Namespaces
import AgentRuntimeKit.Protocol.Leases
import AgentRuntimeKit.Results.Leases
import AgentRuntimeKit.Adapters.Balance
import AgentRuntimeKit.Protocol.Balance
import AgentRuntimeKit.Protocol.BalancedRuns
import AgentRuntimeKit.Results.Balance
import AgentRuntimeKit.Lib.Typestate
import AgentRuntimeKit.Protocol.Shutdown
import AgentRuntimeKit.Protocol.LoopRuns
import AgentRuntimeKit.Results.Shutdown
import AgentRuntimeKit.Context.Current
import AgentRuntimeKit.Hooks.Base
import AgentRuntimeKit.Hooks.Guardrails
import AgentRuntimeKit.Protocol.Screening
import AgentRuntimeKit.Results.Guardrails
import AgentRuntimeKit.Tools.Registry
import AgentRuntimeKit.Tools.Gate
