import AgentRuntimeKit.Store.Runs

/-!
# One invocation

`AgentRuntime._execute` (`runtime.py`), the orchestration of one turn, and
`checked_stream` (`_streams.py`), through which it reads a streaming invoker.
`emit` says whether the invocation streams: the source passes a callback that
enqueues, or `None`.

Hooks, invokers and sources are third-party code: they return or raise anything.
Telemetry, correlation and logging are left out; they change nothing else.
-/

namespace AgentRuntimeKit

open Lib Prog

/-- Seconds of `lease_seconds = timeout + cleanup_timeout + 5`, in microseconds. -/
def leaseSlack : Time := 5000000

def Runtime.lease (rt : Runtime) : Time := rt.timeout + rt.cleanupTimeout + leaseSlack

def unknownAgent (agentId : String) : Exn :=
  .kit .unknownAgent s!"Agent '{agentId}' is not registered"

/-- `AgentRegistry.get`. -/
def Runtime.agent (rt : Runtime) (agentId : String) : Except Exn Invoker :=
  match rt.agents agentId with
  | some invoker => .ok invoker
  | none => .error (unknownAgent agentId)

/-- `emit(event)`, when there is a stream. -/
def emitEvent (emit : Bool) (e : RuntimeStreamEvent) : P Unit :=
  if emit then perform (.put (.event e)) else pure ()

/-- `_started`. -/
def startedOf (response : RuntimeResponse) : RuntimeStreamEvent :=
  .started response.runId response.requestId response.threadId response.agent

/-- `_replay`. -/
def replay (run : RunRecord) (requestHash : String) : Except Exn RuntimeResponse :=
  if run.requestHash ≠ some requestHash then .error idempotencyConflict
  else if run.status.isActive then
    .error (.kit .runInProgress "The idempotent request is still running")
  else
    match run.status, run.response with
    | .succeeded, some response => .ok response
    | status, _ => .error (.kit .idempotentRunUnavailable
        s!"The prior idempotent run completed with status '{status.value}'")

/-- `_require_scoped_thread`. -/
def requireScopedThread (rt : Runtime) (threadId : Uuid) : P Unit := do
  match ← getThread threadId (some rt.namespace_) with
  | some _ => pure ()
  | none => throw (threadNotFound threadId)

/-- The end of both replay paths. -/
def replayTo (emit : Bool) (run : RunRecord) (requestHash : String) : P RuntimeResponse := do
  let response ← lift (replay run requestHash)
  emitEvent emit (startedOf response)
  pure response

/-- The replay of a run found before claiming. -/
def replayPrevious (rt : Runtime) (emit : Bool) (previous : RunRecord) (requestHash : String) :
    P RuntimeResponse := do
  requireScopedThread rt previous.threadId
  if previous.requestHash = some requestHash ∧ previous.status.isActive then do
    let recovered ← recover previous.id
    replayTo emit recovered requestHash
  else replayTo emit previous requestHash

/-- The replay of a run that `claim` found. -/
def replayClaimed (rt : Runtime) (emit : Bool) (run : RunRecord) (requestHash : String) :
    P RuntimeResponse := do
  perform (.setRunId none)
  requireScopedThread rt run.threadId
  if run.status.isActive then do
    let recovered ← recover run.id
    replayTo emit recovered requestHash
  else replayTo emit run requestHash

/-- The thread of the request: a new one, or the given one in this namespace. -/
def openThread (rt : Runtime) (request : RuntimeRequest) : P ThreadRow :=
  match request.threadId with
  | none => createThread rt.namespace_ request.userId
  | some threadId => do
    match ← getThread threadId (some rt.namespace_) with
    | some thread => pure thread
    | none => throw (threadNotFound threadId)

/-! ## The input messages -/

/-- `select_stream` over the batches of the open cursor. -/
def selectBatches (encode : Encoder) :
    List (List MessageRow) → StreamingSelection → P StreamingSelection
  | [], s => pure s
  | batch :: rest, s => do
    perform .fetch
    let s' ← lift (s.addAll encode false (batch.map MessageRow.message))
    selectBatches encode rest s'

/-- `stream_messages` consumed by `select_stream`; the cursor is closed in any case. -/
def selectStored (rt : Runtime) (window : ContextWindow) (threadId : Uuid)
    (current : List Message) : P ContextSelection := do
  requireThread threadId rt.namespace_
  let rows ← perform (.transcript threadId)
  let s ← (selectBatches rt.encode (partitions 256 rows.length rows)
    (.start window.maxBytes)).finallyDo (perform .closeCursor)
  let s' ← lift (s.addAll rt.encode true current)
  lift s'.finish

/-- The messages the invoker is given. -/
def inputMessages (rt : Runtime) (threadId : Uuid) (current : List Message) : P (List Message) :=
  match rt.streamHistory, rt.contextWindow with
  | true, some window => do
    let selection ← selectStored rt window threadId current
    pure selection.messages
  | _, none => do
    let history ← getMessages threadId rt.namespace_
    pure (history ++ current)
  | false, some window => do
    let history ← getMessages threadId rt.namespace_
    let selection ← lift (window.select rt.encode history current)
    pure selection.messages

/-! ## The invoker -/

def invocationFailed (message : String) : Exn := .kit .agentInvocation message

/-- `is_completed`. -/
def AgentStreamEvent.isCompleted : AgentStreamEvent → Option InvocationOutput
  | completed output => some output
  | _ => none

/-- The loop of `checked_stream` and the loop of `_execute` over it: each event that is not
the terminal one is emitted as it arrives; `terminal` is the withheld one. -/
def forward (emit : Bool) (ending : Option Exn) :
    List AgentStreamEvent → Option InvocationOutput → P InvocationOutput
  | [], terminal => do
    perform .pull
    match ending, terminal with
    | some e, _ => throw e
    | none, none => throw (invocationFailed "Stream ended without completion")
    | none, some output => pure output
  | event :: rest, terminal => do
    perform .pull
    match terminal, event with
    | some _, _ => throw (invocationFailed "Stream emitted an event after completion")
    | none, .completed output => forward emit ending rest (some output)
    | none, .textDelta delta => do
      emitEvent emit (.textDelta delta)
      forward emit ending rest none
    | none, .toolResult result => do
      emitEvent emit (.toolResult result)
      forward emit ending rest none

/-- `checked_stream(invoker.stream(invocation), …)` consumed: the source is closed on
every path before its terminal event is passed on. -/
def streamInvoker (emit : Bool) (messages : List Message) : P InvocationOutput := do
  let source ← perform (.openSource messages)
  (forward emit source.ending source.events none).finallyDo (perform .closeSource)

/-- The output of the invoker. -/
def invokeAgent (invoker : Invoker) (emit : Bool) (messages : List Message) :
    P InvocationOutput :=
  if emit && invoker.streaming then streamInvoker emit messages
  else perform (.awaitInvoker messages)

/-- `_final_assistant`. -/
def finalAssistant (messages : List Message) : Except Exn Message :=
  match lastAssistant messages with
  | some message => .ok message
  | none => .error (.py .valueError "Agent output must contain an assistant message")

/-! ## The whole turn -/

/-- The response of a turn. -/
def responseOf (request : RuntimeRequest) (agent : AgentDescriptor) (runId threadId : Uuid)
    (output : InvocationOutput) (assistant : Message) (traceId : Option String) :
    RuntimeResponse where
  runId := runId
  requestId := request.requestId
  threadId := threadId
  agent := agent
  message := assistant
  toolResults := output.toolResults
  usage := output.usage
  traceId := traceId
  metadata := output.metadata

/-- `_execute` from the created claim on. -/
def runClaimed (rt : Runtime) (invoker : Invoker) (request : RuntimeRequest)
    (key : Option String) (emit : Bool) (runId threadId ownerToken : Uuid) :
    P RuntimeResponse := do
  let _ ← transition runId .running ownerToken none none
  emitEvent emit (.started runId request.requestId threadId invoker.descriptor)
  let messages ← inputMessages rt threadId request.messages
  perform (.hook .beforeModel messages)
  perform (.enter runId invoker.descriptor.agentId key)
  let output ← invokeAgent invoker emit messages
  perform (.hook .afterModel output.messages)
  let assistant ← lift (finalAssistant output.messages)
  let traceId ← perform .traceId
  let response := responseOf request invoker.descriptor runId threadId output assistant traceId
  let _ ← complete runId ownerToken (request.messages ++ output.messages) response
  pure response

/-- The arguments `_execute` claims with. -/
def claimArgsOf (rt : Runtime) (invoker : Invoker) (request : RuntimeRequest)
    (key : Option String) (runId threadId ownerToken : Uuid) : ClaimArgs where
  runId := runId
  requestId := request.requestId
  agent := invoker.descriptor
  threadId := threadId
  idempotencyKey := key
  requestHash := rt.requestHash request
  ownerToken := ownerToken
  lease := some rt.lease

/-- `_execute` once the key is not known to belong to an earlier run. -/
def runFresh (rt : Runtime) (invoker : Invoker) (request : RuntimeRequest)
    (key : Option String) (emit : Bool) (ownerToken : Uuid) : P RuntimeResponse := do
  let thread ← openThread rt request
  let runId ← perform .uuid4
  -- set before claim: cancellation can arrive after the database committed it
  perform (.setRunId (some runId))
  let claimed ← claim (claimArgsOf rt invoker request key runId thread.id ownerToken)
  if claimed.created then
    runClaimed rt invoker request key emit runId thread.id ownerToken
  else replayClaimed rt emit claimed.run (rt.requestHash request)

/-- `_execute`. -/
def execute (rt : Runtime) (agentId : String) (request : RuntimeRequest) (key : Option String)
    (emit : Bool) (ownerToken : Uuid) : P RuntimeResponse := do
  let invoker ← lift (rt.agent agentId)
  match key with
  | none => runFresh rt invoker request key emit ownerToken
  | some k => do
    match ← getByIdempotency agentId k with
    | some previous => replayPrevious rt emit previous (rt.requestHash request)
    | none => runFresh rt invoker request key emit ownerToken

end AgentRuntimeKit
