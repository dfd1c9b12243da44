import AgentRuntimeKit.Runtime.Execute

/-!
# Deadline, reconciliation and the stream

The rest of `runtime.py`: `_invoke_with_deadline` puts `_execute` under one deadline
and reconciles its failures with the durable row; `_settle_failure` is the shielded
clean-up; `produce` is the producer task of `stream`.
-/

namespace AgentRuntimeKit

open Lib Prog

/-- `async with asyncio.timeout(…)`: a cancellation that the deadline alone requested
becomes a `TimeoutError`. The flag is `budget.expired()` afterwards. -/
def timeoutScope {α : Type} (body : P α) : P (Except Exn α × Bool) := do
  perform .arm
  let r ← body.attempt
  perform .disarm
  match r with
  | .error (.cancelled true) => pure (.error .timeout, true)
  | r => do
    let expired ← perform .expired
    pure (r, expired)

/-- `_settle_failure`. Both `None` results of the source are kept apart here. -/
def settleFailure (runId ownerToken : Uuid) (errorCode : String) (status : RunStatus) :
    P SettleOutcome := do
  let r ← timeoutScope (failIfRunning runId ownerToken errorCode status)
  match r.1 with
  | .ok record => pure (.settled record)
  -- claim may have been cancelled before its transaction committed
  | .error (.kit .runNotFound _) => pure .notFound
  | .error e => if e.isException then pure .unavailable else throw e

/-- The clean-up task. Nobody cancels it: its handle stays inside `_record_failure`. -/
def cleanupTask (runId ownerToken : Uuid) (errorCode : String) (status : RunStatus) :
    P Answer := do
  let outcome ← settleFailure runId ownerToken errorCode status
  perform (.finish outcome)
  pure .nothing

/-- `_record_failure`: `asyncio.shield` waits for the clean-up task, and a cancellation
of the wait leaves the task running. -/
def recordFailure (runId ownerToken : Uuid) (errorCode : String) (status : RunStatus)
    (timeout : Time) : P (Option RunRecord) := do
  let cleanup ← perform (.spawnCleanup runId ownerToken errorCode status timeout)
  perform (.awaitCleanup cleanup)

/-- The error that `_invoke_with_deadline` raises for `exc`. -/
def raisedFor (exc : Exn) (expired : Bool) : Exn :=
  if exc = .timeout ∧ expired = true then
    .kit .invocationTimeout "Runtime invocation deadline exceeded"
  else exc

/-- `"blocked" if isinstance(error, GuardrailBlockedError) else "failed"`. -/
def failureStatus : Exn → RunStatus
  | .kit .guardrailBlocked _ => .blocked
  | _ => .failed

/-- `record.response` of a record that has succeeded. -/
def durableResponse : Option RunRecord → Option RuntimeResponse
  | some record => if record.status = .succeeded then record.response else none
  | none => none

/-- What `_invoke_with_deadline` does with a failure of `_execute`. -/
def reconcile (rt : Runtime) (ownerToken : Uuid) (exc : Exn) (expired : Bool) :
    P RuntimeResponse := do
  let runId ← perform .getRunId
  match exc, runId with
  | .cancelled _, none => throw exc
  | .cancelled _, some runId => do
    let _ ← recordFailure runId ownerToken "invocation_cancelled" .failed rt.cleanupTimeout
    throw exc
  | exc, none => throw (raisedFor exc expired)
  | exc, some runId => do
    let error := raisedFor exc expired
    let record ← recordFailure runId ownerToken error.errorCode (failureStatus error)
      rt.cleanupTimeout
    match durableResponse record with
    | some response => pure response
    | none => throw error

/-- `_invoke_with_deadline`. -/
def invokeWithDeadline (rt : Runtime) (agentId : String) (request : RuntimeRequest)
    (key : Option String) (emit : Bool) : P RuntimeResponse := do
  let ownerToken ← perform .uuid4
  let r ← timeoutScope (execute rt agentId request key emit ownerToken)
  match r.1 with
  | .ok response => pure response
  | .error exc => reconcile rt ownerToken exc r.2

/-- `_invoke`. -/
def invokeTracked (rt : Runtime) (agentId : String) (request : RuntimeRequest)
    (key : Option String) (emit : Bool) : P RuntimeResponse := do
  if ← perform (.isClosing rt.worker) then
    throw (.kit .runtimeClosing "Runtime is shutting down")
  else invokeWithDeadline rt agentId request key emit

/-- `produce`. -/
def produce (rt : Runtime) (agentId : String) (request : RuntimeRequest) (key : Option String) :
    P Answer := do
  tryCatch
    (do
      let response ← invokeTracked rt agentId request key true
      perform (.put (.event (.completed response))))
    fun exc =>
      if exc.isException then perform (.put (.failure exc)) else throw exc
  -- cancellation must not wait for space in an abandoned consumer's queue
  perform (.put .sentinel)
  pure .nothing

/-- The program of a task. -/
def Task.program : Task → P Answer
  | .invoke rt agentId request key =>
    Answer.response <$> invokeTracked rt agentId request key false
  | .stream rt agentId request key => produce rt agentId request key
  | .call c => c.program

end AgentRuntimeKit
