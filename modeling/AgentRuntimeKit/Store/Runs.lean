import AgentRuntimeKit.Store.Memory

/-!
# The run store

`PostgresRunStore` (`runs/postgres.py`): durable runs, fenced ownership, and thread
arbitration. Each method is the program of its statements, in order. A helper of the
source that changes a row in place and reports whether it did is a function into
`Option` here.
-/

namespace AgentRuntimeKit

open Lib Prog

def runNotFound (runId : Uuid) : Exn :=
  .kit .runNotFound s!"Run '{runId.text}' does not exist"

def ownershipLost : Exn :=
  .kit .runOwnershipLost "Run owner is invalid or its lease has expired"

def threadBusy : Exn :=
  .kit .threadBusy "Another request owns this conversation thread"

def idempotencyConflict : Exn :=
  .kit .idempotencyConflict "Idempotency key was already used with a different request"

def invalidTransition (message : String) : Exn := .kit .invalidRunTransition message

/-- `_lock_thread`. -/
def lockThread (threadId : Uuid) : P Unit := do
  match ← perform (.lockThread threadId none) with
  | some _ => pure ()
  | none => throw (threadNotFound threadId)

/-- `_lock_run`: every mutation uses the same thread → run lock order. -/
def lockRun (runId : Uuid) : P RunRow := do
  match ← perform (.threadOf runId) with
  | none => throw (runNotFound runId)
  | some threadId => do
    lockThread threadId
    let rows ← perform (.lockRun runId)
    lift (scalarOne rows)

/-- `_expire`, when it applies. -/
def expire (row : RunRow) (now : Time) : Option RunRow :=
  if row.status.isActive && Db.leaseExpired row now then
    some { row with
      status := .failed
      errorCode := some "owner_lease_expired"
      completedAt := some now
      response := none }
  else none

/-- The condition of `_check_owner` under which a call may go on. -/
def ownedBy (row : RunRow) (ownerToken : Uuid) (now : Time) : Bool :=
  row.ownerToken = some ownerToken &&
    (!row.status.isActive || (row.leaseExpiresAt.isSome && !Db.leaseExpired row now))

/-- `_check_owner`. -/
def checkOwner (row : RunRow) (ownerToken : Uuid) (now : Time) : Except Exn Unit :=
  if ownedBy row ownerToken now then .ok () else .error ownershipLost

/-- `_check_hash`. -/
def checkHash (row : RunRow) (requestHash : String) : Except Exn Unit :=
  if row.requestHash = some requestHash then .ok () else .error idempotencyConflict

/-! ## `claim` -/

/-- The values of the `INSERT`. `started_at` is the server's default. -/
def claimRow (args : ClaimArgs) (lease now : Time) : RunRow where
  id := args.runId
  requestId := args.requestId
  agentId := args.agent.agentId
  agentVersion := args.agent.version
  framework := args.agent.framework
  threadId := args.threadId
  idempotencyKey := args.idempotencyKey
  requestHash := some args.requestHash
  status := .accepted
  response := none
  errorCode := none
  startedAt := 0
  completedAt := none
  ownerToken := some args.ownerToken
  leaseExpiresAt := some (now + lease)

/-- `claim` from the `INSERT` on. -/
def insertClaim (args : ClaimArgs) (lease now : Time) : P RunClaim := do
  match ← perform (.insertRun (claimRow args lease now) args.idempotencyKey.isSome) with
  | some row => pure ⟨row, true⟩
  | none => do
    let rows ← perform (.runsByKey args.agent.agentId args.idempotencyKey)
    let existing ← lift (scalarOne rows)
    lift (checkHash existing args.requestHash)
    pure ⟨existing, false⟩

/-- `claim` once the key is known to be free: the active slot of the thread. -/
def claimSlot (args : ClaimArgs) (lease : Time) : P RunClaim := do
  let rows ← perform (.lockActiveRuns args.threadId)
  let active ← lift (scalarOneOrNone rows)
  let now ← perform .now
  match active with
  | none => insertClaim args lease now
  | some row =>
    match expire row now with
    | none => throw threadBusy
    | some expired => do
      perform (.updateRun expired)
      insertClaim args lease now

/-- The transaction of `claim`. -/
def claimIn (args : ClaimArgs) (lease : Time) : P RunClaim := do
  lockThread args.threadId
  match args.idempotencyKey with
  | none => claimSlot args lease
  | some key => do
    let rows ← perform (.runsByKey args.agent.agentId (some key))
    match ← lift (scalarOneOrNone rows) with
    | some existing => do
      -- the key may belong to another thread: recovery must lock that thread first
      lift (checkHash existing args.requestHash)
      pure ⟨existing, false⟩
    | none => claimSlot args lease

def claim (args : ClaimArgs) : P RunClaim :=
  match args.lease with
  | none => throw (.py .valueError "lease_seconds must be finite and positive")
  | some lease => inTransaction (.claim args) (claimIn args lease)

/-! ## `transition` -/

/-- The row that `transition` writes. -/
def transitioned (row : RunRow) (status : RunStatus) (errorCode : Option String) (now : Time) :
    RunRow :=
  { row with
    status := status
    errorCode := errorCode
    completedAt :=
      if status = .failed ∨ status = .blocked then some now else row.completedAt }

/-- The checks of `transition` on the locked row. -/
def checkTransition (row : RunRow) (status : RunStatus) (response : Option RuntimeResponse) :
    Except Exn Unit :=
  if status ∉ transitions row.status then
    .error (invalidTransition
      s!"Run cannot transition from '{row.status.value}' to '{status.value}'")
  else if response.isSome then
    .error (invalidTransition "Only a succeeded run may store a response")
  else .ok ()

def transitionIn (runId : Uuid) (status : RunStatus) (ownerToken : Uuid)
    (response : Option RuntimeResponse) (errorCode : Option String) : P RunRecord := do
  let row ← lockRun runId
  let now ← perform .now
  lift (checkOwner row ownerToken now)
  lift (checkTransition row status response)
  perform (.updateRun (transitioned row status errorCode now))
  pure (transitioned row status errorCode now)

def transition (runId : Uuid) (status : RunStatus) (ownerToken : Uuid)
    (response : Option RuntimeResponse) (errorCode : Option String) : P RunRecord :=
  if status = .succeeded then
    throw (invalidTransition "Successful runs must be finalized with complete()")
  else
    inTransaction (.transition runId status ownerToken response errorCode)
      (transitionIn runId status ownerToken response errorCode)

/-! ## `complete` -/

/-- `next((m for m in reversed(messages) if m.role == "assistant"), None)`. -/
def lastAssistant (messages : List Message) : Option Message :=
  messages.reverse.find? fun m => m.role = .assistant

/-- `assistant == response.message`. -/
def matchesResponse (messages : List Message) (response : RuntimeResponse) : Bool :=
  match lastAssistant messages with
  | some assistant => assistant.eq response.message
  | none => false

/-- The checks of `complete` on the locked row, after the owner check. -/
def checkCompletion (row : RunRow) (messages : List Message) (response : RuntimeResponse) :
    Except Exn Unit :=
  if row.status ≠ .running then
    .error (invalidTransition "Only a running run can be completed")
  else if response.runId ≠ row.id ∨ response.requestId ≠ row.requestId ∨
      response.threadId ≠ row.threadId ∨ response.agent.agentId ≠ row.agentId ∨
      response.agent.version ≠ row.agentVersion ∨ response.agent.framework ≠ row.framework then
    .error (invalidTransition "Completion response does not belong to the run")
  else if !matchesResponse messages response then
    .error (invalidTransition "Completion message does not match the response")
  else .ok ()

/-- The row that `complete` writes. -/
def completed (row : RunRow) (response : RuntimeResponse) (now : Time) : RunRow :=
  { row with
    status := .succeeded
    response := some response.jsonForm
    errorCode := none
    completedAt := some now }

def completeIn (runId ownerToken : Uuid) (messages : List Message) (response : RuntimeResponse) :
    P RunRecord := do
  let row ← lockRun runId
  let before ← perform .now
  lift (checkOwner row ownerToken before)
  lift (checkCompletion row messages response)
  let _ ← appendMessageBatch row.threadId messages none
  -- message writes may block: check again at the final persistence boundary
  let now ← perform .now
  lift (checkOwner row ownerToken now)
  perform (.updateRun (completed row response now))
  pure (completed row response now)

def complete (runId ownerToken : Uuid) (messages : List Message) (response : RuntimeResponse) :
    P RunRecord :=
  inTransaction (.complete runId ownerToken messages response)
    (completeIn runId ownerToken messages response)

/-! ## Clean-up and recovery -/

/-- The row that `fail_if_running` writes for an active run. -/
def settled (row : RunRow) (status : RunStatus) (errorCode : String) (now : Time) : RunRow :=
  { row with
    status := status
    errorCode := some errorCode
    completedAt := some now
    response := none }

def failIfRunningIn (runId ownerToken : Uuid) (errorCode : String) (status : RunStatus) :
    P RunRecord := do
  let row ← lockRun runId
  if row.ownerToken ≠ some ownerToken then
    throw (.kit .runOwnershipLost "Run owner token does not match")
  else do
    let now ← perform .now
    if row.status.isActive then
      match expire row now with
      | some expired => do
        perform (.updateRun expired)
        pure expired
      | none => do
        perform (.updateRun (settled row status errorCode now))
        pure (settled row status errorCode now)
    else pure row

def failIfRunning (runId ownerToken : Uuid) (errorCode : String) (status : RunStatus) :
    P RunRecord :=
  if status ≠ .failed ∧ status ≠ .blocked then
    throw (invalidTransition "Cleanup status must be failed or blocked")
  else
    inTransaction (.failIfRunning runId ownerToken errorCode status)
      (failIfRunningIn runId ownerToken errorCode status)

def recoverIn (runId : Uuid) : P RunRecord := do
  let row ← lockRun runId
  let now ← perform .now
  match expire row now with
  | some expired => do
    perform (.updateRun expired)
    pure expired
  | none => pure row

def recover (runId : Uuid) : P RunRecord := inTransaction (.recover runId) (recoverIn runId)

/-- One turn of the loop of `recover_expired`. -/
def recoverOne (runId : Uuid) : P (Option RunRecord) := do
  match ← perform (.threadOf runId) with
  | none => pure none
  | some threadId => do
    match ← perform (.tryLockThread threadId) with
    | none => pure none
    | some _ => do
      let rows ← perform (.lockRun runId)
      let row ← lift (scalarOne rows)
      let now ← perform .now
      match expire row now with
      | some expired => do
        perform (.updateRun expired)
        pure (some expired)
      | none => pure none

/-- `for run_id in ids`. -/
def recoverEach (limit : Int) : List Uuid → P (List RunRecord)
  | [] => pure []
  | runId :: rest => do
    let recovered ← inTransaction (.recoverExpired limit) (recoverOne runId)
    let others ← recoverEach limit rest
    pure (recovered.toList ++ others)

def recoverExpired (limit : Int) : P (List RunRecord) :=
  if 1 ≤ limit ∧ limit ≤ 1000 then do
    let ids ← perform (.expiredRuns limit.toNat)
    recoverEach limit ids
  else throw (.py .valueError "limit must be between 1 and 1000")

/-- `get_by_idempotency`. -/
def getByIdempotency (agentId key : String) : P (Option RunRecord) := do
  let rows ← perform (.runsByKey agentId (some key))
  lift (scalarOneOrNone rows)

/-! ## Store calls as tasks -/

/-- What a task returns. -/
inductive Answer
  | response (response : RuntimeResponse)
  | claim (claim : RunClaim)
  | record (record : RunRecord)
  | records (records : List RunRecord)
  | stored (rows : List MessageRow)
  | thread (row : ThreadRow)
  | nothing

def Call.program : Call → P Answer
  | .claim args => Answer.claim <$> AgentRuntimeKit.claim args
  | .transition runId status ownerToken response errorCode =>
    Answer.record <$> AgentRuntimeKit.transition runId status ownerToken response errorCode
  | .complete runId ownerToken messages response =>
    Answer.record <$> AgentRuntimeKit.complete runId ownerToken messages response
  | .failIfRunning runId ownerToken errorCode status =>
    Answer.record <$> AgentRuntimeKit.failIfRunning runId ownerToken errorCode status
  | .recover runId => Answer.record <$> AgentRuntimeKit.recover runId
  | .recoverExpired limit => Answer.records <$> AgentRuntimeKit.recoverExpired limit
  | .appendMessages threadId messages namespace_ =>
    Answer.stored <$> AgentRuntimeKit.appendMessages threadId messages namespace_
  | .createThread namespace_ userKey =>
    Answer.thread <$> AgentRuntimeKit.createThread namespace_ userKey

end AgentRuntimeKit
