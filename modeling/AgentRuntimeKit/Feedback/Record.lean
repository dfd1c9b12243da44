import AgentRuntimeKit.Lib.UuidText
import AgentRuntimeKit.Store.Memory
import Mathlib.Data.List.Sort

/-!
# The feedback store

`PostgresFeedbackStore` (`feedback/postgres.py`): append-only feedback on the artifacts of
succeeded runs. `record` is the program of its statements, in order; `search` is one statement.

* A `FeedbackRow` is a row of `feedback_records`. `_model` copies every column, so a
  `FeedbackRecord` is the row it was read from.
* `payloadHash` is `_payload_hash`: the SHA-256 of the JSON document of a submission.
* The column `response` of a run was read back by `_model` in the transaction that wrote it, so
  that `RuntimeResponse.model_validate` accepts it here.
-/

namespace AgentRuntimeKit.Feedback

open Lib Prog

inductive FeedbackTarget
  | run
  | message
  | toolResult
deriving DecidableEq, Repr

inductive FeedbackSource
  | user
  | reviewer
  | system
deriving DecidableEq, Repr

inductive FeedbackType
  | thumb
  | rating
  | correction
  | comment
  | label
deriving DecidableEq, Repr

/-- `FeedbackSubmission`. A copy made with `model_copy` has not been validated, so nothing is
known of the fields. -/
structure FeedbackSubmission where
  feedbackId : Uuid
  idempotencyKey : String
  runId : Uuid
  targetType : FeedbackTarget
  targetId : PyStr
  source : FeedbackSource
  feedbackType : FeedbackType
  value : PyValue
  comment : Option String
  labels : List String
  metadata : Metadata
  supersedesFeedbackId : Option Uuid
  eventAt : Option Time

/-- A row of `feedback_records`. -/
structure FeedbackRow where
  id : Uuid
  idempotencyKey : String
  payloadHash : String
  runId : Uuid
  targetType : FeedbackTarget
  targetId : PyStr
  source : FeedbackSource
  feedbackType : FeedbackType
  value : PyValue
  comment : Option String
  labels : List String
  metadata : Metadata
  supersedesFeedbackId : Option Uuid
  eventAt : Option Time
  createdAt : Time

/-- `FeedbackRecord`. -/
abbrev FeedbackRecord := FeedbackRow

/-- The values of the `INSERT`. `created_at` is the server's default. -/
def FeedbackSubmission.row (submission : FeedbackSubmission) (payloadHash : String) :
    FeedbackRow where
  id := submission.feedbackId
  idempotencyKey := submission.idempotencyKey
  payloadHash := payloadHash
  runId := submission.runId
  targetType := submission.targetType
  targetId := submission.targetId
  source := submission.source
  feedbackType := submission.feedbackType
  value := submission.value
  comment := submission.comment
  labels := submission.labels
  metadata := submission.metadata
  supersedesFeedbackId := submission.supersedesFeedbackId
  eventAt := submission.eventAt
  createdAt := 0

-- ---------------------------------------------------------------------------
-- Statements
-- ---------------------------------------------------------------------------

/-- The statements of `record`. -/
inductive Op
  | begin
  /-- `SELECT … WHERE idempotency_key = …`. -/
  | byKey (key : String)
  /-- `SELECT … FROM runtime_runs WHERE id = …`. -/
  | run (runId : Uuid)
  /-- `SELECT … WHERE id = …`. -/
  | byId (id : Uuid)
  /-- `INSERT … ON CONFLICT (idempotency_key) DO NOTHING RETURNING …`. -/
  | insert (row : FeedbackRow)
  | commit
  | rollback

/-- What a statement answers. -/
@[reducible] def Res : Op → Type
  | .begin | .commit | .rollback => Unit
  | .byKey _ | .byId _ => List FeedbackRow
  | .run _ => List RunRow
  | .insert _ => Option FeedbackRow

abbrev P (α : Type) := Prog Op Res Exn α

def perform (o : Op) : P (Res o) := Prog.perform o

/-- `async with self._sessions.begin() as session`. -/
def inTransaction {α : Type} (body : P α) : P α := do
  perform .begin
  match ← body.attempt with
  | .ok a => do
    perform .commit
    pure a
  | .error e => do
    perform .rollback
    throw e

-- ---------------------------------------------------------------------------
-- `record`
-- ---------------------------------------------------------------------------

def idempotencyConflict : Exn :=
  .kit .idempotencyConflict "Feedback idempotency key was used with a different payload"

def invalidTarget (message : String) : Exn := .kit .invalidFeedbackTarget message

/-- Whether the target of a submission or of a row is part of the run. -/
def isTarget (targetType : FeedbackTarget) (targetId : PyStr) (run : RunRow)
    (response : RuntimeResponse) : Bool :=
  match targetType with
  | .run => targetId = uuidText run.id
  | .message => targetId = uuidText response.message.id
  | .toolResult => response.toolResults.any fun item => targetId = uuidText item.id

/-- `_validate_target`. -/
def validateTarget (run : Option RunRow) (submission : FeedbackSubmission) : Except Exn Unit :=
  match run with
  | none => .error (invalidTarget "Feedback requires a completed successful run")
  | some run =>
    match run.status, run.response with
    | .succeeded, some response =>
      if isTarget submission.targetType submission.targetId run response then .ok ()
      else .error (invalidTarget "Feedback target does not belong to the run")
    | _, _ => .error (invalidTarget "Feedback requires a completed successful run")

/-- The check of the superseded row. -/
def checkSuperseded (superseded : Option FeedbackRow) (submission : FeedbackSubmission) :
    Except Exn Unit :=
  match superseded with
  | some row =>
    if row.runId = submission.runId ∧ row.targetType = submission.targetType ∧
        row.targetId = submission.targetId then .ok ()
    else .error (invalidTarget "Superseded feedback must exist and reference the same target")
  | none =>
    .error (invalidTarget "Superseded feedback must exist and reference the same target")

/-- What a submission gets whose key is in use. -/
def replay (existing : FeedbackRow) (payloadHash : String) : Except Exn FeedbackRecord :=
  if existing.payloadHash = payloadHash then .ok existing else .error idempotencyConflict

/-- `_record` from the `INSERT` on. -/
def insertRow (submission : FeedbackSubmission) (payloadHash : String) : P FeedbackRecord := do
  match ← perform (.insert (submission.row payloadHash)) with
  | some row => pure row
  | none => do
    let rows ← perform (.byKey submission.idempotencyKey)
    let existing ← lift (scalarOne rows)
    lift (replay existing payloadHash)

/-- `_record` once the key is known to be free. -/
def recordNew (submission : FeedbackSubmission) (payloadHash : String) : P FeedbackRecord := do
  let runs ← perform (.run submission.runId)
  let run ← lift (scalarOneOrNone runs)
  lift (validateTarget run submission)
  match submission.supersedesFeedbackId with
  | none => insertRow submission payloadHash
  | some id => do
    let rows ← perform (.byId id)
    let superseded ← lift (scalarOneOrNone rows)
    lift (checkSuperseded superseded submission)
    insertRow submission payloadHash

/-- The transaction of `_record`. -/
def recordIn (submission : FeedbackSubmission) (payloadHash : String) : P FeedbackRecord := do
  let rows ← perform (.byKey submission.idempotencyKey)
  match ← lift (scalarOneOrNone rows) with
  | some existing => lift (replay existing payloadHash)
  | none => recordNew submission payloadHash

/-- `record`. -/
def record (payloadHash : FeedbackSubmission → String) (submission : FeedbackSubmission) :
    P FeedbackRecord :=
  inTransaction (recordIn submission (payloadHash submission))

-- ---------------------------------------------------------------------------
-- `search`
-- ---------------------------------------------------------------------------

/-- The filters of `search`. -/
structure Filters where
  runId : Option Uuid
  targetType : Option FeedbackTarget
  targetId : Option PyStr
  source : Option FeedbackSource
  feedbackType : Option FeedbackType
  createdFrom : Option Time
  createdTo : Option Time

/-- The conditions of the `WHERE` clause. -/
def Filters.matches (f : Filters) (row : FeedbackRow) : Bool :=
  f.runId.all (row.runId = ·) && f.targetType.all (row.targetType = ·) &&
    f.targetId.all (row.targetId = ·) && f.source.all (row.source = ·) &&
    f.feedbackType.all (row.feedbackType = ·) && f.createdFrom.all (· ≤ row.createdAt) &&
    f.createdTo.all (row.createdAt < ·)

/-- `ORDER BY created_at, id`. -/
def FeedbackRow.le (a b : FeedbackRow) : Bool :=
  a.createdAt < b.createdAt || (a.createdAt = b.createdAt && a.id.toNat ≤ b.id.toNat)

/-- The rows of `SELECT … WHERE … ORDER BY …`. -/
def Filters.select (f : Filters) (rows : List FeedbackRow) : List FeedbackRow :=
  (rows.filter f.matches).insertionSort fun a b => a.le b = true

/-- `FeedbackPage`. -/
structure FeedbackPage where
  items : List FeedbackRecord
  nextOffset : Option Int

/-- `search`, on the rows that its statement sees. -/
def search (rows : List FeedbackRow) (f : Filters) (limit offset : Int) :
    Except Exn FeedbackPage :=
  if ¬(1 ≤ limit ∧ limit ≤ 100) then
    .error (.py .valueError "limit must be between 1 and 100")
  else if offset < 0 then .error (.py .valueError "offset must not be negative")
  else
    let found := ((f.select rows).drop offset.toNat).take (limit.toNat + 1)
    let hasMore := limit.toNat < found.length
    .ok ⟨found.take limit.toNat, if hasMore then some (offset + limit) else none⟩

end AgentRuntimeKit.Feedback
