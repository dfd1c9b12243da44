import AgentRuntimeKit.Model.Messages

/-!
# The tables

Rows of `agent_threads`, `agent_messages` and `runtime_runs` (`memory/tables.py`,
schema revision 0002) as far as the modelled code reads and writes them, the
queries of the stores, and the writes a transaction buffers until it commits.

* Times are database times in microseconds; `timedelta` is a number of these.
* `RunRow.response` holds the decoded JSONB column: a row is written with
  `RuntimeResponse.jsonForm`, what `model_dump(mode="json")` keeps.
* The unique indexes are `RunRow.keys`: two rows of the table may not share one.
-/

namespace AgentRuntimeKit

open Lib

abbrev Time := Nat

inductive RunStatus
  | accepted
  | running
  | succeeded
  | failed
  | blocked
deriving DecidableEq, Repr

/-- `status in _ACTIVE`. -/
def RunStatus.isActive : RunStatus → Bool
  | accepted | running => true
  | _ => false

/-- `_TRANSITIONS`. -/
def transitions : RunStatus → List RunStatus
  | .accepted => [.running]
  | .running => [.failed, .blocked]
  | .succeeded => []
  | .failed => []
  | .blocked => []

/-- The value of a status, as it stands in messages. -/
def RunStatus.value : RunStatus → String
  | accepted => "accepted"
  | running => "running"
  | succeeded => "succeeded"
  | failed => "failed"
  | blocked => "blocked"

/-- A row of `agent_threads`. -/
structure ThreadRow where
  id : Uuid
  namespace_ : String
  userKey : Option String
deriving DecidableEq, Repr

/-- A row of `agent_messages`: the message is its `id`, `role` and `content`. -/
structure MessageRow where
  threadId : Uuid
  sequence : Nat
  message : Message

/-- A row of `runtime_runs`. -/
structure RunRow where
  id : Uuid
  requestId : Uuid
  agentId : String
  agentVersion : String
  framework : Framework
  threadId : Uuid
  idempotencyKey : Option String
  requestHash : Option String
  status : RunStatus
  response : Option RuntimeResponse
  errorCode : Option String
  startedAt : Time
  completedAt : Option Time
  ownerToken : Option Uuid
  leaseExpiresAt : Option Time

/-- `RunRecord`. `_model` copies every column, so a record is the row it was read from. -/
abbrev RunRecord := RunRow

/-- `RunClaim`. -/
structure RunClaim where
  run : RunRecord
  created : Bool

/-- What the unique indexes of the three tables forbid twice. -/
inductive UniqueKey
  | thread (id : Uuid)
  | message (id : Uuid)
  | run (id : Uuid)
  | request (id : Uuid)
  | idempotency (agentId key : String)
  | activeThread (id : Uuid)
deriving DecidableEq, Repr

/-- `runtime_runs_pkey`, the unique `request_id`, `uq_runtime_runs_agent_idempotency`
and `uq_runtime_runs_active_thread`. -/
def RunRow.keys (row : RunRow) : List UniqueKey :=
  [.run row.id, .request row.requestId] ++
    (match row.idempotencyKey with
      | some key => [.idempotency row.agentId key]
      | none => []) ++
    (if row.status.isActive then [.activeThread row.threadId] else [])

structure Db where
  threads : List ThreadRow
  runs : List RunRow
  messages : List MessageRow

/-- The empty schema. -/
def Db.empty : Db := ⟨[], [], []⟩

/-- One statement that writes. -/
inductive Write
  | updateRun (row : RunRow)
  | insertRun (row : RunRow)
  | insertThread (row : ThreadRow)
  | insertMessages (rows : List MessageRow)

/-- `UPDATE runtime_runs SET … WHERE id = …`. -/
def updateRun (row : RunRow) (runs : List RunRow) : List RunRow :=
  runs.map fun r => if r.id = row.id then row else r

def Write.apply (db : Db) : Write → Db
  | updateRun row => { db with runs := AgentRuntimeKit.updateRun row db.runs }
  | insertRun row => { db with runs := db.runs ++ [row] }
  | insertThread row => { db with threads := db.threads ++ [row] }
  | insertMessages rows => { db with messages := db.messages ++ rows }

/-- The database as a transaction with these writes sees it, and as it is after its commit. -/
def Db.after (db : Db) (writes : List Write) : Db := writes.foldl Write.apply db

namespace Db

variable (db : Db)

def keys : List UniqueKey :=
  db.threads.map (fun row => .thread row.id) ++ db.runs.flatMap RunRow.keys ++
    db.messages.map fun row => .message row.message.id

/-- `SELECT … FROM agent_threads WHERE id = … [AND namespace = …]`. -/
def thread? (id : Uuid) (namespace_ : Option String) : Option ThreadRow :=
  db.threads.find? fun row =>
    row.id = id && (match namespace_ with
      | some name => row.namespace_ = name
      | none => true)

/-- `SELECT … FROM runtime_runs WHERE id = …`. -/
def run? (id : Uuid) : Option RunRow := db.runs.find? fun row => row.id = id

/-- `SELECT … WHERE agent_id = … AND idempotency_key = …`. A missing key compares with
`IS NULL`. -/
def runsByKey (agentId : String) (key : Option String) : List RunRow :=
  db.runs.filter fun row => row.agentId = agentId && row.idempotencyKey = key

/-- `SELECT … WHERE thread_id = … AND status IN _ACTIVE`. -/
def activeRuns (threadId : Uuid) : List RunRow :=
  db.runs.filter fun row => row.threadId = threadId && row.status.isActive

/-- `lease_expires_at <= …` on a column that may be null. -/
def leaseExpired (row : RunRow) (now : Time) : Bool :=
  match row.leaseExpiresAt with
  | some lease => lease ≤ now
  | none => false

/-- The select of `recover_expired`. -/
def expiredRuns (now : Time) (limit : Nat) : List Uuid :=
  (((db.runs.filter fun row => row.status.isActive && leaseExpired row now).mergeSort fun a b =>
      let x := a.leaseExpiresAt.getD 0
      let y := b.leaseExpiresAt.getD 0
      x < y || (x = y && a.id.toNat ≤ b.id.toNat)).map RunRow.id).take limit

/-- The messages of a thread, in table order. -/
def messagesOf (threadId : Uuid) : List MessageRow :=
  db.messages.filter fun row => row.threadId = threadId

/-- `… WHERE thread_id = … ORDER BY sequence`. -/
def transcript (threadId : Uuid) : List MessageRow :=
  (db.messagesOf threadId).mergeSort fun a b => a.sequence ≤ b.sequence

/-- `coalesce(max(sequence), 0) … WHERE thread_id = …`. -/
def lastSequence (threadId : Uuid) : Nat :=
  ((db.messagesOf threadId).map MessageRow.sequence).foldr max 0

end Db

/-- `Result.scalar_one_or_none`. -/
def scalarOneOrNone {α : Type} : List α → Except Exn (Option α)
  | [] => .ok none
  | [x] => .ok (some x)
  | _ => .error (.py .multipleResultsFound
      "Multiple rows were found when one or none was required")

/-- `Result.scalar_one`. -/
def scalarOne {α : Type} : List α → Except Exn α
  | [] => .error (.py .noResultFound "No row was found when one was required")
  | [x] => .ok x
  | _ => .error (.py .multipleResultsFound
      "Multiple rows were found when exactly one was required")

/-! ## Small lemmas -/

@[simp] theorem Db.after_nil (db : Db) : db.after [] = db := rfl

@[simp] theorem Db.after_cons (db : Db) (x : Write) (rest : List Write) :
    db.after (x :: rest) = (x.apply db).after rest := rfl

theorem Db.after_append (db : Db) (xs ys : List Write) :
    db.after (xs ++ ys) = (db.after xs).after ys := by
  simp [Db.after]

theorem mem_updateRun {row r : RunRow} {runs : List RunRow} :
    r ∈ updateRun row runs ↔
      (r = row ∧ ∃ old ∈ runs, old.id = row.id) ∨ (r ∈ runs ∧ r.id ≠ row.id) := by
  rw [updateRun, List.mem_map]
  constructor
  · rintro ⟨old, hold, h⟩
    by_cases hid : old.id = row.id
    · rw [if_pos hid] at h
      exact Or.inl ⟨h.symm, old, hold, hid⟩
    · rw [if_neg hid] at h
      exact Or.inr ⟨h ▸ hold, h ▸ hid⟩
  · rintro (⟨rfl, old, hold, hid⟩ | ⟨hr, hid⟩)
    · exact ⟨old, hold, if_pos hid⟩
    · exact ⟨r, hr, if_neg hid⟩

theorem Db.mem_activeRuns {db : Db} {t : Uuid} {r : RunRow} :
    r ∈ db.activeRuns t ↔ r ∈ db.runs ∧ r.threadId = t ∧ r.status.isActive = true := by
  simp [Db.activeRuns]

theorem Db.mem_runsByKey {db : Db} {a : String} {k : Option String} {r : RunRow} :
    r ∈ db.runsByKey a k ↔ r ∈ db.runs ∧ r.agentId = a ∧ r.idempotencyKey = k := by
  simp [Db.runsByKey]

theorem Db.mem_messagesOf {db : Db} {t : Uuid} {m : MessageRow} :
    m ∈ db.messagesOf t ↔ m ∈ db.messages ∧ m.threadId = t := by
  simp [Db.messagesOf]

theorem Db.run?_mem {db : Db} {id : Uuid} {r : RunRow} (h : db.run? id = some r) :
    r ∈ db.runs ∧ r.id = id := by
  unfold Db.run? at h
  exact ⟨List.mem_of_find?_eq_some h, by simpa using List.find?_some h⟩

theorem Db.run?_none {db : Db} {id : Uuid} (h : db.run? id = none) :
    ∀ r ∈ db.runs, r.id ≠ id := by
  unfold Db.run? at h
  simpa using h

theorem scalarOneOrNone_some {α : Type} {xs : List α} {x : α}
    (h : scalarOneOrNone xs = .ok (some x)) : xs = [x] := by
  match xs, h with
  | [y], h => simpa [scalarOneOrNone] using h
  | [], h => simp [scalarOneOrNone] at h
  | _ :: _ :: _, h => simp [scalarOneOrNone] at h

end AgentRuntimeKit
