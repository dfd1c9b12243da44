import AgentRuntimeKit.Protocol.Moves

/-!
# The invariant and the steps of others

`Staged w p σ` says that the open transaction `σ` of `p` may commit: it has flushed a
complete set of writes of its call, it holds the locks under which it read what they
depend on, and its inserts meet nobody else's. `Inv` is the invariant of the world;
`Other p` is what one step of anybody but `p` may do.

With `priv` only the runtime itself writes runs: nobody passes a run identifier or an
owner token of its own to the store.
-/

namespace AgentRuntimeKit

open Lib

-- ---------------------------------------------------------------------------
-- The log
-- ---------------------------------------------------------------------------

/-- The messages a call stores in thread `t`. -/
def Call.batchOn (t : Uuid) : Call → List Message
  | .complete _ _ messages response => if response.threadId = t then messages else []
  | .appendMessages t' messages _ => if t' = t then messages else []
  | _ => []

/-- The run that a call completes. -/
def Call.completes : Call → Option Uuid
  | .complete runId _ _ _ => some runId
  | _ => none

/-- The one run that a call may change. -/
def Call.target : Call → Option Uuid
  | .transition runId _ _ _ _ | .complete runId _ _ _ | .failIfRunning runId _ _ _
  | .recover runId => some runId
  | _ => none

def Call.isTransition : Call → Bool
  | .transition _ _ _ _ _ => true
  | _ => false

/-- The calls that name no run of the caller's own. -/
def Call.isPublic : Call → Bool
  | .recover _ | .recoverExpired _ | .appendMessages _ _ _ | .createThread _ _ => true
  | _ => false

namespace Event

def batchOn (t : Uuid) : Event → List Message
  | commit σ _ => σ.call.batchOn t
  | _ => []

def completes : Event → Option Uuid
  | commit σ _ => σ.call.completes
  | _ => none

/-- The run with which the invoker was entered. -/
def entered : Event → Option Uuid
  | enter _ runId _ _ => some runId
  | _ => none

def isCommit : Event → Bool
  | commit _ _ => true
  | _ => false

/-- A history read or an invoker entry of `p`. -/
def isBy (p : Pid) : Event → Bool
  | history q _ _ => q = p
  | enter q _ _ _ => q = p
  | commit _ _ => false

/-- Who read a history. -/
def reader : Event → Option Pid
  | history q _ _ => some q
  | _ => none

/-- A committed `append_messages` on thread `t`. -/
def appends (t : Uuid) : Event → Bool
  | commit σ _ =>
    match σ.call with
    | .appendMessages t' _ _ => t' = t
    | _ => false
  | _ => false

end Event

/-- `client` committed its transition of `runId` to running. -/
def StartedIn (client : Pid) (runId : Uuid) (log : List Event) : Prop :=
  ∃ σ before token, .commit σ before ∈ log ∧ σ.client = client ∧
    σ.call = .transition runId .running token none none

/-- `client` read `rows` of thread `t` after its transition of `runId` to running, and no message
of `t` was committed since. -/
def ReadSinceStart (client : Pid) (runId t : Uuid) (rows : List MessageRow)
    (log : List Event) : Prop :=
  ∃ newer older, log = newer ++ .history client t rows :: older ∧
    (∀ e ∈ newer, e.batchOn t = []) ∧ StartedIn client runId older

/-- The agent, the idempotency key and the request hash that an invocation claims with. -/
def Kind.asked : Kind → Option (String × Option String × Option String)
  | .task (.invoke rt agentId request key) | .task (.stream rt agentId request key) =>
    some (agentId, key, some (rt.requestHash request))
  | _ => none

/-- The agent, the idempotency key and the request hash of a row. -/
def RunRow.asked (row : RunRow) : String × Option String × Option String :=
  (row.agentId, row.idempotencyKey, row.requestHash)

def Kind.isInvocation : Kind → Bool
  | .task (.invoke _ _ _ _) | .task (.stream _ _ _ _) => true
  | _ => false

/-- What an invocation has read when it completes `runId` on thread `t` of `db`, unless messages
were appended outside of runs. -/
def HistoryCurrent (client : Pid) (runId t : Uuid) (db : Db) (log : List Event) : Prop :=
  (∃ e ∈ log, e.appends t = true) ∨ ReadSinceStart client runId t (db.messagesOf t) log

/-- Every completion in the log by an invocation had the current history. -/
def Serial (kind : Pid → Kind) : List Event → Prop
  | [] => True
  | .commit σ before :: older =>
    (∀ runId token messages response, σ.call = .complete runId token messages response →
      (kind σ.client).isInvocation = true →
      HistoryCurrent σ.client runId response.threadId before older) ∧ Serial kind older
  | _ :: older => Serial kind older

/-- What the log says about the tables. -/
structure LogOk (log : List Event) (db : Db) : Prop where
  /-- A thread holds the committed batches, in order. -/
  transcript : ∀ t, (db.messagesOf t).map MessageRow.message =
    log.reverse.flatMap (Event.batchOn t)
  completed : ∀ σ before runId token messages response, .commit σ before ∈ log →
    σ.call = .complete runId token messages response →
    matchesResponse messages response = true ∧ ∃ r ∈ db.runs, r.id = runId ∧
      r.status = .succeeded ∧ r.response = some response.jsonForm ∧
      r.threadId = response.threadId
  covered : ∀ r ∈ db.runs, r.status = .succeeded → .some r.id ∈ log.map Event.completes
  once : (log.filterMap Event.completes).Nodup
  entered : ∀ p runId agentId key, .enter p runId agentId key ∈ log →
    ∃ r ∈ db.runs, r.id = runId ∧ r.agentId = agentId ∧ r.idempotencyKey = key
  enteredOnce : (log.filterMap Event.entered).Nodup

-- ---------------------------------------------------------------------------
-- Open transactions
-- ---------------------------------------------------------------------------

/-- The expiry that `claim` may flush before its insert. -/
inductive Freed (w : World) (p : Pid) (now : Time) : List Write → Prop
  | nothing : Freed w p now []
  | expired {old new : RunRow} (hold : old ∈ w.db.runs)
      (hlock : w.holder (.thread old.threadId) = some p) (hexpire : expire old now = some new) :
      Freed w p now [.updateRun new]

/-- The row that a claim has inserted: `p` alone inserts its keys, and no visible row has one. -/
structure Inserted (w : World) (p : Pid) (freed : List Write) (row : RunRow) : Prop where
  lock : w.holder (.thread row.threadId) = some p
  keys : ∀ k ∈ row.keys, (p, k) ∈ w.inserting
  apart : ∀ r ∈ (w.db.after freed).runs, Apart r row

/-- An open transaction that may commit. -/
inductive Staged (w : World) (p : Pid) (σ : Session) : Prop
  | nothing (hwrites : σ.writes = []) (hbatch : ∀ t, σ.call.batchOn t = [])
      (hcompletes : σ.call.completes = none)
  | update {now : Time} {old new : RunRow} (hwrites : σ.writes = [.updateRun new])
      (hnow : σ.now = some now) (hold : old ∈ w.db.runs)
      (hlock : w.holder (.thread old.threadId) = some p) (hmove : RowMove σ.call now old new)
      (hbatch : ∀ t, σ.call.batchOn t = []) (hcompletes : σ.call.completes = none)
      (htarget : ∀ runId, σ.call.target = some runId → old.id = runId)
  | insert {args : ClaimArgs} {lease now : Time} {freed : List Write} {row : RunRow}
      (hcall : σ.call = .claim args) (hnow : σ.now = some now)
      (hwrites : σ.writes = freed ++ [.insertRun row]) (hfreed : Freed w p now freed)
      (hrow : row = { claimRow args lease now with startedAt := σ.begun })
      (hinserted : Inserted w p freed row)
  | append {t : Uuid} {messages : List Message} {namespace_ : Option String}
      (hcall : σ.call = .appendMessages t messages namespace_)
      (hwrites : σ.writes = [.insertMessages (numbered t (w.db.lastSequence t) messages)])
      (hlock : w.holder (.thread t) = some p)
  | finish {now : Time} {old : RunRow} {token : Uuid} {messages : List Message}
      {response : RuntimeResponse}
      (hcall : σ.call = .complete old.id token messages response) (hnow : σ.now = some now)
      (hwrites : σ.writes =
        [.insertMessages (numbered old.threadId (w.db.lastSequence old.threadId) messages),
          .updateRun (completed old response now)])
      (hold : old ∈ w.db.runs) (hlock : w.holder (.thread old.threadId) = some p)
      (howner : ownedBy old token now = true)
      (hcheck : checkCompletion old messages response = .ok ())
      (hhistory : (w.kind σ.client).isInvocation = true →
        HistoryCurrent σ.client old.id old.threadId w.db w.log)
  | thread {row : ThreadRow} {namespace_ : String} {userKey : Option String}
      (hcall : σ.call = .createThread namespace_ userKey)
      (hwrites : σ.writes = [.insertThread row])

-- ---------------------------------------------------------------------------
-- The invariant
-- ---------------------------------------------------------------------------

/-- The source has emitted exactly one completed event, followed by a normal end. -/
def Reading.ended (r : Reading) : Prop :=
  r.source.ending = none ∧ r.source.events.length < r.pulled ∧
    ∃ before output, r.source.events = before ++ [.completed output] ∧
      ∀ e ∈ before, e.isCompleted = none

/-- The invoker of `p` has produced an output. -/
def SourceEnded (w : World) (p : Pid) : Prop := ∃ r, w.source p = some r ∧ r.ended

/-- What the runtime passes to the store: run identifiers it drew itself, a completion only
for an output, and the status `blocked` only for the clean-up of a blocked invocation. -/
structure CallPriv (w : World) (σ : Session) : Prop where
  claim : ∀ args, σ.call = .claim args →
    w.mint args.runId = some σ.client ∧ w.runId σ.client = some args.runId ∧
      (w.kind σ.client).asked =
        some (args.agent.agentId, args.idempotencyKey, some args.requestHash)
  transition : ∀ runId status token response code,
    σ.call = .transition runId status token response code → status = .running
  complete : ∀ runId token messages response, σ.call = .complete runId token messages response →
    w.mint runId = some σ.client ∧ SourceEnded w σ.client
  settle : ∀ runId token code status, σ.call = .failIfRunning runId token code status →
    ∃ p, w.kind σ.client = .cleanup p status
  cleanup : ∀ p status, w.kind σ.client = .cleanup p status →
    ∃ runId token code, σ.call = .failIfRunning runId token code status ∧
      w.mint runId = some p

structure SessionOk (priv : Bool) (w : World) (p : Pid) (σ : Session) : Prop where
  started : w.kind σ.client ≠ .idle
  begun : σ.begun ≤ w.clock
  now : ∀ n, σ.now = some n → σ.begun ≤ n ∧ n ≤ w.clock
  client : σ.client = p ∨
    (w.kind p = .resolver σ.client ∧ w.resolving σ.client = some p ∧ Staged w p σ)
  callPriv : priv = true → CallPriv w σ

structure IdleOk (w : World) (p : Pid) : Prop where
  session : w.session p = none
  runId : w.runId p = none
  armed : w.armed p = false
  cleanup : w.cleanup p = none
  settled : w.settled p = none
  resolving : w.resolving p = none
  stream : w.stream p = .empty
  source : w.source p = none
  acked : w.acked p = []
  log : ∀ e ∈ w.log, e.isBy p = false
  mint : ∀ u, w.mint u ≠ some p

structure ProcOk (priv : Bool) (w : World) (p : Pid) : Prop where
  session : ∀ σ, w.session p = some σ → SessionOk priv w p σ
  idle : w.kind p = .idle → IdleOk w p
  /-- An invocation does nothing in the database once its clean-up has started. -/
  cleanup : ∀ s, w.cleanup p = some s →
    w.session p = none ∧ ∃ status, w.kind s = .cleanup p status
  parent : ∀ q status, w.kind p = .cleanup q status → w.cleanup q = some p
  runId : ∀ u, w.runId p = some u → w.mint u = some p

/-- What the clean-up of `p` found, unless it could not look. -/
def OutcomeOk (w : World) (p : Pid) : SettleOutcome → Prop
  | .settled record => record ∈ w.db.runs ∧ record.status.isActive = false ∧
      w.runId p = some record.id
  | .notFound => w.premature p = false →
      w.resolving p = none ∧ ∀ r ∈ w.db.runs, w.runId p ≠ some r.id
  | .unavailable => True

/-- What holds of the rows when only the runtime writes runs. -/
structure RowsPriv (w : World) : Prop where
  minted : ∀ r ∈ w.db.runs, ∃ p, w.mint r.id = some p ∧ w.runId p = some r.id
  asked : ∀ r ∈ w.db.runs, ∀ p, w.mint r.id = some p → (w.kind p).asked = some r.asked
  blocked : ∀ r ∈ w.db.runs, r.status = .blocked →
    ∃ p s, w.mint r.id = some p ∧ w.cleanup p = some s ∧ w.kind s = .cleanup p .blocked
  /-- A run is completed by the invocation that owns it, once it has an output. -/
  completedBy : ∀ σ before runId token messages response, .commit σ before ∈ w.log →
    σ.call = .complete runId token messages response →
    w.mint runId = some σ.client ∧ SourceEnded w σ.client
  /-- A clean-up changes no row of another invocation. -/
  spared : ∀ σ before p status, .commit σ before ∈ w.log → w.kind σ.client = .cleanup p status →
    ∀ r ∈ before.runs, w.mint r.id ≠ some p → r ∈ (before.after σ.writes).runs
  outcomes : ∀ s o p status, w.settled s = some o → w.kind s = .cleanup p status →
    OutcomeOk w p o

structure Inv (priv : Bool) (w : World) : Prop where
  db : DbOk w.db
  log : LogOk w.log w.db
  serial : Serial w.kind w.log
  enteredBy : ∀ p runId agentId key, .enter p runId agentId key ∈ w.log →
    w.mint runId = some p
  /-- An invocation reads the history of its thread at most once. -/
  readOnce : (w.log.filterMap Event.reader).Nodup
  inserting : ∀ p q k, (p, k) ∈ w.inserting → (q, k) ∈ w.inserting → p = q
  proc : ∀ p, ProcOk priv w p
  rowsPriv : priv = true → RowsPriv w
  /-- The log names only started processes. -/
  clients : ∀ σ before, .commit σ before ∈ w.log → w.kind σ.client ≠ .idle

-- ---------------------------------------------------------------------------
-- Steps
-- ---------------------------------------------------------------------------

/-- The transaction of `q` commits in this step. -/
structure Commits (w w' : World) (q : Pid) (σ : Session) : Prop where
  session : w.session q = some σ
  ended : w'.session q = none
  staged : Staged w q σ
  db : w'.db = w.db.after σ.writes
  log : w'.log = .commit σ w.db :: w.log

/-- What any step does to what all processes share. -/
structure Evolution (w w' : World) : Prop where
  clock : w.clock ≤ w'.clock
  mint : ∀ u p, w.mint u = some p → w'.mint u = some p
  /-- The identifier of an invocation is settled once its clean-up has started. -/
  runId : ∀ p, (w.cleanup p).isSome = true → w'.runId p = w.runId p
  kind : ∀ q, w.kind q ≠ .idle → w'.kind q = w.kind q
  cleanup : ∀ p s, w.cleanup p = some s → w'.cleanup p = some s
  settled : ∀ s o, w.settled s = some o → w'.settled s = some o
  resolving : ∀ c q, w'.resolving c = some q →
    w.resolving c = some q ∨ (w.session c).isSome = true
  premature : ∀ p, w.premature p = true → w'.premature p = true
  ended : ∀ p, SourceEnded w p → SourceEnded w' p
  tables : (w'.db = w.db ∧ ∃ new, w'.log = new ++ w.log ∧ ∀ e ∈ new, e.isCommit = false) ∨
    ∃ q σ, Commits w w' q σ

/-- What is left alone of the state of `p` outside of its transaction. -/
structure Quiet (p : Pid) (w w' : World) : Prop where
  evolution : Evolution w w'
  kind : w'.kind p = w.kind p
  runId : w'.runId p = w.runId p
  armed : w'.armed p = w.armed p
  cleanup : w'.cleanup p = w.cleanup p
  settled : w'.settled p = w.settled p
  pushed : (w'.stream p).pushed = (w.stream p).pushed
  source : w'.source p = w.source p
  log : ∀ e ∈ w'.log, e.isBy p = true → e ∈ w.log

/-- What is left alone while `p` is inside its transaction: its locks and inserts stay, and
whoever commits, it is not `p`. -/
structure Beside (p : Pid) (w w' : World) : Prop where
  quiet : Quiet p w w'
  commits : ∀ q σ, Commits w w' q σ → q ≠ p
  holder : ∀ k, w.holder k = some p → w'.holder k = some p
  inserting : ∀ k, (p, k) ∈ w.inserting → (p, k) ∈ w'.inserting
  resolving : w.resolving p = none → w'.resolving p = none
  acked : w'.acked p = w.acked p

/-- What one step of anybody else may do to a started process `p`. -/
structure Aside (p : Pid) (w w' : World) : Prop extends Beside p w w' where
  session : w'.session p = w.session p

/-- What one step of anybody but `p` may do. -/
def Other (p : Pid) (w w' : World) : Prop :=
  Evolution w w' ∧ (w.kind p ≠ .idle → Aside p w w')

end AgentRuntimeKit
