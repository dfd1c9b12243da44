import AgentRuntimeKit.Context.Window
import AgentRuntimeKit.Lib.Interleaving
import AgentRuntimeKit.Store.Tables

/-!
# The shared world

What the programs of this development run against: a PostgreSQL database with
its clock, row locks and open transactions, the asyncio tasks of any number of
workers with their queues, and third-party code (hooks, invokers, sources).

* A **session** is an open transaction: the call it works for, the database
  time it read last, and the writes it has flushed but not committed.
* A lock is a row lock of `SELECT … FOR UPDATE`, held until the transaction ends.
* `inserting` lists the unique keys of rows inserted by open transactions;
  an insert of the same key by another transaction waits for their end.
* `log` records commits, history reads and invoker entries, newest first. It and
  the fields marked "ghost" are read by no program.
-/

namespace AgentRuntimeKit

open Lib

/-- An asyncio task, or a transaction left behind at the server. -/
abbrev Pid := Nat

inductive LockKey
  | thread (id : Uuid)
  | run (id : Uuid)
deriving DecidableEq, Repr

/-- The arguments of `PostgresRunStore.claim`. `lease` is `lease_seconds` as a
`timedelta`, or `none` where it is not finite or not positive. -/
structure ClaimArgs where
  runId : Uuid
  requestId : Uuid
  agent : AgentDescriptor
  threadId : Uuid
  idempotencyKey : Option String
  requestHash : String
  ownerToken : Uuid
  lease : Option Time

/-- The store calls that run in a transaction, with their arguments. -/
inductive Call
  | claim (args : ClaimArgs)
  | transition (runId : Uuid) (status : RunStatus) (ownerToken : Uuid)
      (response : Option RuntimeResponse) (errorCode : Option String)
  | complete (runId ownerToken : Uuid) (messages : List Message) (response : RuntimeResponse)
  | failIfRunning (runId ownerToken : Uuid) (errorCode : String) (status : RunStatus)
  | recover (runId : Uuid)
  | recoverExpired (limit : Int)
  | appendMessages (threadId : Uuid) (messages : List Message) (namespace_ : Option String)
  | createThread (namespace_ : String) (userKey : Option String)

structure Session where
  client : Pid
  call : Call
  begun : Time
  now : Option Time
  writes : List Write

inductive Event
  | commit (session : Session) (before : Db)
  | history (client : Pid) (threadId : Uuid) (rows : List MessageRow)
  | enter (client : Pid) (runId : Uuid) (agentId : String) (key : Option String)

/-- What travels through the queue of `AgentRuntime.stream`. -/
inductive Item
  | event (e : RuntimeStreamEvent)
  | failure (e : Exn)
  | sentinel

/-- The queue of one `stream` call: everything enqueued so far, how much of it the
consumer has taken, and whether the consumer still iterates. -/
structure Stream where
  pushed : List Item
  taken : Nat
  iterating : Bool

def Stream.empty : Stream := ⟨[], 0, true⟩

/-- `asyncio.Queue(maxsize=64)`. -/
def Stream.full (s : Stream) : Bool := 64 ≤ s.pushed.length - s.taken

/-- How `_settle_failure` ends. The source returns `None` in the last two cases. -/
inductive SettleOutcome
  | settled (record : RunRecord)
  | notFound
  | unavailable

def SettleOutcome.result : SettleOutcome → Option RunRecord
  | settled record => some record
  | _ => none

/-- A registered invoker: its descriptor, and whether it is a `StreamingAgentInvoker`. -/
structure Invoker where
  descriptor : AgentDescriptor
  streaming : Bool

/-- One iterator of a streaming invoker: its events, and the exception it ends with, if any. -/
structure Source where
  events : List AgentStreamEvent
  ending : Option Exn

/-- A source and how often it was advanced. -/
structure Reading where
  source : Source
  pulled : Nat

/-- What `invoke` of an invoker amounts to: a stream of its output alone, read to its end. -/
def Reading.ofOutput (output : InvocationOutput) : Reading := ⟨⟨[.completed output], none⟩, 2⟩

/-- One `AgentRuntime`. `requestHash` stands for `AgentRuntime.request_hash`. -/
structure Runtime where
  /-- Which of the workers this object lives in. -/
  worker : Nat
  agents : String → Option Invoker
  namespace_ : String
  timeout : Time
  cleanupTimeout : Time
  contextWindow : Option ContextWindow
  streamHistory : Bool
  encode : Encoder
  requestHash : RuntimeRequest → String
  /-- `AgentRegistry.register` files an invoker under its own identifier. -/
  validAgents : ∀ id invoker, agents id = some invoker → invoker.descriptor.agentId = id
  /-- Both time-outs are positive, as `__init__` requires. -/
  validTimeouts : 0 < timeout ∧ 0 < cleanupTimeout
  /-- Serialization raises ordinary exceptions only. -/
  validEncode : ∀ m e, encode m = .error e → e.isException = true
  /-- `stream_history requires an explicit context_window`. -/
  validHistory : streamHistory = true → contextWindow.isSome = true

/-- What a caller may start: an invocation, a stream, or a store call of its own. -/
inductive Task
  | invoke (rt : Runtime) (agentId : String) (request : RuntimeRequest) (key : Option String)
  | stream (rt : Runtime) (agentId : String) (request : RuntimeRequest) (key : Option String)
  | call (call : Call)

/-- What a process is. -/
inductive Kind
  | idle
  | task (t : Task)
  /-- `_settle_failure` for the invocation of `parent`, with the status it settles for. -/
  | cleanup (parent : Pid) (status : RunStatus)
  /-- A transaction whose client no longer waits for its commit. -/
  | resolver (client : Pid)

structure World where
  clock : Time
  db : Db
  session : Pid → Option Session
  holder : LockKey → Option Pid
  inserting : List (Pid × UniqueKey)
  kind : Pid → Kind
  /-- Ghost: who drew a `uuid4`. -/
  mint : Uuid → Option Pid
  /-- `_InvocationState.run_id`. -/
  runId : Pid → Option Uuid
  /-- An `asyncio.timeout` is entered and not yet left. -/
  armed : Pid → Bool
  stream : Pid → Stream
  /-- Ghost: what the invoker of an invocation has produced. -/
  source : Pid → Option Reading
  /-- Ghost: the calls that a client saw commit, newest first. -/
  acked : Pid → List Call
  /-- The clean-up task of an invocation. -/
  cleanup : Pid → Option Pid
  settled : Pid → Option SettleOutcome
  /-- Ghost: a commit of this client is still under way without it, as this process. -/
  resolving : Pid → Option Pid
  /-- Ghost: the clean-up of this invocation began while it was `resolving`. -/
  premature : Pid → Bool
  /-- `AgentRuntime._closing`, by worker. -/
  closing : Nat → Bool
  log : List Event

/-- The phases of `HookManager.run` in `_execute`. -/
inductive HookPhase
  | beforeModel
  | afterModel
deriving DecidableEq, Repr

/-- The operations of the modelled programs: one per statement sent to the database,
one per other point where a task can be suspended, and the changes of task state. -/
inductive Op
  | begin (call : Call)
  | lockThread (id : Uuid) (namespace_ : Option String)
  /-- `FOR UPDATE SKIP LOCKED`. -/
  | tryLockThread (id : Uuid)
  | threadOf (runId : Uuid)
  | lockRun (runId : Uuid)
  | runsByKey (agentId : String) (key : Option String)
  | lockActiveRuns (threadId : Uuid)
  /-- `clock_timestamp()`. -/
  | now
  | updateRun (row : RunRow)
  | insertRun (row : RunRow) (onConflictDoNothing : Bool)
  | lastSequence (threadId : Uuid)
  | insertMessages (rows : List MessageRow)
  | insertThread (row : ThreadRow)
  | getThread (id : Uuid) (namespace_ : Option String)
  | transcript (threadId : Uuid)
  /-- One batch of an open cursor. -/
  | fetch
  | closeCursor
  | expiredRuns (limit : Nat)
  | commit
  | rollback
  /-- A transaction whose client is gone commits or rolls back. -/
  | resolve
  | uuid4
  | setRunId (runId : Option Uuid)
  | getRunId
  | isClosing (worker : Nat)
  | arm
  | disarm
  /-- `budget.expired()`. -/
  | expired
  | hook (phase : HookPhase) (messages : List Message)
  /-- The invoker is entered with the run that the key stands for. -/
  | enter (runId : Uuid) (agentId : String) (key : Option String)
  /-- The invoker is given the input messages. -/
  | awaitInvoker (messages : List Message)
  | openSource (messages : List Message)
  | pull
  | closeSource
  | traceId
  | put (item : Item)
  | spawnCleanup (runId ownerToken : Uuid) (errorCode : String) (status : RunStatus)
      (timeout : Time)
  | awaitCleanup (cleanup : Pid)
  /-- The clean-up task ends. -/
  | finish (outcome : SettleOutcome)

/-- What an operation answers. -/
@[reducible] def Res : Op → Type
  | .begin _ | .updateRun _ | .insertMessages _ | .insertThread _ => Unit
  | .lockThread _ _ | .tryLockThread _ | .getThread _ _ => Option ThreadRow
  | .threadOf _ => Option Uuid
  | .lockRun _ | .runsByKey _ _ | .lockActiveRuns _ => List RunRow
  | .now => Time
  | .insertRun _ _ => Option RunRow
  | .lastSequence _ => Nat
  | .transcript _ => List MessageRow
  | .expiredRuns _ => List Uuid
  | .fetch | .closeCursor | .commit | .rollback | .resolve => Unit
  | .uuid4 => Uuid
  | .setRunId _ | .arm | .disarm | .hook _ _ | .enter _ _ _ | .pull | .closeSource | .put _ => Unit
  | .getRunId => Option Uuid
  | .isClosing _ | .expired => Bool
  | .awaitInvoker _ => InvocationOutput
  | .openSource _ => Source
  | .traceId => Option String
  | .spawnCleanup _ _ _ _ _ => Pid
  | .awaitCleanup _ => Option RunRecord
  | .finish _ => Unit

/-- A program of this development. -/
abbrev P (α : Type) := Prog Op Res Exn α

/-- Perform one operation. -/
def perform (o : Op) : P (Res o) := Prog.perform o

end AgentRuntimeKit
