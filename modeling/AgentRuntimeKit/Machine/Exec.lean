import AgentRuntimeKit.Runtime.Deadline

/-!
# What an operation does

The `Machine` of this development. `exec` performs one operation of one process
under a `Choice`, which decides what the program does not: faults, cancellation,
lost acknowledgments, the answers of third-party code and of `uuid4`. `none` means
that the operation is blocked or that the choice does not fit it.

Faults follow three rules.

* A statement that fails has not run, and its transaction is rolled back by the
  program. A driver or the event loop raises no exception of this package.
* A failed `COMMIT` may have committed all the same (`lost`), or may still do so later,
  while the transaction and its locks outlive the client (`late`).
* A task is cancelled only where it can be suspended: a `queue.put` suspends only on a
  full queue. Its own deadline cancels it only inside `asyncio.timeout`.

A crashed worker is one whose processes are no longer scheduled; its open transaction
then ends by the rollback of a failed statement.
-/

namespace AgentRuntimeKit

open Lib

/-- How one operation turns out. -/
inductive Choice
  | ok
  | fail (e : Exn)
  /-- `COMMIT` took effect, but the client sees an exception. -/
  | lost (e : Exn)
  /-- The client sees an exception while `COMMIT` is still under way, as `q`. -/
  | late (e : Exn) (q : Pid)
  | uuid (u : Uuid)
  | pid (q : Pid)
  | flag (b : Bool)
  | output (output : InvocationOutput)
  | source (source : Source)
  | trace (id : Option String)

/-- What may happen by itself. -/
inductive Env
  | tick (d : Time)
  | start (p : Pid) (t : Task)
  /-- The consumer of a stream takes the next item. -/
  | take (p : Pid)
  /-- The consumer of a stream stops iterating. -/
  | close (p : Pid)
  | shutdown (worker : Nat)

/-- The statements sent to the database. -/
def Op.isStatement : Op → Bool
  | begin _ | lockThread _ _ | tryLockThread _ | threadOf _ | lockRun _ | runsByKey _ _
  | lockActiveRuns _ | now | updateRun _ | insertRun _ _ | lastSequence _ | insertMessages _
  | insertThread _ | getThread _ _ | transcript _ | fetch | closeCursor | expiredRuns _
  | commit | rollback => true
  | _ => false

/-- The calls into third-party code that may raise. What a source raises is its `ending`. -/
def Op.isForeign : Op → Bool
  | hook _ _ | awaitInvoker _ | openSource _ | closeSource => true
  | _ => false

/-- Where a cancellation can be delivered. -/
def Op.suspends (w : World) (p : Pid) : Op → Bool
  | put _ => (w.stream p).full
  | awaitCleanup _ | pull => true
  | o => o.isStatement || o.isForeign

def Kind.cleansUp (parent : Pid) : Kind → Bool
  | cleanup q _ => q = parent
  | _ => false

/-- Only the tasks that a caller started are cancelled from outside. -/
def Kind.isTask : Kind → Bool
  | task _ => true
  | _ => false

/-- The exceptions an operation may raise instead of answering. -/
def Op.mayRaise (w : World) (p : Pid) (o : Op) : Exn → Bool
  | .cancelled byDeadline =>
    o.suspends w p && (if byDeadline then w.armed p else (w.kind p).isTask)
  | e => o.isForeign || (o.isStatement && e.isForeign)

namespace World

variable (w : World)

/-- The database as `p` sees it. -/
def view (p : Pid) : Db :=
  match w.session p with
  | some σ => w.db.after σ.writes
  | none => w.db

/-- `p` changes its open transaction. -/
def setSession (p : Pid) (σ : Session) : World :=
  { w with session := Function.update w.session p (some σ) }

/-- Nobody else holds the lock. -/
def free (p : Pid) (k : LockKey) : Bool :=
  match w.holder k with
  | some q => q = p
  | none => true

def lock (p : Pid) (k : LockKey) : World :=
  { w with holder := Function.update w.holder k (some p) }

def lockAll (p : Pid) (ks : List LockKey) : World := ks.foldl (fun w k => w.lock p k) w

/-- An open transaction of somebody else has inserted one of the keys. -/
def awaits (p : Pid) (keys : List UniqueKey) : Bool :=
  w.inserting.any fun entry => entry.1 ≠ p && keys.contains entry.2

/-- `p` flushes a write; `keys` are those of the rows it inserts. -/
def flush (p : Pid) (σ : Session) (x : Write) (keys : List UniqueKey) : World :=
  { w with
    session := Function.update w.session p (some { σ with writes := σ.writes ++ [x] })
    inserting := keys.map (fun k => (p, k)) ++ w.inserting }

/-- The transaction of `p` ends. -/
def endSession (p : Pid) : World :=
  { w with
    session := Function.update w.session p none
    holder := fun k => if w.holder k = some p then none else w.holder k
    inserting := w.inserting.filter fun entry => entry.1 ≠ p }

/-- The transaction of `p` commits. -/
def commit (p : Pid) (σ : Session) : World :=
  { w.endSession p with
    db := w.db.after σ.writes
    log := .commit σ w.db :: w.log }

/-- The client sees the commit of its call. -/
def acknowledge (p : Pid) (call : Call) : World :=
  { w with acked := Function.update w.acked p (call :: w.acked p) }

/-- The transaction of `p` outlives it as `q`. -/
def handOver (p q : Pid) (σ : Session) : World :=
  { w with
    session := Function.update (Function.update w.session p none) q (some σ)
    holder := fun k => if w.holder k = some p then some q else w.holder k
    inserting := w.inserting.map fun entry => if entry.1 = p then (q, entry.2) else entry
    kind := Function.update w.kind q (.resolver σ.client)
    resolving := Function.update w.resolving σ.client (some q) }

def resolved (client : Pid) : World :=
  { w with resolving := Function.update w.resolving client none }

def setStream (p : Pid) (s : Stream) : World :=
  { w with stream := Function.update w.stream p s }

def setSource (p : Pid) (r : Reading) : World :=
  { w with source := Function.update w.source p (some r) }

def record (e : Event) : World := { w with log := e :: w.log }

/-- A new transaction. A clean-up that begins while a commit of its invocation is under
way is `premature`. -/
def beginSession (p : Pid) (call : Call) : World :=
  { w.setSession p ⟨p, call, w.clock, none, []⟩ with
    premature := fun q => w.premature q || ((w.kind p).cleansUp q && (w.resolving q).isSome) }

end World

def Kind.isIdle : Kind → Bool
  | idle => true
  | _ => false

/-- The program of a transaction without a client. -/
def resolverProgram : P Answer := do
  perform .resolve
  pure .nothing

def uniqueViolation : Exn :=
  .py .integrityError "duplicate key value violates unique constraint"

abbrev Forks := List (Pid × P Answer)

/-- An answer without a fork. -/
def answer {o : Op} (r : Except Exn (Res o)) (w : World) :
    Option (Except Exn (Res o) × World × Forks) := some (r, w, [])

/-- An operation that takes place. -/
def execOk (p : Pid) (w : World) : (o : Op) → Option (Except Exn (Res o) × World × Forks)
  | .begin call =>
    if (w.session p).isNone then answer (.ok ()) (w.beginSession p call) else none
  | .lockThread id namespace_ =>
    match (w.view p).thread? id namespace_ with
    | none => answer (.ok none) w
    | some row =>
      if w.free p (.thread id) then answer (.ok (some row)) (w.lock p (.thread id)) else none
  | .tryLockThread id =>
    match (w.view p).thread? id none with
    | none => answer (.ok none) w
    | some row =>
      if w.free p (.thread id) then answer (.ok (some row)) (w.lock p (.thread id))
      else answer (.ok none) w
  | .threadOf runId => answer (.ok (((w.view p).run? runId).map RunRow.threadId)) w
  | .lockRun runId =>
    if w.free p (.run runId) then
      match (w.view p).run? runId with
      | none => answer (.ok []) w
      | some row => answer (.ok [row]) (w.lock p (.run runId))
    else none
  | .runsByKey agentId key => answer (.ok ((w.view p).runsByKey agentId key)) w
  | .lockActiveRuns threadId =>
    let rows := (w.view p).activeRuns threadId
    if rows.all fun row => w.free p (.run row.id) then
      answer (.ok rows) (w.lockAll p (rows.map fun row => .run row.id))
    else none
  | .now =>
    match w.session p with
    | some σ => answer (.ok w.clock) (w.setSession p { σ with now := some w.clock })
    | none => none
  | .updateRun row =>
    match w.session p with
    | some σ => answer (.ok ()) (w.flush p σ (.updateRun row) [])
    | none => none
  | .insertRun row onConflictDoNothing =>
    match w.session p with
    | some σ =>
      let stored := { row with startedAt := σ.begun }
      -- the arbiter index decides first
      if onConflictDoNothing && !((w.view p).runsByKey row.agentId row.idempotencyKey).isEmpty
        then answer (.ok none) w
      else if w.awaits p stored.keys then none
      else if stored.keys.any (w.view p).keys.contains then answer (.error uniqueViolation) w
      else answer (.ok (some stored)) (w.flush p σ (.insertRun stored) stored.keys)
    | none => none
  | .lastSequence threadId => answer (.ok ((w.view p).lastSequence threadId)) w
  | .insertMessages rows =>
    match w.session p with
    | some σ =>
      let keys := rows.map fun row => UniqueKey.message row.message.id
      if w.awaits p keys then none
      else if !keys.Nodup || keys.any (w.view p).keys.contains then
        answer (.error uniqueViolation) w
      else answer (.ok ()) (w.flush p σ (.insertMessages rows) keys)
    | none => none
  | .insertThread row =>
    match w.session p with
    | some σ =>
      if w.awaits p [.thread row.id] then none
      else if (w.view p).keys.contains (.thread row.id) then answer (.error uniqueViolation) w
      else answer (.ok ()) (w.flush p σ (.insertThread row) [.thread row.id])
    | none => none
  | .getThread id namespace_ => answer (.ok ((w.view p).thread? id namespace_)) w
  | .transcript threadId =>
    let rows := (w.view p).transcript threadId
    answer (.ok rows) (w.record (.history p threadId rows))
  | .fetch => answer (.ok ()) w
  | .closeCursor => answer (.ok ()) w
  | .expiredRuns limit => answer (.ok (w.db.expiredRuns w.clock limit)) w
  | .commit =>
    match w.session p with
    | some σ => answer (.ok ()) ((w.commit p σ).acknowledge p σ.call)
    | none => none
  | .rollback => answer (.ok ()) (w.endSession p)
  | .setRunId runId => answer (.ok ()) { w with runId := Function.update w.runId p runId }
  | .getRunId => answer (.ok (w.runId p)) w
  | .isClosing worker => answer (.ok (w.closing worker)) w
  | .arm => answer (.ok ()) { w with armed := Function.update w.armed p true }
  | .disarm => answer (.ok ()) { w with armed := Function.update w.armed p false }
  | .hook _ _ => answer (.ok ()) w
  | .enter runId agentId key => answer (.ok ()) (w.record (.enter p runId agentId key))
  | .pull =>
    match w.source p with
    | some r => answer (.ok ()) (w.setSource p { r with pulled := r.pulled + 1 })
    | none => none
  | .closeSource => answer (.ok ()) w
  | .put item =>
    let s := w.stream p
    if s.full then none
    else answer (.ok ()) (w.setStream p { s with pushed := s.pushed ++ [item] })
  | .awaitCleanup cleanup =>
    match w.settled cleanup with
    | some outcome => answer (.ok outcome.result) w
    | none => none
  | .finish outcome =>
    answer (.ok ()) { w with settled := Function.update w.settled p (some outcome) }
  | .uuid4 | .awaitInvoker _ | .openSource _ | .traceId | .expired | .resolve
  | .spawnCleanup _ _ _ _ _ => none

/-- One operation of `p`. -/
def exec (p : Pid) (w : World) :
    (o : Op) → Choice → Option (Except Exn (Res o) × World × Forks)
  | o, .ok => execOk p w o
  | .commit, .fail e =>
    if Op.mayRaise w p .commit e then answer (.error e) (w.endSession p) else none
  | .rollback, .fail e =>
    if Op.mayRaise w p .rollback e then answer (.error e) (w.endSession p) else none
  | o, .fail e => if o.mayRaise w p e then answer (.error e) w else none
  | .commit, .lost e =>
    match w.session p with
    | some σ => if Op.mayRaise w p .commit e then answer (.error e) (w.commit p σ) else none
    | none => none
  | .commit, .late e q =>
    match w.session p with
    | some σ =>
      if Op.mayRaise w p .commit e && (w.kind q).isIdle then
        some (.error e, w.handOver p q σ, [(q, resolverProgram)])
      else none
    | none => none
  | .resolve, .flag committed =>
    match w.session p with
    | some σ =>
      answer (.ok ())
        ((if committed then w.commit p σ else w.endSession p).resolved σ.client)
    | none => none
  | .uuid4, .uuid u =>
    if (w.mint u).isNone then
      answer (.ok u) { w with mint := Function.update w.mint u (some p) }
    else none
  | .awaitInvoker _, .output output => answer (.ok output) (w.setSource p (.ofOutput output))
  | .openSource _, .source source =>
    -- a source that ends in a cancellation is one whose `pull` is cancelled
    if source.ending.all Exn.isException then answer (.ok source) (w.setSource p ⟨source, 0⟩)
    else none
  | .traceId, .trace id => answer (.ok id) w
  | .expired, .flag b => answer (.ok b) w
  | .spawnCleanup runId ownerToken errorCode status _, .pid q =>
    if (w.kind q).isIdle then
      some (.ok q,
        { w with
          kind := Function.update w.kind q (.cleanup p status)
          cleanup := Function.update w.cleanup p (some q) },
        [(q, cleanupTask runId ownerToken errorCode status)])
    else none
  | _, _ => none

/-- What the consumer does with the item it takes. -/
def Item.ends : Item → Bool
  | .sentinel | .failure _ => true
  | .event _ => false

/-- One move of the environment. -/
def env (w : World) : Env → Option (World × Forks)
  | .tick d => some ({ w with clock := w.clock + d }, [])
  | .start p t =>
    if (w.kind p).isIdle then
      some ({ w with kind := Function.update w.kind p (.task t) }, [(p, t.program)])
    else none
  | .take p =>
    let s := w.stream p
    match (w.kind p).isTask && s.iterating, s.pushed[s.taken]? with
    | true, some item =>
      some (w.setStream p { s with taken := s.taken + 1, iterating := !item.ends }, [])
    | _, _ => none
  | .close p =>
    if (w.kind p).isTask then
      some (w.setStream p { w.stream p with iterating := false }, [])
    else none
  | .shutdown worker =>
    some ({ w with closing := Function.update w.closing worker true }, [])

def machine : Machine World Op Res Exn Answer Choice Env := ⟨exec, env⟩

/-- An empty schema, no task started. -/
def World.initial (clock : Time) : World where
  clock := clock
  db := .empty
  session := fun _ => none
  holder := fun _ => none
  inserting := []
  kind := fun _ => .idle
  mint := fun _ => none
  runId := fun _ => none
  armed := fun _ => false
  stream := fun _ => .empty
  source := fun _ => none
  acked := fun _ => []
  cleanup := fun _ => none
  settled := fun _ => none
  resolving := fun _ => none
  premature := fun _ => false
  closing := fun _ => false
  log := []

abbrev Cfg := Config World Op Res Exn Answer

def Cfg.initial (clock : Time) : Cfg := ⟨.initial clock, fun _ => none⟩

end AgentRuntimeKit
