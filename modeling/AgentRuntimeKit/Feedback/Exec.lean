import AgentRuntimeKit.Feedback.Record
import AgentRuntimeKit.Machine.Exec

/-!
# The feedback store at work

Calls of `record` against the table of feedback, next to the run store with everything that runs
against it. Each statement sees what is committed when it starts (read committed), and what its
own transaction has inserted.

* An insert waits for open transactions that have inserted the same key or the same identifier.
* A failed `COMMIT` may have taken effect (`lost`), or may still do so later (`late`): its row then
  belongs to nobody until the server settles it.
* `now()` is the time at which the transaction began, so that this is a row's `created_at`.
-/

namespace AgentRuntimeKit.Feedback

open Lib

structure World where
  /-- The run store, with all that runs against it. -/
  store : AgentRuntimeKit.Cfg
  /-- The committed rows, in the order of their commits. -/
  rows : List FeedbackRow
  /-- The submission that a process records. -/
  task : Pid → Option FeedbackSubmission
  /-- When the open transaction of a process began. -/
  begun : Pid → Option Time
  /-- The rows of open transactions. -/
  inserted : List (Option Pid × FeedbackRow)

namespace World

variable (w : World)

def clock : Time := w.store.world.clock

/-- The rows that the transaction of `p` has inserted. -/
def own (p : Pid) : List FeedbackRow :=
  (w.inserted.filter fun entry => entry.1 = some p).map Prod.snd

/-- The table as `p` sees it. -/
def view (p : Pid) : List FeedbackRow := w.rows ++ w.own p

/-- An open transaction of somebody else has inserted the key or the identifier. -/
def awaits (p : Pid) (row : FeedbackRow) : Bool :=
  w.inserted.any fun entry => entry.1 ≠ some p &&
    (entry.2.idempotencyKey = row.idempotencyKey || entry.2.id = row.id)

/-- Some transactions end. -/
def finish (ends : Option Pid × FeedbackRow → Bool) (committed : Bool) : World :=
  { w with
    rows := w.rows ++ if committed then (w.inserted.filter ends).map Prod.snd else []
    inserted := w.inserted.filter fun entry => !ends entry }

/-- The transaction of `p` ends. -/
def endSession (p : Pid) (committed : Bool) : World :=
  { w.finish (fun entry => entry.1 = some p) committed with
    begun := Function.update w.begun p none }

/-- The transaction of `p` outlives its client. -/
def abandon (p : Pid) : World :=
  { w with
    begun := Function.update w.begun p none
    inserted := w.inserted.map fun entry => if entry.1 = some p then (none, entry.2) else entry }

/-- The server settles an abandoned row. -/
def settle (id : Uuid) (committed : Bool) : World :=
  w.finish (fun entry => entry.1 = none && entry.2.id = id) committed

end World

/-- How a statement turns out. -/
inductive Choice
  | ok
  | fail (e : Exn)
  /-- `COMMIT` took effect, but the client sees an exception. -/
  | lost (e : Exn)
  /-- The client sees an exception while `COMMIT` is still under way. -/
  | late (e : Exn)

/-- What may happen by itself. -/
inductive Env
  | start (p : Pid) (submission : FeedbackSubmission)
  /-- A move of the run store, or of what runs against it. -/
  | store (mv : Move AgentRuntimeKit.Choice AgentRuntimeKit.Env)
  | settle (id : Uuid) (committed : Bool)

abbrev Forks := List (Pid × P FeedbackRecord)

def foreignKeyViolation : Exn :=
  .py .integrityError "insert or update violates foreign key constraint"

/-- An answer. -/
def answer {o : Op} (r : Except Exn (Res o)) (w : World) :
    Option (Except Exn (Res o) × World × Forks) := some (r, w, [])

/-- A statement that is executed. -/
def execOk (p : Pid) (w : World) : (o : Op) → Option (Except Exn (Res o) × World × Forks)
  | .begin =>
    if (w.begun p).isNone then
      answer (.ok ()) { w with begun := Function.update w.begun p (some w.clock) }
    else none
  | .byKey key => answer (.ok ((w.view p).filter fun row => row.idempotencyKey = key)) w
  | .run runId => answer (.ok (w.store.world.db.runs.filter fun row => row.id = runId)) w
  | .byId id => answer (.ok ((w.view p).filter fun row => row.id = id)) w
  | .insert row =>
    match w.begun p with
    | some begun =>
      let stored := { row with createdAt := begun }
      -- the arbiter index decides first
      if (w.view p).any fun other => other.idempotencyKey = row.idempotencyKey then
        answer (.ok none) w
      else if w.awaits p row then none
      else if (w.view p).any fun other => other.id = row.id then answer (.error uniqueViolation) w
      else if !(w.store.world.db.runs.any fun run => run.id = row.runId) ||
          !(row.supersedesFeedbackId.all fun id => (w.view p).any fun other => other.id = id) then
        answer (.error foreignKeyViolation) w
      else answer (.ok (some stored)) { w with inserted := w.inserted ++ [(some p, stored)] }
    | none => none
  | .commit => answer (.ok ()) (w.endSession p true)
  | .rollback => answer (.ok ()) (w.endSession p false)

/-- One statement of `p`. -/
def exec (p : Pid) (w : World) :
    (o : Op) → Choice → Option (Except Exn (Res o) × World × Forks)
  | o, .ok => execOk p w o
  | .commit, .fail e =>
    if e.isForeign then answer (.error e) (w.endSession p false) else none
  | .rollback, .fail e =>
    if e.isForeign then answer (.error e) (w.endSession p false) else none
  | _, .fail e => if e.isForeign then answer (.error e) w else none
  | .commit, .lost e => if e.isForeign then answer (.error e) (w.endSession p true) else none
  | .commit, .late e => if e.isForeign then answer (.error e) (w.abandon p) else none
  | _, _ => none

/-- One move of the environment. -/
def env (payloadHash : FeedbackSubmission → String) (w : World) : Env → Option (World × Forks)
  | .start p submission =>
    if (w.task p).isNone then
      some ({ w with task := Function.update w.task p (some submission) },
        [(p, record payloadHash submission)])
    else none
  | .store mv => (AgentRuntimeKit.machine.step w.store mv).map fun store => ({ w with store }, [])
  | .settle id committed => some (w.settle id committed, [])

def machine (payloadHash : FeedbackSubmission → String) :
    Machine World Op Res Exn FeedbackRecord Choice Env := ⟨exec, env payloadHash⟩

abbrev Cfg := Config World Op Res Exn FeedbackRecord

/-- An empty schema. -/
def World.initial (clock : Time) : World where
  store := .initial clock
  rows := []
  task := fun _ => none
  begun := fun _ => none
  inserted := []

def Cfg.initial (clock : Time) : Cfg := ⟨.initial clock, fun _ => none⟩

/-- Any submission, and any move of the run store. -/
def AnyMove (_ : Cfg) (_ : Move Choice Env) : Prop := True

/-- Configurations that any moves lead to, from an empty schema. -/
def Reachable (payloadHash : FeedbackSubmission → String) (c : Cfg) : Prop :=
  ∃ clock, (machine payloadHash).Reaches AnyMove (Cfg.initial clock) c

end AgentRuntimeKit.Feedback
