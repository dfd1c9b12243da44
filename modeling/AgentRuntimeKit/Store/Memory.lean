import AgentRuntimeKit.Machine.World

/-!
# The conversation store

`PostgresMemoryStore` (`memory/postgres.py`) as far as the runtime uses it, and
`append_message_batch` (`memory/_message_batch.py`), which `PostgresRunStore.complete`
shares. `_execute` never gives `create_thread` an external key, so that branch is
not modelled.
-/

namespace AgentRuntimeKit

open Lib

/-- `str(uuid)`. -/
def Uuid.text (u : Uuid) : String :=
  let digits := u.toHex.toList
  String.ofList (digits.take 8 ++ '-' :: (digits.drop 8).take 4 ++ '-' :: (digits.drop 12).take 4 ++
    '-' :: (digits.drop 16).take 4 ++ '-' :: digits.drop 20)

def threadNotFound (threadId : Uuid) : Exn :=
  .kit .threadNotFound s!"Thread '{threadId.text}' does not exist"

/-- `async with self._sessions.begin() as session`: commit on a normal exit, roll back
and raise again otherwise. -/
def inTransaction {α : Type} (call : Call) (body : P α) : P α := do
  perform (.begin call)
  match ← body.attempt with
  | .ok a => do
    perform .commit
    pure a
  | .error e => do
    perform .rollback
    throw e

/-- The rows of a batch, numbered from `lastSequence + 1`. -/
def numbered (threadId : Uuid) : Nat → List Message → List MessageRow
  | _, [] => []
  | last, m :: rest => ⟨threadId, last + 1, m⟩ :: numbered threadId (last + 1) rest

/-- `append_message_batch`. -/
def appendMessageBatch (threadId : Uuid) (messages : List Message)
    (namespace_ : Option String) : P (List MessageRow) := do
  match ← perform (.lockThread threadId namespace_) with
  | none => throw (threadNotFound threadId)
  | some _ =>
    match messages with
    | [] => pure []
    | _ => do
      let last ← perform (.lastSequence threadId)
      let rows := numbered threadId last messages
      perform (.insertMessages rows)
      pure rows

/-- `_append_messages`. -/
def appendMessages (threadId : Uuid) (messages : List Message)
    (namespace_ : Option String) : P (List MessageRow) :=
  inTransaction (.appendMessages threadId messages namespace_)
    (appendMessageBatch threadId messages namespace_)

/-- `create_thread` without an external key. -/
def createThread (namespace_ : String) (userKey : Option String) : P ThreadRow := do
  let threadId ← perform .uuid4
  inTransaction (.createThread namespace_ userKey) do
    perform (.insertThread ⟨threadId, namespace_, userKey⟩)
    match ← perform (.getThread threadId none) with
    | some row => pure row
    | none => throw (.py .noResultFound "No row was found when one was required")

/-- `get_thread`. -/
def getThread (threadId : Uuid) (namespace_ : Option String) : P (Option ThreadRow) :=
  perform (.getThread threadId namespace_)

/-- The thread check that opens `_get_messages` and `stream_messages`. -/
def requireThread (threadId : Uuid) (namespace_ : String) : P Unit := do
  match ← perform (.getThread threadId (some namespace_)) with
  | some _ => pure ()
  | none => throw (threadNotFound threadId)

/-- `_get_messages`, as the messages themselves. -/
def getMessages (threadId : Uuid) (namespace_ : String) : P (List Message) := do
  requireThread threadId namespace_
  let rows ← perform (.transcript threadId)
  pure (rows.map MessageRow.message)

/-- `rows.partitions(256)`. -/
def partitions {α : Type} (n : Nat) : Nat → List α → List (List α)
  | 0, _ => []
  | fuel + 1, xs =>
    if xs.isEmpty then [] else xs.take n :: partitions n fuel (xs.drop n)

end AgentRuntimeKit
