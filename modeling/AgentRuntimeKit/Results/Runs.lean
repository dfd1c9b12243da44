import AgentRuntimeKit.Protocol.History

/-!
# The run state machine

Callers start anything here: any store call with any arguments, besides invocations and streams.
Whatever they do, from an empty schema and under a clock that only moves forward, runs follow one
state machine.

* A terminal row never changes again.
* An active row changes for the holder of its owner token before the end of its lease, or it expires
  at that end or after it.
* A thread has at most one active row.
* A row has a response iff it succeeded, and it succeeded before the end of its lease.

The time of a change is the last reading of the database clock in its transaction, which holds the
lock of the thread at that time and until it commits. Between reading and commit the clock may move
on, so a row may be seen to change later than its lease ends; the fence is about the reading.

The last two items are part of the invariant of the tables (`DbOk`). The first two are about steps:
only a commit changes a table, and what a transaction may have written to a row is one of the moves
of `RowMove`, for which `RowMove.fenced` finds the fence. From a step it goes to whole runs by
`Reachable.preserved`.

## Results

* `RowMove.fenced`       — every move of a row is fenced.
* `terminal_stays`       — a terminal row is for ever.
* `Evolution.changes`    — a step changes a row only in a fenced transaction.
* `Reachable.runMachine` — the state machine.
-/

namespace AgentRuntimeKit

open Lib

/-- The owner token that a call carries. -/
def Call.ownerToken : Call → Option Uuid
  | .transition _ _ token _ _ | .complete _ token _ _ | .failIfRunning _ token _ _ => some token
  | _ => none

/-- A transaction that changes an active row: for its owner within the lease, or as an expiry
at the end of the lease or after it. -/
inductive Fenced (σ : Session) (now : Time) (old : RunRow) : RunRow → Prop
  | owner {new : RunRow} {token : Uuid} {lease : Time} (htoken : old.ownerToken = some token)
      (hcarries : σ.call.ownerToken = some token) (hlease : old.leaseExpiresAt = some lease)
      (hbefore : now < lease) : Fenced σ now old new
  | expired {lease : Time} (hlease : old.leaseExpiresAt = some lease) (hafter : lease ≤ now) :
      Fenced σ now old { old with
        status := .failed
        errorCode := some "owner_lease_expired"
        completedAt := some now
        response := none }

/-- The transaction `σ` of `q` commits in this step and changes one row, having read the clock
at `now` under the lock of the thread. -/
structure Changes (w w' : World) (q : Pid) (σ : Session) (now : Time) (old new : RunRow) :
    Prop where
  session : w.session q = some σ
  log : w'.log = .commit σ w.db :: w.log
  reading : σ.now = some now
  clock : now ≤ w.clock
  lock : w.holder (.thread old.threadId) = some q
  row : new ∈ w'.db.runs
  same : SameRun old new
  fenced : Fenced σ now old new

/-- The four clauses of the state machine, in one configuration. -/
structure RunMachine (c : Cfg) : Prop where
  /-- On every continuation, the row of a terminal run is what it is now. -/
  terminal : ∀ c', machine.Reaches (Legal false) c c' → ∀ r ∈ c.world.db.runs,
    r.status.isActive = false → ∀ r', r' ∈ c'.world.db.runs ∧ r'.id = r.id ↔ r' = r
  /-- In one move, an active row stays what it is, or it is changed by a fenced transaction. -/
  active : ∀ mv c', machine.step c mv = some c' → ∀ r ∈ c.world.db.runs,
    r.status.isActive = true → r ∈ c'.world.db.runs ∨
      ∃ q σ now r', Changes c.world c'.world q σ now r r'
  slot : ∀ r ∈ c.world.db.runs, ∀ r' ∈ c.world.db.runs, r.threadId = r'.threadId →
    r.status.isActive = true → r'.status.isActive = true → r = r'
  response : ∀ r ∈ c.world.db.runs, (r.response.isSome = true ↔ r.status = .succeeded) ∧
    (r.status = .succeeded → ∃ done lease, r.completedAt = some done ∧
      r.leaseExpiresAt = some lease ∧ done < lease)

section Runs

variable {c : Cfg}

/-- An active row that does not expire is still inside its lease. -/
theorem expire_none {row : RunRow} {now lease : Time} (h : expire row now = none)
    (hactive : row.status.isActive = true) (hlease : row.leaseExpiresAt = some lease) :
    now < lease := by
  unfold expire at h
  split at h
  · exact absurd h (by simp)
  · next hnot =>
    have hlive : ¬lease ≤ now := by simpa [hactive, Db.leaseExpired, hlease] using hnot
    exact Nat.lt_of_not_le hlive

theorem leaseExpired_some {row : RunRow} {now : Time} (h : Db.leaseExpired row now = true) :
    ∃ lease, row.leaseExpiresAt = some lease ∧ lease ≤ now := by
  unfold Db.leaseExpired at h
  split at h
  · next lease hlease => exact ⟨lease, hlease, of_decide_eq_true h⟩
  · exact absurd h Bool.false_ne_true

/-- Every move of a row is fenced. -/
theorem RowMove.fenced {σ : Session} {now : Time} {old new : RunRow}
    (h : RowMove σ.call now old new) (hok : RowOk old) : Fenced σ now old new := by
  have hactive := h.active
  cases h with
  | expire h =>
    obtain ⟨-, hexpired, rfl⟩ := expire_some h
    obtain ⟨lease, hlease, hafter⟩ := leaseExpired_some hexpired
    exact .expired hlease hafter
  | transition hcall howner =>
    obtain ⟨htoken, lease, hlease, hbefore⟩ := ownedBy_active howner hactive
    exact .owner htoken (by rw [hcall]; rfl) hlease hbefore
  | complete hcall howner =>
    obtain ⟨htoken, lease, hlease, hbefore⟩ := ownedBy_active howner hactive
    exact .owner htoken (by rw [hcall]; rfl) hlease hbefore
  | settle hcall _ _ hlive htoken =>
    obtain ⟨lease, hlease⟩ := Option.isSome_iff_exists.mp (hok.owner hactive).2
    exact .owner htoken (by rw [hcall]; rfl) hlease (expire_none hlive hactive hlease)

theorem terminal_stays (h : Reachable false c) {c' : Cfg}
    (hr : machine.Reaches (Legal false) c c') {r : RunRow} (hrow : r ∈ c.world.db.runs)
    (hterminal : r.status.isActive = false) (r' : RunRow) :
    r' ∈ c'.world.db.runs ∧ r'.id = r.id ↔ r' = r := by
  have hkept : r ∈ c'.world.db.runs := h.preserved (A := fun w => r ∈ w.db.runs)
    (fun w w' hi _ hevo hmem => hevo.terminal hi.db hmem hterminal) hr hrow
  constructor
  · intro hr'
    exact (h.reaches hr).inv.db.unique_id hr'.1 hkept hr'.2
  · intro heq
    rw [heq]
    exact ⟨hkept, rfl⟩

/-- A step changes a row only in a fenced transaction. -/
theorem Evolution.changes {priv : Bool} {w w' : World} (h : Evolution w w') (hinv : Inv priv w)
    {r : RunRow} (hr : r ∈ w.db.runs) : r ∈ w'.db.runs ∨
      ∃ q σ now r', Changes w w' q σ now r r' := by
  rcases h.row hinv.db hr with hkept | ⟨q, σ, r', hc, hr', now, hnow, hlock, hmove⟩
  · exact Or.inl hkept
  · refine Or.inr ⟨q, σ, now, r', hc.session, hc.log, hnow, ?_, hlock, hr', hmove.unmoved,
      hmove.fenced (hinv.db.rows r hr)⟩
    exact (((hinv.proc q).session σ hc.session).now now hnow).2

/-- **The fenced run state machine**, whatever store calls are made with whatever arguments. -/
theorem Reachable.runMachine (h : Reachable false c) : RunMachine c where
  terminal _ hr _ hrow hterminal := terminal_stays h hr hrow hterminal
  active mv _ hs _ hr _ := (h.evolution (legal_false c mv) hs).changes h.inv hr
  slot _ hr _ hr' hthread ha ha' := h.inv.db.unique_active hr hr' hthread ha ha'
  response r hr := ⟨(h.inv.db.rows r hr).response, (h.inv.db.rows r hr).fenced⟩

end Runs

-- ---------------------------------------------------------------------------
-- A sample run
-- ---------------------------------------------------------------------------

namespace Sample

def agent : AgentDescriptor := ⟨"agent", "1", .native, ∅⟩

def runtime : Runtime where
  worker := 0
  agents := fun id => if id = "agent" then some ⟨agent, true⟩ else none
  namespace_ := "default"
  timeout := 30000000
  cleanupTimeout := 5000000
  contextWindow := none
  streamHistory := false
  encode := fun _ => .ok []
  requestHash := fun _ => "hash"
  validAgents := by
    intro id invoker h
    split at h
    · next hid =>
      rw [hid, ← Option.some.inj h]
      rfl
    · exact absurd h (by simp)
  validTimeouts := by decide
  validEncode := fun _ _ h => absurd h (by simp)
  validHistory := by decide

def request : RuntimeRequest := ⟨20, none, none, [.user 1 default], []⟩

def reply : Message := ⟨2, .assistant, [.text default], by decide, by decide⟩

def output : InvocationOutput := ⟨[reply], [], none, []⟩

/-- `n` operations of `p` that take place. -/
def ok (p : Pid) (n : Nat) : List (Move Choice Env) := List.replicate n (.run p .ok)

/-- One keyed invocation on a new thread, from its start to its response. -/
def invocation : List (Move Choice Env) :=
  -- the call, its owner token, its thread and its run
  .env (.start 1 (.invoke runtime "agent" request (some "key"))) :: ok 1 1 ++
    .run 1 (.uuid 30) :: ok 1 2 ++ .run 1 (.uuid 100) :: ok 1 4 ++ .run 1 (.uuid 10) ::
  -- `claim`, `transition`, the history, and the invoker
    ok 1 19 ++ .run 1 (.output output) :: ok 1 1 ++ .run 1 (.trace none) ::
  -- `complete`
    ok 1 12 ++ [.run 1 (.flag false)]

set_option maxRecDepth 4000 in
/-- Where `invocation` ends. -/
def invoked : Cfg := (machine.run (Cfg.initial 0) invocation).get (by decide)

theorem reachable_invoked (priv : Bool) : Reachable priv invoked :=
  .of_schedule (by decide) (Option.some_get _).symm

end Sample

set_option maxRecDepth 4000 in
/-- The state machine at the end of the sample run, where the run has succeeded. -/
theorem Sample.runMachine_invoked :
    Sample.invoked.world.db.runs.map RunRow.status = [.succeeded] ∧ RunMachine Sample.invoked := by
  constructor
  · decide
  · exact (Sample.reachable_invoked false).runMachine

end AgentRuntimeKit
