import AgentRuntimeKit.Protocol.Answers
import AgentRuntimeKit.Protocol.ScopedTasks
import AgentRuntimeKit.Protocol.Threads
import AgentRuntimeKit.Results.Runs

/-!
# Namespaces

Any number of runtimes share one database, agent identifiers and idempotency keys. A runtime never
reaches out of its namespace: what its invocations and their clean-ups commit leaves all threads of
other namespaces as they were, with their messages and runs, and what it shows to hooks, to the
invoker and to its caller comes from its own threads.

The result is about every reachable configuration and every process that acts for a runtime
(`ActsIn`), an invocation, a stream or a clean-up. Requests may name threads of other namespaces,
and keys may be in use by them; store calls by others are those that name no run of their own.
Nothing is assumed of invokers and hooks.

A thread has one namespace, from its insertion on, as rows of threads never change
(`InNamespace.unique`). Each statement of a turn that finds a thread or a run is confined by it: by
the namespace in the statement, by the thread of the run, or by the owner token. `Confined` says so
of the programs, operation by operation, and the invariant `scoped` keeps what they have
read, written and answered within.

## Results

* `Reachable.sameElsewhere`  — a commit changes nothing elsewhere.
* `Reachable.namespaceKept`  — what a process has done and does next concerns its namespace alone.
-/

namespace AgentRuntimeKit

open Lib

/-- The same tables, but for the threads of one namespace, with their messages and runs. -/
structure SameElsewhere (name : String) (db db' : Db) : Prop where
  threads : ∀ row : ThreadRow, row.namespace_ ≠ name → (row ∈ db'.threads ↔ row ∈ db.threads)
  messages : ∀ row : MessageRow, ¬InNamespace name row.threadId db' →
    (row ∈ db'.messages ↔ row ∈ db.messages)
  runs : ∀ row : RunRow, ¬InNamespace name row.threadId db' → (row ∈ db'.runs ↔ row ∈ db.runs)

/-- The messages that a runtime hands to hooks and to the invoker before the invoker answers. -/
def Op.handedOn : Op → List Message
  | hook .beforeModel messages | awaitInvoker messages | openSource messages => messages
  | _ => []

/-- The runs with this identifier lie in the namespace, and there is one. -/
structure OnlyIn (name : String) (runId : Uuid) (db : Db) : Prop where
  found : ∃ r ∈ db.runs, r.id = runId
  within : ∀ r ∈ db.runs, r.id = runId → InNamespace name r.threadId db

/-- What `p` has done and does next concerns this namespace alone. -/
structure NamespaceKept (c : Cfg) (p : Pid) (name : String) : Prop where
  /-- No thread belongs to two namespaces. -/
  apart : ∀ t other, InNamespace name t c.world.db → InNamespace other t c.world.db → other = name
  commits : ∀ σ before, .commit σ before ∈ c.world.log → σ.client = p →
    SameElsewhere name before (before.after σ.writes)
  /-- The messages handed on are those of the request, or stored in the namespace. -/
  handed : ∀ o k, c.procs p = some (.op o k) → ∀ m ∈ o.handedOn, Supplied name p m c.world
  /-- The hooks after the model see what the invoker has put out. -/
  heard : ∀ messages k, c.procs p = some (.op (.hook .afterModel messages) k) →
    Heard p messages c.world
  answered : ∀ response, HasAnswered c p response → OnlyIn name response.runId c.world.db
  streamed : ∀ item ∈ (c.world.stream p).pushed, ∀ runId, item.runId = some runId →
    OnlyIn name runId c.world.db

section Namespaces

variable {c c₀ : Cfg} {p q : Pid} {name : String} {σ : Session} {w : World}

theorem RunWithin.onlyIn {runId : Uuid} (h : RunWithin name runId w.db) (hdb : DbOk w.db) :
    OnlyIn name runId w.db := by
  obtain ⟨r, hr, hid, ht⟩ := h
  refine ⟨⟨r, hr, hid⟩, fun r' hr' hid' => ?_⟩
  rw [hdb.unique_id hr' hr (hid'.trans hid.symm)]
  exact ht

/-- The namespace in which a process acts is one in which it has acted since it started. -/
theorem ActsIn.earlier (h : ActsIn name p c.world) (hc : Reachable true c₀)
    (hr : machine.Reaches (Legal true) c₀ c) (hstarted : c₀.world.kind p ≠ .idle) :
    ActsIn name p c₀.world := by
  by_contra hnot
  have hkept := hc.preserved (A := fun w => w.kind p ≠ .idle ∧ ¬ActsIn name p w)
    (fun w w' hi _ hevo hw => ?_) hr ⟨hstarted, hnot⟩
  · exact hkept.2 h
  · refine ⟨?_, fun hacts => hw.2 (hacts.before hi hevo hw.1)⟩
    rw [hevo.kind p hw.1]
    exact hw.1

-- ---------------------------------------------------------------------------
-- Commits
-- ---------------------------------------------------------------------------

/-- A thread after some writes was there before, or one of them wrote it. -/
theorem Db.mem_threads_after {db : Db} {xs : List Write} {row : ThreadRow}
    (h : row ∈ (db.after xs).threads) : row ∈ db.threads ∨ .insertThread row ∈ xs := by
  induction xs generalizing db with
  | nil => exact Or.inl h
  | cons x rest ih =>
    rcases ih h with hold | hnew
    · cases x with
      | insertThread new =>
        rcases List.mem_append.mp hold with hold | hmem
        · exact Or.inl hold
        · rw [List.mem_singleton.mp hmem]
          exact Or.inr List.mem_cons_self
      | _ => exact Or.inl hold
    · exact Or.inr (List.mem_cons_of_mem _ hnew)

/-- A message after some writes was there before, or one of them wrote it. -/
theorem Db.mem_messages_after {db : Db} {xs : List Write} {row : MessageRow}
    (h : row ∈ (db.after xs).messages) :
    row ∈ db.messages ∨ ∃ rows, .insertMessages rows ∈ xs ∧ row ∈ rows := by
  induction xs generalizing db with
  | nil => exact Or.inl h
  | cons x rest ih =>
    rcases ih h with hold | ⟨rows, hrows, hrow⟩
    · cases x with
      | insertMessages rows =>
        rcases List.mem_append.mp hold with hold | hmem
        · exact Or.inl hold
        · exact Or.inr ⟨rows, List.mem_cons_self, hmem⟩
      | _ => exact Or.inl hold
    · exact Or.inr ⟨rows, List.mem_cons_of_mem _ hrows, hrow⟩

/-- Writes within a namespace change nothing elsewhere. -/
theorem Staged.sameElsewhere (h : Staged w q σ) (hdb : DbOk w.db)
    (hwithin : ∀ x ∈ σ.writes, x.Within name w.db) :
    SameElsewhere name w.db (w.db.after σ.writes) := by
  have hlater : ∀ t, ¬InNamespace name t (w.db.after σ.writes) → ¬InNamespace name t w.db :=
    fun t hout ht => hout (ht.after σ.writes)
  refine ⟨fun row hname => ⟨fun hrow => ?_, fun hrow => Db.threads_after _ _ hrow⟩,
    fun row hout => ⟨fun hrow => ?_, fun hrow => Db.messages_after _ _ hrow⟩,
    fun row hout => ⟨fun hrow => ?_, fun hrow => ?_⟩⟩
  · rcases Db.mem_threads_after hrow with hold | hnew
    · exact hold
    · exact absurd (hwithin _ hnew) hname
  · rcases Db.mem_messages_after hrow with hold | ⟨rows, hrows, hmem⟩
    · exact hold
    · exact absurd (hwithin _ hrows row hmem) (hlater _ hout)
  · rcases Db.mem_runs_after hrow with hold | hupdate | hinsert
    · exact hold
    · exact absurd (hwithin _ hupdate) (hlater _ hout)
    · exact absurd (hwithin _ hinsert) (hlater _ hout)
  · -- a row that moves is written, and stays on its thread
    rcases h.forward hdb hrow with hkept | ⟨new, hnew, now, -, -, hmove⟩
    · exact hkept
    · have ht : new.threadId = row.threadId := hmove.unmoved.threadId
      rcases Db.mem_runs_after hnew with hold | hupdate | hinsert
      · rw [hdb.unique_id hrow hold hmove.unmoved.id.symm]
        exact hnew
      · exact absurd (ht ▸ hwithin _ hupdate) (hlater _ hout)
      · exact absurd (ht ▸ hwithin _ hinsert) (hlater _ hout)

/-- What a process has committed for its namespace. -/
theorem Reachable.sameElsewhere (h : Reachable true c) (hacts : ActsIn name σ.client c.world)
    {before : Db} (hlog : .commit σ before ∈ c.world.log) :
    SameElsewhere name before (before.after σ.writes) := by
  obtain ⟨newer, older, hsplit⟩ := List.append_of_mem hlog
  obtain ⟨c₀, hc₀, hreach, -, rfl, q, hsession, hstaged⟩ := h.past hsplit
  have hstarted := ((hc₀.inv.proc q).session σ hsession).started
  have hbefore := hacts.earlier hc₀ hreach hstarted
  exact hstaged.sameElsewhere hc₀.inv.db (hc₀.scoped.writes q σ name hsession hbefore)

-- ---------------------------------------------------------------------------
-- The result
-- ---------------------------------------------------------------------------

theorem Reachable.answeredWithin (h : Reachable true c) (hacts : ActsIn name p c.world)
    {response : RuntimeResponse} (ha : HasAnswered c p response) :
    RunWithin name response.runId c.world.db := by
  unfold HasAnswered at ha
  split at ha
  · exact h.answeredIn ha response name rfl hacts
  · exact h.scoped.streamed p name hacts _ ha response.runId rfl
  · exact ha.elim

/-- **Namespace confinement**: commits, messages handed on, responses and stream items of a process
that acts in a namespace concern the threads of that namespace alone. -/
theorem Reachable.namespaceKept (h : Reachable true c) (hacts : ActsIn name p c.world) :
    NamespaceKept c p name where
  apart _ _ ht hother := InNamespace.unique h.threaded.ids hother ht
  commits _ _ hlog hclient := h.sameElsewhere (hclient ▸ hacts) hlog
  handed o _ hp := by
    have hwithin := (h.confined hp).within name hacts
    cases o with
    | hook phase messages =>
      cases phase with
      | beforeModel => exact hwithin
      | afterModel => exact fun m hm => absurd hm List.not_mem_nil
    | awaitInvoker messages => exact hwithin
    | openSource messages => exact hwithin
    | _ => exact fun m hm => absurd hm List.not_mem_nil
  heard _ _ hp := (h.confined hp).within name hacts
  answered _ ha := (h.answeredWithin hacts ha).onlyIn h.inv.db
  streamed item hitem runId hrun :=
    (h.scoped.streamed p name hacts item hitem runId hrun).onlyIn h.inv.db

end Namespaces

-- ---------------------------------------------------------------------------
-- A sample run
-- ---------------------------------------------------------------------------

namespace Sample

/-- A runtime with the same agents and another namespace. -/
def neighbour : Runtime := { runtime with namespace_ := "neighbour" }

/-- The key of the finished run, used in the other namespace. -/
def intrusion : List (Move Choice Env) :=
  .env (.start 2 (.invoke neighbour "agent" request (some "key"))) :: ok 2 1 ++
    .run 2 (.uuid 31) :: ok 2 4 ++ .run 2 (.flag false) :: ok 2 1

set_option maxRecDepth 4000 in
/-- Where `intrusion` ends. -/
def intruded : Cfg := (machine.run invoked intrusion).get (by decide)

theorem reachable_intruded : Reachable true intruded :=
  (reachable_invoked true).reaches
    (.of_run (fun c mv hmv => legal_of_isRuntimeMove
      (List.all_eq_true.mp (show intrusion.all isRuntimeMove = true by decide) mv hmv) c)
      (Option.some_get _).symm)

end Sample

set_option maxRecDepth 4000 in
/-- The thread of the run is not found in the other namespace, and nothing is written. -/
theorem Sample.namespaceKept_intruded :
    HasRaised Sample.intruded 2 (threadNotFound 100) ∧
      NamespaceKept Sample.intruded 2 "neighbour" := by
  refine ⟨?_, Sample.reachable_intruded.namespaceKept (Or.inl rfl)⟩
  show Sample.intruded.procs 2 = some (.done (.error (threadNotFound 100)))
  rfl

end AgentRuntimeKit
