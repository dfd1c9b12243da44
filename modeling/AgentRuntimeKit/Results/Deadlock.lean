import AgentRuntimeKit.Protocol.Locks
import AgentRuntimeKit.Results.Claims

/-!
# No deadlock in the run store

The calls of the run store lock rows and insert rows under unique keys, each in one transaction. A
transaction waits for the one that holds a row lock, or that has inserted a key which is not
committed. If two of them could wait for each other, the database would break one of them off.

`WaitsFor` reads this off the statement that a process is about to send (`Blocks`); `blocked_iff`
says that there is nothing else to wait for. The results are about every configuration that any
number of concurrent store calls reach, with any arguments, also those that break the rules of the
runtime; statements may fail and connections may be lost at any time. Calls use one transaction each
and never start another one inside.

Each call performs its operations in order (`Protocol/Locks`), so that:

* whoever waits for a thread holds nothing yet;
* whoever waits to insert has inserted nothing;
* the lock on a run comes with the one on its thread.

So nobody waits for a run, and waits end after two: for a thread, then for an insert (`rank`).

## Results

* `blocked_iff`     — a statement is blocked iff it has somebody to wait for.
* `no_deadlock`     — the waits-for relation of store calls has no cycle.
* `waits_end`       — whoever waits does so for somebody who does not.
-/

namespace AgentRuntimeKit

open Lib Prog Relation

/-- The operation of `p` has to wait for `q`. A row that is to be inserted is in nobody's way
before all its keys are free: no two calls insert one message, or one request. -/
def Blocks (w : World) (p q : Pid) : Op → Prop
  | .lockThread id namespace_ =>
    ((w.view p).thread? id namespace_).isSome = true ∧ w.holder (.thread id) = some q
  | .lockRun runId => w.holder (.run runId) = some q
  | .lockActiveRuns threadId =>
    ∃ row ∈ (w.view p).activeRuns threadId, w.holder (.run row.id) = some q
  | .insertRun row onConflictDoNothing =>
    (onConflictDoNothing = true → (w.view p).runsByKey row.agentId row.idempotencyKey = []) ∧
      ∃ k ∈ row.keys, (q, k) ∈ w.inserting
  | .insertMessages rows => ∃ row ∈ rows, (q, .message row.message.id) ∈ w.inserting
  | .insertThread row => (q, .thread row.id) ∈ w.inserting
  | _ => False

/-- `p` waits for `q`. -/
def WaitsFor (c : Cfg) (p q : Pid) : Prop :=
  q ≠ p ∧ ∃ o k, c.procs p = some (.op o k) ∧ Blocks c.world p q o

instance Blocks.decidable (w : World) (p q : Pid) : (o : Op) → Decidable (Blocks w p q o)
  | .lockThread id namespace_ => inferInstanceAs (Decidable
      (((w.view p).thread? id namespace_).isSome = true ∧ w.holder (.thread id) = some q))
  | .lockRun runId => inferInstanceAs (Decidable (w.holder (.run runId) = some q))
  | .lockActiveRuns threadId => inferInstanceAs (Decidable
      (∃ row ∈ (w.view p).activeRuns threadId, w.holder (.run row.id) = some q))
  | .insertRun row quiet => inferInstanceAs (Decidable
      ((quiet = true → (w.view p).runsByKey row.agentId row.idempotencyKey = []) ∧
        ∃ k ∈ row.keys, (q, k) ∈ w.inserting))
  | .insertMessages rows => inferInstanceAs (Decidable
      (∃ row ∈ rows, (q, .message row.message.id) ∈ w.inserting))
  | .insertThread row => inferInstanceAs (Decidable ((q, .thread row.id) ∈ w.inserting))
  | .begin _ | .tryLockThread _ | .threadOf _ | .runsByKey _ _ | .now | .updateRun _
  | .lastSequence _ | .getThread _ _ | .transcript _ | .fetch | .closeCursor | .expiredRuns _
  | .commit | .rollback | .setRunId _ | .getRunId | .isClosing _ | .arm | .disarm | .hook _ _
  | .enter _ _ _ | .pull | .closeSource | .put _ | .awaitCleanup _ | .finish _ | .uuid4
  | .awaitInvoker _ | .openSource _ | .traceId | .expired | .resolve
  | .spawnCleanup _ _ _ _ _ => .isFalse fun h => h

instance WaitsFor.decidable (c : Cfg) (p q : Pid) : Decidable (WaitsFor c p q) :=
  match hp : c.procs p with
  | some (.op o k) => decidable_of_iff (q ≠ p ∧ Blocks c.world p q o) (by
      refine and_congr_right fun _ => ⟨fun h => ⟨o, k, hp, h⟩, ?_⟩
      rintro ⟨o', k', hp', h⟩
      rw [hp, Option.some.injEq, Prog.op.injEq] at hp'
      exact hp'.1 ▸ h)
  | some (.done r) => .isFalse fun ⟨_, o, k, hp', _⟩ => absurd (hp.symm.trans hp') (by simp)
  | none => .isFalse fun ⟨_, o, k, hp', _⟩ => absurd (hp.symm.trans hp') (by simp)

-- ---------------------------------------------------------------------------
-- What blocks
-- ---------------------------------------------------------------------------

section Blocks

variable {p q : Pid} {w : World}

theorem not_free_iff {k : LockKey} : w.free p k = false ↔ ∃ q, q ≠ p ∧ w.holder k = some q := by
  unfold World.free
  cases w.holder k with
  | none => simp
  | some q => simp

theorem awaits_iff {keys : List UniqueKey} :
    w.awaits p keys = true ↔ ∃ q, q ≠ p ∧ ∃ k ∈ keys, (q, k) ∈ w.inserting := by
  unfold World.awaits
  simp only [List.any_eq_true, Bool.and_eq_true, decide_eq_true_eq, List.contains_iff_mem]
  constructor
  · rintro ⟨⟨q, k⟩, hmem, hne, hk⟩
    exact ⟨q, hne, k, hk, hmem⟩
  · rintro ⟨q, hne, k, hk, hmem⟩
    exact ⟨(q, k), hmem, hne, hk⟩

/-- A statement of an open transaction is blocked iff it has somebody to wait for. -/
theorem blocked_iff {σ : Session} (hσ : w.session p = some σ) {o : Op}
    (ho : o.isStatement = true) (hbegin : ∀ call, o ≠ .begin call) :
    execOk p w o = none ↔ ∃ q, q ≠ p ∧ Blocks w p q o := by
  cases o with
  | lockThread id namespace_ =>
    simp only [execOk, Blocks]
    cases (w.view p).thread? id namespace_ with
    | none => simp [answer]
    | some row =>
      rw [show (∃ q, q ≠ p ∧ (some row).isSome = true ∧ w.holder (.thread id) = some q) ↔
        w.free p (.thread id) = false by simp [not_free_iff]]
      cases w.free p (.thread id) <;> simp [answer]
  | lockRun runId =>
    simp only [execOk, Blocks]
    rw [← not_free_iff]
    cases w.free p (.run runId) with
    | false => simp
    | true => cases (w.view p).run? runId <;> simp [answer]
  | lockActiveRuns t =>
    simp only [execOk, Blocks]
    split
    · next hall =>
      refine iff_of_false (by simp [answer]) ?_
      rintro ⟨q, hne, row, hrow, hholder⟩
      have hfree := List.all_eq_true.mp hall row hrow
      rw [not_free_iff.mpr ⟨q, hne, hholder⟩] at hfree
      exact absurd hfree Bool.false_ne_true
    · next hall =>
      refine iff_of_true rfl ?_
      obtain ⟨row, hrow, hnot⟩ :
          ∃ row ∈ (w.view p).activeRuns t, w.free p (.run row.id) = false := by
        simpa using hall
      obtain ⟨q, hne, hholder⟩ := not_free_iff.mp hnot
      exact ⟨q, hne, row, hrow, hholder⟩
  | insertRun row quiet =>
    have hkeys : { row with startedAt := σ.begun }.keys = row.keys := rfl
    simp only [execOk, Blocks, hσ, hkeys]
    split
    · next hdecided =>
      -- a row has the key already, and nothing is inserted
      obtain ⟨hquiet, hrows⟩ := Bool.and_eq_true_iff.mp hdecided
      refine iff_of_false (by simp [answer]) ?_
      rintro ⟨q, -, hempty, -⟩
      rw [hempty hquiet] at hrows
      exact absurd hrows (by simp)
    · next hundecided =>
      have hempty : quiet = true → (w.view p).runsByKey row.agentId row.idempotencyKey = [] := by
        simpa using hundecided
      split
      · next hwait =>
        obtain ⟨q, hne, hk⟩ := awaits_iff.mp hwait
        exact iff_of_true rfl ⟨q, hne, hempty, hk⟩
      · next hwait =>
        refine iff_of_false (by split <;> simp [answer]) ?_
        rintro ⟨q, hne, -, hk⟩
        exact hwait (awaits_iff.mpr ⟨q, hne, hk⟩)
  | insertMessages rows =>
    simp only [execOk, Blocks, hσ]
    have hkeys : w.awaits p (rows.map fun row => .message row.message.id) = true ↔
        ∃ q, q ≠ p ∧ ∃ row ∈ rows, (q, .message row.message.id) ∈ w.inserting := by
      simp [awaits_iff]
    rw [← hkeys]
    split
    · next hwait => exact iff_of_true rfl hwait
    · next hwait => exact iff_of_false (by split <;> simp [answer]) hwait
  | insertThread row =>
    simp only [execOk, Blocks, hσ]
    have hkeys : w.awaits p [.thread row.id] = true ↔
        ∃ q, q ≠ p ∧ (q, .thread row.id) ∈ w.inserting := by
      simp [awaits_iff]
    rw [← hkeys]
    split
    · next hwait => exact iff_of_true rfl hwait
    · next hwait => exact iff_of_false (by split <;> simp [answer]) hwait
  | begin call => exact absurd rfl (hbegin call)
  | tryLockThread id =>
    -- `SKIP LOCKED` waits for nobody
    refine iff_of_false ?_ (by simp [Blocks])
    simp only [execOk]
    cases (w.view p).thread? id none with
    | none => simp [answer]
    | some row => cases w.free p (.thread id) <;> simp [answer]
  | _ =>
    first
      | exact absurd ho Bool.false_ne_true
      | simp [execOk, Blocks, hσ, answer]

end Blocks

-- ---------------------------------------------------------------------------
-- Who can wait for whom
-- ---------------------------------------------------------------------------

/-- The next operation of `p` is one of these. -/
def IsAt (c : Cfg) (p : Pid) (P : Op → Prop) : Prop := ∃ o k, c.procs p = some (.op o k) ∧ P o

def Op.locksThread : Op → Bool
  | .lockThread _ _ => true
  | _ => false

section Waits

variable {c : Cfg} {p q : Pid}

/-- To insert is not to lock a thread. -/
theorem IsAt.not_locksThread (h : IsAt c p fun o => o.inserts = true) :
    ¬IsAt c p fun o => o.locksThread = true := by
  rintro ⟨o, k, hp, hlocks⟩
  obtain ⟨o', k', hp', hinserts⟩ := h
  rw [hp, Option.some.injEq, Prog.op.injEq] at hp'
  rw [← hp'.1] at hinserts
  cases o <;> first
    | exact absurd hlocks Bool.false_ne_true
    | exact absurd hinserts Bool.false_ne_true

/-- Whoever waits is about to lock a thread, and holds nothing, or about to insert, and has
inserted nothing. -/
theorem Calls.waits (h : Calls c) (hwait : WaitsFor c p q) :
    (IsAt c p (fun o => o.locksThread = true) ∧ EmptyHanded p c.world ∧
      ∃ k, c.world.holder k = some q) ∨
    (IsAt c p (fun o => o.inserts = true) ∧ (∀ k, (p, k) ∉ c.world.inserting) ∧
      ∃ k, (q, k) ∈ c.world.inserting) := by
  obtain ⟨hne, o, k, hp, hblocks⟩ := hwait
  obtain ⟨hordered, horder⟩ := h.inOrder hp
  -- the runs of a thread are locked by the one that has locked the thread
  have hrun : ∀ id, (∃ r ∈ c.world.db.runs, r.id = id ∧
      c.world.holder (.thread r.threadId) = some p) → c.world.holder (.run id) ≠ some q := by
    rintro id ⟨r, hr, hid, hthread⟩ hholder
    obtain ⟨r', hr', hid', hthread'⟩ := h.ordered id hholder
    rw [h.tidy.reachable.inv.db.unique_id hr' hr (hid'.trans hid.symm), hthread] at hthread'
    exact hne (Option.some.inj hthread').symm
  cases o with
  | lockThread id namespace_ =>
    rcases horder with hheld | hempty
    · rw [hblocks.2] at hheld
      exact absurd (Option.some.inj hheld) hne
    · exact .inl ⟨⟨_, k, hp, rfl⟩, hempty, _, hblocks.2⟩
  | lockRun runId => exact absurd hblocks (hrun runId horder)
  | lockActiveRuns t =>
    obtain ⟨hthread, hview⟩ := horder
    obtain ⟨row, hrow, hholder⟩ := hblocks
    rw [hview] at hrow
    obtain ⟨hmem, ht, -⟩ := Db.mem_activeRuns.mp hrow
    exact absurd hholder (hrun row.id ⟨row, hmem, rfl, ht ▸ hthread⟩)
  | insertRun row quiet =>
    obtain ⟨-, key, -, hkey⟩ := hblocks
    exact .inr ⟨⟨_, k, hp, rfl⟩, horder, key, hkey⟩
  | insertMessages rows =>
    obtain ⟨row, -, hkey⟩ := hblocks
    exact .inr ⟨⟨_, k, hp, rfl⟩, horder, _, hkey⟩
  | insertThread row => exact .inr ⟨⟨_, k, hp, rfl⟩, horder, _, hblocks⟩
  | _ => exact hblocks.elim

/-- How far a process is from moving on: 2 before a thread, 1 before an insert. -/
noncomputable def rank (c : Cfg) (p : Pid) : Nat :=
  open Classical in
  if ∃ q, WaitsFor c p q then
    if IsAt c p (fun o => o.locksThread = true) then 2 else 1
  else 0

/-- Whoever is waited for is closer to moving on. -/
theorem Calls.rank_lt (h : Calls c) (hwait : WaitsFor c p q) : rank c q < rank c p := by
  have hp : ∃ q, WaitsFor c p q := ⟨q, hwait⟩
  unfold rank
  rw [if_pos hp]
  by_cases hq : ∃ r, WaitsFor c q r
  · -- `q` holds something and waits, so that it waits to insert
    obtain ⟨r, hwait'⟩ := hq
    rw [if_pos ⟨r, hwait'⟩]
    rcases h.waits hwait with ⟨hat, -, key, hheld⟩ | ⟨-, -, key, hheld⟩
    · rcases h.waits hwait' with ⟨-, hempty, -⟩ | ⟨hinsert, -⟩
      · exact absurd hheld (hempty.locks key)
      · rw [if_pos hat, if_neg (hinsert.not_locksThread)]
        omega
    · rcases h.waits hwait' with ⟨-, hempty, -⟩ | ⟨-, hnone, -⟩
      · exact absurd hheld (hempty.inserts key)
      · exact absurd hheld (hnone key)
  · rw [if_neg hq]
    split <;> omega

/-- Along a chain of waits, each is closer to moving on than the one before. -/
theorem Calls.rank_lt_of_chain (h : Calls c) (hchain : TransGen (WaitsFor c) p q) :
    rank c q < rank c p := by
  induction hchain with
  | single hwait => exact h.rank_lt hwait
  | tail _ hwait ih => exact lt_trans (h.rank_lt hwait) ih

/-- **No cycle in the waits-for relation**, in any configuration that store calls reach. Each wait
leads to somebody who is closer to moving on (`rank`). -/
theorem no_deadlock (h : Calls c) (p : Pid) : ¬TransGen (WaitsFor c) p p :=
  fun hcycle => lt_irrefl _ (h.rank_lt_of_chain hcycle)

namespace Sample

/-- The claim of a request on a thread of its own, under a key that others use. -/
def keyedArgs (runId requestId threadId : Uuid) : ClaimArgs :=
  ⟨runId, requestId, agent, threadId, some "a", "hash", runId, some 10⟩

/-- Two threads. A claim on the first has inserted its row, and one on the second is about to
insert under the same key, when another comes for the second thread. -/
def queueing : List (Move Choice Env) :=
  opening ++ .env (.start 2 (.call (.createThread "default" none))) :: .run 2 (.uuid 101) ::
    ok 2 4 ++ .env (.start 3 (.call (.claim (keyedArgs 200 20 100)))) :: ok 3 6 ++
    .env (.start 4 (.call (.claim (keyedArgs 201 21 101)))) :: ok 4 5 ++
    .env (.start 5 (.call (.claim (keyedArgs 202 22 101)))) :: ok 5 1

def queued : Cfg := (machine.run (Cfg.initial 0) queueing).get (by decide)

/-- A move that starts nothing but a store call. -/
def isCallMove : Move Choice Env → Bool
  | .env (.start _ (.call _)) => true
  | .env (.start _ _) => false
  | _ => true

theorem callsOnly_of_isCallMove {mv : Move Choice Env} (h : isCallMove mv = true) (c : Cfg) :
    CallsOnly c mv := by
  cases mv with
  | run p ch => trivial
  | env e => cases e with
    | start p t => cases t with
      | call call => exact ⟨call, rfl⟩
      | _ => exact absurd h Bool.false_ne_true
    | _ => trivial

theorem calls_queued : Calls queued := by
  have hcalls : queueing.all isCallMove = true := by decide
  refine ⟨0, .of_run (fun c mv hmv => ?_) (Option.some_get _).symm⟩
  exact callsOnly_of_isCallMove (List.all_eq_true.mp hcalls mv hmv) c

end Sample

/-- A claim waits for the thread of one that waits for the key of a third. -/
theorem Sample.no_deadlock_queued : WaitsFor Sample.queued 5 4 ∧ WaitsFor Sample.queued 4 3 ∧
    ¬TransGen (WaitsFor Sample.queued) 5 5 :=
  ⟨by decide, by decide, no_deadlock Sample.calls_queued 5⟩

/-- Waiting ends: whoever waits does so, in the end, for somebody who does not. -/
theorem waits_end (h : Calls c) (hwait : WaitsFor c p q) :
    ∃ r, TransGen (WaitsFor c) p r ∧ ∀ s, ¬WaitsFor c r s := by
  generalize hn : rank c p = n
  induction n using Nat.strong_induction_on generalizing p q with
  | _ n ih =>
    by_cases hq : ∃ r, WaitsFor c q r
    · obtain ⟨r, hwait'⟩ := hq
      obtain ⟨s, hchain, hend⟩ := ih (rank c q) (hn ▸ h.rank_lt hwait) hwait' rfl
      exact ⟨s, .head hwait hchain, hend⟩
    · exact ⟨q, .single hwait, fun s hs => hq ⟨s, hs⟩⟩

end Waits

end AgentRuntimeKit
