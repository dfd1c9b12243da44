import AgentRuntimeKit.Protocol.Invariant

/-!
# What a commit does

Facts about a staged transaction: which rows it changes and how, which messages it
adds, and that everything of a thread somebody else has locked stays as it is.

## Results

* `Staged.forward`, `Staged.backward` — rows before and after the commit.
* `Staged.messagesOf`                 — the transcripts before and after.
* `Staged.dbOk`, `Staged.logOk`       — the tables and the log stay in order.
* `Beside.staged`                     — a staged transaction stays staged.
-/

namespace AgentRuntimeKit

open Lib

section Freed

variable {w : World} {p : Pid} {now : Time} {freed : List Write}

theorem Freed.dbOk (h : Freed w p now freed) (hdb : DbOk w.db) : DbOk (w.db.after freed) := by
  cases h with
  | nothing => exact hdb
  | expired hold hlock hexpire =>
    exact hdb.updateRun hold (@RowMove.expire (.recoverExpired 1) _ _ _ hexpire)

theorem Freed.messages (h : Freed w p now freed) : (w.db.after freed).messages = w.db.messages := by
  cases h <;> rfl

/-- An expiry adds no row. -/
theorem Freed.ids (h : Freed w p now freed) {r : RunRow} (hr : r ∈ (w.db.after freed).runs) :
    ∃ r₀ ∈ w.db.runs, r₀.id = r.id := by
  cases h with
  | nothing => exact ⟨r, hr, rfl⟩
  | @expired old new hold hlock hexpire =>
    rcases mem_updateRun.mp hr with ⟨rfl, old', hold', hid⟩ | ⟨hr, -⟩
    · exact ⟨old', hold', hid⟩
    · exact ⟨r, hr, rfl⟩

end Freed

theorem claimRow_ok (args : ClaimArgs) (lease now begun : Time) :
    RowOk { claimRow args lease now with startedAt := begun } := by
  constructor <;> simp [claimRow]

/-- A row moves from `r` to `r'` in the transaction `σ` of `p`, which has locked its thread. -/
def Moved (w : World) (p : Pid) (σ : Session) (r r' : RunRow) : Prop :=
  ∃ now, σ.now = some now ∧ w.holder (.thread r.threadId) = some p ∧ RowMove σ.call now r r'

namespace Staged

variable {w : World} {p : Pid} {σ : Session}

theorem updateRun_forward {db : Db} (hdb : DbOk db) {old new : RunRow} (hold : old ∈ db.runs)
    (hid : new.id = old.id) {r : RunRow} (hr : r ∈ db.runs) :
    r ∈ updateRun new db.runs ∨ (r = old ∧ new ∈ updateRun new db.runs) := by
  by_cases hrid : r.id = new.id
  · refine Or.inr ⟨hdb.unique_id hr hold (hrid.trans hid), ?_⟩
    exact mem_updateRun.mpr (Or.inl ⟨rfl, old, hold, hid.symm⟩)
  · exact Or.inl (mem_updateRun.mpr (Or.inr ⟨hr, hrid⟩))

/-- Every row survives the commit, as it is or moved. -/
theorem forward (h : Staged w p σ) (hdb : DbOk w.db) {r : RunRow} (hr : r ∈ w.db.runs) :
    r ∈ (w.db.after σ.writes).runs ∨ ∃ r' ∈ (w.db.after σ.writes).runs, Moved w p σ r r' := by
  cases h with
  | nothing hwrites =>
    rw [hwrites]
    exact Or.inl hr
  | @update now old new hwrites hnow hold hlock hmove =>
    rw [hwrites]
    rcases updateRun_forward hdb hold hmove.unmoved.id hr with hkept | ⟨rfl, hnew⟩
    · exact Or.inl hkept
    · exact Or.inr ⟨new, hnew, now, hnow, hlock, hmove⟩
  | @insert args lease now freed row hcall hnow hwrites hfreed =>
    rw [hwrites, Db.after_append]
    show r ∈ (w.db.after freed).runs ++ [row] ∨
      ∃ r' ∈ (w.db.after freed).runs ++ [row], Moved w p σ r r'
    cases hfreed with
    | nothing => exact Or.inl (List.mem_append_left _ hr)
    | @expired old new hold hlock hexpire =>
      have hmove : RowMove σ.call now old new := .expire hexpire
      rcases updateRun_forward hdb hold hmove.unmoved.id hr with hkept | ⟨rfl, hnew⟩
      · exact Or.inl (List.mem_append_left _ hkept)
      · exact Or.inr ⟨new, List.mem_append_left _ hnew, now, hnow, hlock, hmove⟩
  | append hcall hwrites =>
    rw [hwrites]
    exact Or.inl hr
  | @finish now old token messages response hcall hnow hwrites hold hlock howner hcheck =>
    rw [hwrites]
    have hmove : RowMove σ.call now old (completed old response now) :=
      .complete hcall howner hcheck
    rcases updateRun_forward hdb hold hmove.unmoved.id hr with hkept | ⟨rfl, hnew⟩
    · exact Or.inl hkept
    · exact Or.inr ⟨_, hnew, now, hnow, hlock, hmove⟩
  | thread hcall hwrites =>
    rw [hwrites]
    exact Or.inl hr

theorem updateRun_backward {db : Db} {new r : RunRow} (hr : r ∈ updateRun new db.runs) :
    r ∈ db.runs ∨ r = new := by
  rcases mem_updateRun.mp hr with ⟨rfl, -⟩ | ⟨hr, -⟩
  · exact Or.inr rfl
  · exact Or.inl hr

/-- Every row after the commit was there, has moved, or is the row of a claim that has locked
its thread. -/
theorem backward (h : Staged w p σ) {r : RunRow} (hr : r ∈ (w.db.after σ.writes).runs) :
    r ∈ w.db.runs ∨ (∃ old ∈ w.db.runs, Moved w p σ old r) ∨
      ((w.holder (.thread r.threadId) = some p ∧ ∀ k ∈ r.keys, (p, k) ∈ w.inserting) ∧
        ∃ args lease now, σ.call = .claim args ∧
          r = { claimRow args lease now with startedAt := σ.begun }) := by
  cases h with
  | nothing hwrites =>
    rw [hwrites] at hr
    exact Or.inl hr
  | @update now old new hwrites hnow hold hlock hmove =>
    rw [hwrites] at hr
    rcases updateRun_backward hr with hr | rfl
    · exact Or.inl hr
    · exact Or.inr (Or.inl ⟨old, hold, now, hnow, hlock, hmove⟩)
  | @insert args lease now freed row hcall hnow hwrites hfreed hrow hinserted =>
    rw [hwrites, Db.after_append] at hr
    rcases List.mem_append.mp hr with hr | hr
    · cases hfreed with
      | nothing => exact Or.inl hr
      | @expired old new hold hlock hexpire =>
        rcases updateRun_backward hr with hr | rfl
        · exact Or.inl hr
        · exact Or.inr (Or.inl ⟨old, hold, now, hnow, hlock, .expire hexpire⟩)
    · rw [List.mem_singleton.mp hr]
      exact Or.inr (Or.inr ⟨⟨hinserted.lock, hinserted.keys⟩, args, lease, now, hcall, hrow⟩)
  | append hcall hwrites =>
    rw [hwrites] at hr
    exact Or.inl hr
  | @finish now old token messages response hcall hnow hwrites hold hlock howner hcheck =>
    rw [hwrites] at hr
    rcases updateRun_backward hr with hr | rfl
    · exact Or.inl hr
    · exact Or.inr (Or.inl ⟨old, hold, now, hnow, hlock, .complete hcall howner hcheck⟩)
  | thread hcall hwrites =>
    rw [hwrites] at hr
    exact Or.inl hr

/-- The commit adds the batch of its call to the transcript, numbered on. -/
theorem messagesOf (h : Staged w p σ) (t : Uuid) :
    ∃ rows, (w.db.after σ.writes).messagesOf t = w.db.messagesOf t ++ rows ∧
      rows.map MessageRow.message = σ.call.batchOn t ∧
      (w.holder (.thread t) ≠ some p → rows = []) := by
  cases h with
  | nothing hwrites hbatch =>
    rw [hwrites, hbatch]
    exact ⟨[], (List.append_nil _).symm, rfl, fun _ => rfl⟩
  | update hwrites hnow hold hlock hmove hbatch =>
    rw [hwrites, hbatch]
    exact ⟨[], (List.append_nil _).symm, rfl, fun _ => rfl⟩
  | @insert args lease now freed row hcall hnow hwrites hfreed =>
    rw [hwrites, hcall, Db.after_append]
    refine ⟨[], ?_, rfl, fun _ => rfl⟩
    show (w.db.after freed).messages.filter _ = _
    rw [hfreed.messages, List.append_nil]
    rfl
  | @append t' messages namespace_ hcall hwrites hlock =>
    rw [hwrites, hcall, Db.after_cons, Db.after_nil, messagesOf_insert]
    refine ⟨_, rfl, ?_, fun hfree => ?_⟩
    · by_cases ht : t' = t
      · rw [if_pos ht, numbered_message, Call.batchOn, if_pos ht]
      · rw [if_neg ht, Call.batchOn, if_neg ht]
        rfl
    · refine if_neg ?_
      rintro rfl
      exact hfree hlock
  | @finish now old token messages response hcall hnow hwrites hold hlock howner hcheck =>
    have hthread := (checkCompletion_ok hcheck).2.2.1
    rw [hwrites, hcall, Db.after_cons, Db.after_cons, Db.after_nil]
    refine ⟨_, messagesOf_insert w.db old.threadId t _ messages, ?_, fun hfree => ?_⟩
    · rw [Call.batchOn, hthread]
      by_cases ht : old.threadId = t
      · rw [if_pos ht, if_pos ht, numbered_message]
      · rw [if_neg ht, if_neg ht]
        rfl
    · refine if_neg ?_
      intro ht
      exact hfree (ht ▸ hlock)
  | @thread row namespace_ userKey hcall hwrites =>
    rw [hwrites, hcall]
    exact ⟨[], (List.append_nil _).symm, rfl, fun _ => rfl⟩

theorem dbOk (h : Staged w p σ) (hdb : DbOk w.db) : DbOk (w.db.after σ.writes) := by
  cases h with
  | nothing hwrites =>
    rw [hwrites]
    exact hdb
  | update hwrites hnow hold hlock hmove =>
    rw [hwrites]
    exact hdb.updateRun hold hmove
  | insert hcall hnow hwrites hfreed hrow hinserted =>
    rw [hwrites, Db.after_append]
    refine (hfreed.dbOk hdb).insertRun ?_ hinserted.apart
    rw [hrow]
    exact claimRow_ok _ _ _ _
  | append hcall hwrites =>
    rw [hwrites]
    exact hdb.insertMessages
  | finish hcall hnow hwrites hold hlock howner hcheck =>
    rw [hwrites]
    exact DbOk.updateRun hdb.insertMessages hold (.complete hcall howner hcheck)
  | thread hcall hwrites =>
    rw [hwrites]
    exact hdb.insertThread

/-- Terminal rows survive unchanged. -/
theorem terminal (h : Staged w p σ) (hdb : DbOk w.db) {r : RunRow} (hr : r ∈ w.db.runs)
    (hterminal : r.status.isActive = false) : r ∈ (w.db.after σ.writes).runs := by
  rcases h.forward hdb hr with hr | ⟨r', -, now, -, -, hmove⟩
  · exact hr
  · rw [hmove.active] at hterminal
    exact absurd hterminal (by simp)

/-- Rows survive with the columns that no call changes. -/
theorem sameRun (h : Staged w p σ) (hdb : DbOk w.db) {r : RunRow} (hr : r ∈ w.db.runs) :
    ∃ r' ∈ (w.db.after σ.writes).runs, SameRun r r' := by
  rcases h.forward hdb hr with hr | ⟨r', hr', now, -, -, hmove⟩
  · exact ⟨r, hr, .refl r⟩
  · exact ⟨r', hr', hmove.unmoved⟩

/-- Rows of a thread that somebody else has locked survive unchanged. -/
theorem locked (h : Staged w p σ) (hdb : DbOk w.db) {r : RunRow} (hr : r ∈ w.db.runs)
    (hlock : w.holder (.thread r.threadId) ≠ some p) : r ∈ (w.db.after σ.writes).runs := by
  rcases h.forward hdb hr with hr | ⟨r', -, now, -, hheld, -⟩
  · exact hr
  · exact absurd hheld hlock

/-- A call for one run leaves the other rows alone. -/
theorem untargeted (h : Staged w p σ) {runId : Uuid}
    (htarget : σ.call.target = some runId) {r : RunRow} (hr : r ∈ w.db.runs) (hid : r.id ≠ runId) :
    r ∈ (w.db.after σ.writes).runs := by
  cases h with
  | nothing hwrites =>
    rw [hwrites]
    exact hr
  | update hwrites hnow hold hlock hmove hbatch hcompletes hone =>
    rw [hwrites]
    refine mem_updateRun.mpr (Or.inr ⟨hr, ?_⟩)
    rw [hmove.unmoved.id, hone runId htarget]
    exact hid
  | insert hcall =>
    rw [hcall] at htarget
    exact absurd htarget (by simp [Call.target])
  | append hcall hwrites =>
    rw [hwrites]
    exact hr
  | @finish now old token messages response hcall hnow hwrites =>
    rw [hcall, Call.target, Option.some.injEq] at htarget
    rw [hwrites]
    refine mem_updateRun.mpr (Or.inr ⟨hr, ?_⟩)
    show r.id ≠ old.id
    rw [htarget]
    exact hid
  | thread hcall hwrites =>
    rw [hwrites]
    exact hr

/-- A run becomes succeeded only by a commit of its completion, which the call says. -/
theorem succeeded (h : Staged w p σ) {r : RunRow} (hr : r ∈ (w.db.after σ.writes).runs)
    (hs : r.status = .succeeded) : r ∈ w.db.runs ∨ σ.call.completes = some r.id := by
  rcases h.backward hr with hr | ⟨old, -, now, -, -, hmove⟩ | ⟨-, args, lease, now, -, rfl⟩
  · exact Or.inl hr
  · cases hmove with
    | expire he =>
      rw [(expire_some he).2.2] at hs
      exact RunStatus.noConfusion hs
    | transition _ _ hstatus => exact absurd hs (transitions_active hstatus).2.1
    | complete hcall =>
      rw [hcall]
      exact Or.inr rfl
    | settle _ hstatus =>
      rcases hstatus with rfl | rfl <;> exact RunStatus.noConfusion hs
  · exact RunStatus.noConfusion hs

/-- A commit of a completion makes its run succeed, with the stored form of its response. -/
theorem completes (h : Staged w p σ) {runId token : Uuid} {messages : List Message}
    {response : RuntimeResponse} (hcall : σ.call = .complete runId token messages response) :
    matchesResponse messages response = true ∧ ∃ old ∈ w.db.runs, old.id = runId ∧
      old.status = .running ∧ old.threadId = response.threadId ∧
      w.holder (.thread old.threadId) = some p ∧
      ∃ now, completed old response now ∈ (w.db.after σ.writes).runs := by
  cases h with
  | nothing hwrites hbatch hcompletes =>
    rw [hcall] at hcompletes
    exact absurd hcompletes (by simp [Call.completes])
  | update hwrites hnow hold hlock hmove hbatch hcompletes =>
    rw [hcall] at hcompletes
    exact absurd hcompletes (by simp [Call.completes])
  | insert hcall' =>
    rw [hcall] at hcall'
    exact Call.noConfusion hcall'
  | append hcall' =>
    rw [hcall] at hcall'
    exact Call.noConfusion hcall'
  | @finish now old token' messages' response' hcall' hnow hwrites hold hlock howner hcheck =>
    rw [hcall, Call.complete.injEq] at hcall'
    obtain ⟨rfl, rfl, rfl, rfl⟩ := hcall'
    obtain ⟨hrunning, -, hthread, hmatch⟩ := checkCompletion_ok hcheck
    refine ⟨hmatch, old, hold, rfl, hrunning, hthread.symm, hlock, now, ?_⟩
    rw [hwrites]
    exact mem_updateRun.mpr (Or.inl ⟨rfl, old, hold, rfl⟩)
  | thread hcall' =>
    rw [hcall] at hcall'
    exact Call.noConfusion hcall'

/-- The log after the commit speaks about the tables after it. -/
theorem logOk (h : Staged w p σ) (hdb : DbOk w.db) (hlog : LogOk w.log w.db) :
    LogOk (.commit σ w.db :: w.log) (w.db.after σ.writes) where
  transcript t := by
    obtain ⟨rows, hrows, hbatch, -⟩ := h.messagesOf t
    rw [hrows, List.map_append, hlog.transcript, hbatch, List.reverse_cons, List.flatMap_append,
      List.flatMap_singleton]
    rfl
  completed := by
    intro σ' before runId token messages response hmem hcall
    rcases List.mem_cons.mp hmem with hhead | hmem
    · obtain ⟨rfl, -⟩ := Event.commit.inj hhead
      obtain ⟨hmatch, old, -, hid, -, hthread, -, now, hnew⟩ := h.completes hcall
      exact ⟨hmatch, _, hnew, hid, rfl, rfl, hthread⟩
    · obtain ⟨hmatch, r, hr, hid, hs, hresponse⟩ := hlog.completed _ _ _ _ _ _ hmem hcall
      exact ⟨hmatch, r, h.terminal hdb hr (by rw [hs]; rfl), hid, hs, hresponse⟩
  covered := by
    intro r hr hs
    rcases h.succeeded hr hs with hr | hcompletes
    · exact List.mem_cons_of_mem _ (hlog.covered r hr hs)
    · rw [← hcompletes]
      exact List.mem_cons_self
  once := by
    cases hcompletes : σ.call.completes with
    | none =>
      rw [List.filterMap_cons_none (by exact hcompletes)]
      exact hlog.once
    | some runId =>
      rw [List.filterMap_cons_some (by exact hcompletes), List.nodup_cons]
      refine ⟨fun hmem => ?_, hlog.once⟩
      -- a run that was completed before is not running now
      obtain ⟨e, he, hrun⟩ := List.mem_filterMap.mp hmem
      obtain ⟨token, messages, response, hcall⟩ : ∃ token messages response,
          σ.call = .complete runId token messages response := by
        cases hc : σ.call with
        | complete r token messages response =>
          rw [hc, Call.completes, Option.some.injEq] at hcompletes
          exact ⟨token, messages, response, by rw [hcompletes]⟩
        | _ =>
          rw [hc] at hcompletes
          exact absurd hcompletes (by simp [Call.completes])
      obtain ⟨-, old, hold, hid, hrunning, -⟩ := h.completes hcall
      -- the event `e` has completed it, so its row has succeeded
      obtain ⟨r, hr, hrid, hs⟩ : ∃ r ∈ w.db.runs, r.id = runId ∧ r.status = .succeeded := by
        cases e with
        | commit σ' before =>
          cases hc : σ'.call with
          | complete r' token' messages' response' =>
            have hr' : r' = runId := by
              simpa [Event.completes, hc, Call.completes] using hrun
            obtain ⟨-, r, hr, hrid, hs, -⟩ := hlog.completed _ _ _ _ _ _ he hc
            exact ⟨r, hr, hrid.trans hr', hs⟩
          | _ => simp [Event.completes, hc, Call.completes] at hrun
        | _ => simp [Event.completes] at hrun
      have heq := hdb.unique_id hr hold (hrid.trans hid.symm)
      rw [heq, hrunning] at hs
      exact RunStatus.noConfusion hs
  entered := by
    intro q runId agentId key hmem
    rcases List.mem_cons.mp hmem with hhead | hmem
    · exact Event.noConfusion hhead
    · obtain ⟨r, hr, hid, hagent, hkey⟩ := hlog.entered q runId agentId key hmem
      obtain ⟨r', hr', hsame⟩ := h.sameRun hdb hr
      exact ⟨r', hr', hsame.id.trans hid, hsame.agentId.trans hagent,
        hsame.idempotencyKey.trans hkey⟩
  enteredOnce := by
    rw [List.filterMap_cons_none rfl]
    exact hlog.enteredOnce

end Staged

-- ---------------------------------------------------------------------------
-- The log under the steps of others
-- ---------------------------------------------------------------------------

/-- New events keep what an invocation read current, when none of them is a batch of the
thread. -/
theorem HistoryCurrent.extend {client : Pid} {runId t : Uuid} {db db' : Db}
    {log new : List Event} (h : HistoryCurrent client runId t db log)
    (hmessages : db'.messagesOf t = db.messagesOf t)
    (hnew : ∀ e ∈ new, e.batchOn t = []) : HistoryCurrent client runId t db' (new ++ log) := by
  rcases h with ⟨e, he, happends⟩ | ⟨newer, older, hlog, hnewer, hstarted⟩
  · exact Or.inl ⟨e, List.mem_append_right _ he, happends⟩
  · refine Or.inr ⟨new ++ newer, older, ?_, ?_, hstarted⟩
    · rw [hmessages, hlog, List.append_assoc]
    · intro e he
      exact (List.mem_append.mp he).elim (hnew e) (hnewer e)

theorem Event.batchOn_of_not_commit {e : Event} (t : Uuid) (h : e.isCommit = false) :
    e.batchOn t = [] := by
  cases e with
  | commit => exact absurd h (by simp [Event.isCommit])
  | _ => rfl

/-- `kind` may be read off later: the clients of the log have started. -/
theorem Serial.mono {kind kind' : Pid → Kind} {log : List Event}
    (hkind : ∀ q, kind q ≠ .idle → kind' q = kind q)
    (hclients : ∀ σ before, .commit σ before ∈ log → kind σ.client ≠ .idle)
    (h : Serial kind log) : Serial kind' log := by
  induction log with
  | nil => trivial
  | cons e older ih =>
    have hold : ∀ σ before, .commit σ before ∈ older → kind σ.client ≠ .idle :=
      fun σ before hmem => hclients σ before (List.mem_cons_of_mem _ hmem)
    cases e with
    | commit σ before =>
      refine ⟨?_, ih hold h.2⟩
      rw [hkind σ.client (hclients σ before List.mem_cons_self)]
      exact h.1
    | history => exact ih hold h
    | enter => exact ih hold h

theorem Serial.extend {kind : Pid → Kind} {log new : List Event} (h : Serial kind log)
    (hnew : ∀ e ∈ new, e.isCommit = false) : Serial kind (new ++ log) := by
  induction new with
  | nil => exact h
  | cons e new ih =>
    have hrest := ih fun e he => hnew e (List.mem_cons_of_mem _ he)
    cases e with
    | commit => exact absurd (hnew _ List.mem_cons_self) (by simp [Event.isCommit])
    | history => exact hrest
    | enter => exact hrest

theorem Staged.serial {w : World} {p : Pid} {σ : Session} (h : Staged w p σ)
    (hserial : Serial w.kind w.log) : Serial w.kind (.commit σ w.db :: w.log) := by
  refine ⟨fun runId token messages response hcall hinvocation => ?_, hserial⟩
  cases h with
  | nothing hwrites hbatch hcompletes =>
    rw [hcall] at hcompletes
    exact absurd hcompletes (by simp [Call.completes])
  | update hwrites hnow hold hlock hmove hbatch hcompletes =>
    rw [hcall] at hcompletes
    exact absurd hcompletes (by simp [Call.completes])
  | insert hcall' =>
    rw [hcall] at hcall'
    exact Call.noConfusion hcall'
  | append hcall' =>
    rw [hcall] at hcall'
    exact Call.noConfusion hcall'
  | finish hcall' hnow hwrites hold hlock howner hcheck hhistory =>
    rw [hcall, Call.complete.injEq] at hcall'
    obtain ⟨rfl, rfl, rfl, rfl⟩ := hcall'
    rw [(checkCompletion_ok hcheck).2.2.1]
    exact hhistory hinvocation
  | thread hcall' =>
    rw [hcall] at hcall'
    exact Call.noConfusion hcall'

-- ---------------------------------------------------------------------------
-- What others leave alone
-- ---------------------------------------------------------------------------

section Beside

variable {priv : Bool} {w w' : World} {p : Pid}

/-- Rows of a thread that `p` has locked stay. -/
theorem Beside.locked (h : Beside p w w') (hdb : DbOk w.db) {r : RunRow} (hr : r ∈ w.db.runs)
    (hlock : w.holder (.thread r.threadId) = some p) : r ∈ w'.db.runs := by
  rcases h.quiet.evolution.tables with ⟨hsame, -⟩ | ⟨q, σ, hc⟩
  · rw [hsame]
    exact hr
  · rw [hc.db]
    refine hc.staged.locked hdb hr ?_
    rw [hlock]
    exact fun h' => h.commits q σ hc (Option.some.inj h').symm

/-- No rows are added to a thread that `p` has locked. -/
theorem Beside.row_of_locked (h : Beside p w w') {r : RunRow} (hr : r ∈ w'.db.runs)
    (hlock : w.holder (.thread r.threadId) = some p) : r ∈ w.db.runs := by
  rcases h.quiet.evolution.tables with ⟨hsame, -⟩ | ⟨q, σ, hc⟩
  · exact hsame ▸ hr
  · have hq : w.holder (.thread r.threadId) ≠ some q := by
      rw [hlock]
      exact fun h' => h.commits q σ hc (Option.some.inj h').symm
    rw [hc.db] at hr
    rcases hc.staged.backward hr with hr | ⟨old, -, now, -, hlocked, hmove⟩ | ⟨⟨hlocked, -⟩, -⟩
    · exact hr
    · rw [← hmove.unmoved.threadId] at hlocked
      exact absurd hlocked hq
    · exact absurd hlocked hq

/-- The messages of a thread that `p` has locked stay. -/
theorem Beside.messagesOf (h : Beside p w w') {t : Uuid} (hlock : w.holder (.thread t) = some p) :
    w'.db.messagesOf t = w.db.messagesOf t := by
  rcases h.quiet.evolution.tables with ⟨hsame, -⟩ | ⟨q, σ, hc⟩
  · rw [hsame]
  · obtain ⟨rows, hrows, -, hnone⟩ := hc.staged.messagesOf t
    have hq : w.holder (.thread t) ≠ some q := by
      rw [hlock]
      exact fun h' => h.commits q σ hc (Option.some.inj h').symm
    rw [hc.db, hrows, hnone hq, List.append_nil]

/-- No batch of a thread that `p` has locked is committed by others. -/
theorem Beside.historyCurrent (h : Beside p w w') {client : Pid} {runId t : Uuid}
    (hlock : w.holder (.thread t) = some p) (hh : HistoryCurrent client runId t w.db w.log) :
    HistoryCurrent client runId t w'.db w'.log := by
  have hmessages := h.messagesOf hlock
  rcases h.quiet.evolution.tables with ⟨-, new, hlog, hnew⟩ | ⟨q, σ, hc⟩
  · rw [hlog]
    exact hh.extend hmessages fun e he => Event.batchOn_of_not_commit t (hnew e he)
  · obtain ⟨rows, -, hbatch, hnone⟩ := hc.staged.messagesOf t
    have hq : w.holder (.thread t) ≠ some q := by
      rw [hlock]
      exact fun h' => h.commits q σ hc (Option.some.inj h').symm
    rw [hc.log, ← List.singleton_append]
    refine hh.extend hmessages fun e he => ?_
    rw [List.mem_singleton.mp he]
    show σ.call.batchOn t = []
    rw [← hbatch, hnone hq]
    rfl

theorem Beside.lastSequence (h : Beside p w w') {t : Uuid} (hlock : w.holder (.thread t) = some p) :
    w'.db.lastSequence t = w.db.lastSequence t := by
  rw [Db.lastSequence, Db.lastSequence, h.messagesOf hlock]

/-- The rows that a claim of `p` must keep clear of still are. -/
theorem Beside.inserted (h : Beside p w w') (hinv : Inv priv w) {now : Time} {freed : List Write}
    {row : RunRow} (hfreed : Freed w p now freed) (hi : Inserted w p freed row) :
    Inserted w' p freed row := by
  refine ⟨h.holder _ hi.lock, fun k hk => h.inserting k (hi.keys k hk), ?_⟩
  -- the rows of the new table, before the expiry that the claim flushed itself
  have hnew : ∀ r ∈ w'.db.runs, r ∈ w.db.runs ∨
      (∃ old ∈ w.db.runs, old.id = r.id ∧ ∀ k ∈ r.keys, k ∈ old.keys) ∨ Apart r row := by
    intro r hr
    rcases h.quiet.evolution.tables with ⟨hsame, -⟩ | ⟨q, σ, hc⟩
    · exact Or.inl (hsame ▸ hr)
    · rw [hc.db] at hr
      rcases hc.staged.backward hr with hr | ⟨old, hold, now, -, -, hmove⟩ |
        ⟨⟨-, hkeys⟩, -⟩
      · exact Or.inl hr
      · exact Or.inr (Or.inl ⟨old, hold, hmove.unmoved.id.symm, hmove.keys_subset⟩)
      · refine Or.inr (Or.inr fun k hk hk' => ?_)
        exact h.commits q σ hc (hinv.inserting q p k (hkeys k hk) (hi.keys k hk'))
  intro r hr
  cases hfreed with
  | nothing =>
    rcases hnew r hr with hr | ⟨old, hold, -, hsub⟩ | hapart
    · exact hi.apart r hr
    · exact fun k hk => hi.apart old hold k (hsub k hk)
    · exact hapart
  | @expired old new hold hlock hexpire =>
    have hid : new.id = old.id := (@RowMove.expire (.recoverExpired 1) _ _ _ hexpire).unmoved.id
    rcases mem_updateRun.mp hr with ⟨rfl, -⟩ | ⟨hr, hrid⟩
    · exact hi.apart r (mem_updateRun.mpr (Or.inl ⟨rfl, old, hold, hid.symm⟩))
    · rcases hnew r hr with hr | ⟨old', hold', hid', hsub⟩ | hapart
      · exact hi.apart r (mem_updateRun.mpr (Or.inr ⟨hr, hrid⟩))
      · intro k hk
        refine hi.apart old' ?_ k (hsub k hk)
        exact mem_updateRun.mpr (Or.inr ⟨hold', by rw [hid']; exact hrid⟩)
      · exact hapart

theorem Beside.freed (h : Beside p w w') (hdb : DbOk w.db) {now : Time} {freed : List Write}
    (hf : Freed w p now freed) : Freed w' p now freed := by
  cases hf with
  | nothing => exact .nothing
  | expired hold hlock hexpire =>
    exact .expired (h.locked hdb hold hlock) (h.holder _ hlock) hexpire

/-- A staged transaction stays staged. -/
theorem Beside.staged (h : Beside p w w') (hinv : Inv priv w) {σ : Session}
    (hclient : w.kind σ.client ≠ .idle) (hs : Staged w p σ) : Staged w' p σ := by
  cases hs with
  | nothing hwrites hbatch hcompletes => exact .nothing hwrites hbatch hcompletes
  | update hwrites hnow hold hlock hmove hbatch hcompletes htarget =>
    exact .update hwrites hnow (h.locked hinv.db hold hlock) (h.holder _ hlock) hmove hbatch
      hcompletes htarget
  | insert hcall hnow hwrites hfreed hrow hinserted =>
    exact .insert hcall hnow hwrites (h.freed hinv.db hfreed) hrow
      (h.inserted hinv hfreed hinserted)
  | append hcall hwrites hlock =>
    refine .append hcall ?_ (h.holder _ hlock)
    rw [h.lastSequence hlock]
    exact hwrites
  | finish hcall hnow hwrites hold hlock howner hcheck hhistory =>
    refine .finish hcall hnow ?_ (h.locked hinv.db hold hlock) (h.holder _ hlock) howner hcheck ?_
    · rw [h.lastSequence hlock]
      exact hwrites
    · rw [h.quiet.evolution.kind _ hclient]
      exact fun hinvocation => h.historyCurrent hlock (hhistory hinvocation)
  | thread hcall hwrites => exact .thread hcall hwrites

end Beside

end AgentRuntimeKit
