import AgentRuntimeKit.Protocol.Transactions

/-!
# The store calls

What each transaction of the stores needs and what it establishes. Every body ends with
a transaction that is staged for its call: it has locked the thread whose row or messages
it changes, and has checked what the change depends on under that lock.

## Results

* `claim_triple`, `transition_triple`, `complete_triple`, `failIfRunning_triple`,
  `recover_triple`, `recoverExpired_triple` — the run store.
* `appendMessages_triple`, `createThread_triple` — the conversation store.
-/

namespace AgentRuntimeKit

open Lib Prog

section Calls

variable {priv : Bool} {p : Pid} {κ : Kind} {L : List Call} {σ : Session} {call : Call}
  {N A : World → Prop} {α : Type} {B : Session → α → World → Prop}
  {task : Pid → P Answer → World → Prop} {post : Pid → Except Exn Answer → World → Prop}

-- ---------------------------------------------------------------------------
-- The exceptions of the checks
-- ---------------------------------------------------------------------------

/-- Not the report that a run is missing. -/
def NotMissing (e : Exn) : Prop := ∀ m, e ≠ .kit .runNotFound m

theorem checkOwner_error {row : RunRow} {token : Uuid} {n : Time} {e : Exn}
    (h : checkOwner row token n = .error e) : NotMissing e := by
  unfold checkOwner at h
  split at h
  · exact absurd h (by simp)
  · rw [← Except.error.inj h]
    exact fun m hm => by simp [ownershipLost] at hm

theorem checkTransition_error {row : RunRow} {status : RunStatus}
    {response : Option RuntimeResponse} {e : Exn}
    (h : checkTransition row status response = .error e) : NotMissing e := by
  rintro m rfl
  unfold checkTransition at h
  split at h
  · exact absurd h (by simp [invalidTransition])
  · split at h <;> exact absurd h (by simp [invalidTransition])

theorem checkCompletion_error {row : RunRow} {messages : List Message}
    {response : RuntimeResponse} {e : Exn} (h : checkCompletion row messages response = .error e) :
    NotMissing e := by
  rintro m rfl
  unfold checkCompletion at h
  split at h
  · exact absurd h (by simp [invalidTransition])
  · split at h
    · exact absurd h (by simp [invalidTransition])
    · split at h <;> exact absurd h (by simp [invalidTransition])

theorem checkHash_error {row : RunRow} {hash : String} {e : Exn}
    (h : checkHash row hash = .error e) : NotMissing e := by
  unfold checkHash at h
  split at h
  · exact absurd h (by simp)
  · rw [← Except.error.inj h]
    exact fun m hm => by simp [idempotencyConflict] at hm

theorem checkHash_ok {row : RunRow} {hash : String} (h : checkHash row hash = .ok ()) :
    row.requestHash = some hash := by
  unfold checkHash at h
  split at h
  · next heq => exact heq
  · exact absurd h (by simp)

theorem scalarOneOrNone_error {α : Type} {xs : List α} {e : Exn}
    (h : scalarOneOrNone xs = .error e) : NotMissing e := by
  rintro m rfl
  unfold scalarOneOrNone at h
  split at h <;> exact absurd h (by simp)

theorem scalarOne_error {α : Type} {xs : List α} {e : Exn} (h : scalarOne xs = .error e) :
    NotMissing e := by
  rintro m rfl
  unfold scalarOne at h
  split at h <;> exact absurd h (by simp)

theorem scalarOne_ok {α : Type} {xs : List α} {x : α} (h : scalarOne xs = .ok x) : x ∈ xs := by
  unfold scalarOne at h
  split at h
  · exact absurd h (by simp)
  · rw [Except.ok.inj h]
    exact List.mem_cons_self
  · exact absurd h (by simp)

-- ---------------------------------------------------------------------------
-- Locking a run
-- ---------------------------------------------------------------------------

/-- `_lock_thread` inside a transaction. -/
theorem lockThread_rule {t : Uuid} {f : Unit → P α} (hκ : κ ≠ .idle) (hA : Persists priv p A)
    (hcall : σ.call = call)
    (hf : (discipline priv task post).Triple machine p (Beside p)
      (Inside p κ L σ fun w => A w ∧ w.holder (.thread t) = some p) (f ())
      (BodyPost p κ L call N B)) :
    (discipline priv task post).Triple machine p (Beside p) (Inside p κ L σ A)
      (lockThread t >>= f) (BodyPost p κ L call N B) := by
  unfold lockThread
  rw [bind_bind]
  refine lockThreadOp hκ hA hcall ?_
  rintro (_ | row)
  · refine body_throw hκ (hA.and ?_) hcall fun m h => by injection h; contradiction
    exact fun _ _ _ _ _ _ h => absurd h (by simp)
  · refine Discipline.Triple.pre (fun w _ h => ?_) hf
    exact ⟨h.1, h.2.1, h.2.2 rfl⟩

/-- `_lock_run` inside a transaction that has written nothing yet. -/
theorem lockRun_rule {runId : Uuid} {f : RunRow → P α} (hκ : κ ≠ .idle) (hA : Persists priv p A)
    (hcall : σ.call = call) (hwrites : σ.writes = []) (hN : Persists priv p N)
    (hmissing : ∀ w, Inv priv w → At p κ L (some σ) w → A w → (∀ r ∈ w.db.runs, r.id ≠ runId) → N w)
    (hf : ∀ row, row.id = runId → (discipline priv task post).Triple machine p (Beside p)
      (Inside p κ L σ fun w => A w ∧ Held p row w) (f row) (BodyPost p κ L call N B)) :
    (discipline priv task post).Triple machine p (Beside p) (Inside p κ L σ A)
      (lockRun runId >>= f) (BodyPost p κ L call N B) := by
  unfold lockRun
  rw [bind_bind]
  refine read (C := ifSome N fun tid w => ∃ r, Known r w ∧ r.id = runId ∧ r.threadId = tid) hκ hA
    hcall rfl rfl ?_ ?_
  · intro w r w' fs hi hat ha hx
    simp only [execOk, view_eq hat, hwrites, Db.after_nil] at hx
    obtain ⟨rfl, rfl, rfl⟩ : _ ∧ _ ∧ _ := by simpa [answer] using hx
    refine ⟨rfl, rfl, _, rfl, ?_⟩
    cases hrun : w.db.run? runId with
    | none => exact hmissing w hi hat ha (Db.run?_none hrun)
    | some row =>
      obtain ⟨hmem, hid⟩ := Db.run?_mem hrun
      exact ⟨row, ⟨row, hmem, .refl row, fun _ => rfl⟩, hid, rfl⟩
  · rintro (_ | tid)
    · -- the run is missing
      refine Discipline.Triple.done (At.stable hκ (hA.and hN)) fun w _ h => ?_
      exact ⟨σ, h.1, hcall, fun _ => h.2.2⟩
    · have hknown : Persists priv p fun w => ∃ r, Known r w ∧ r.id = runId ∧ r.threadId = tid := by
        refine (Durable.exists fun r => ?_).lasts.persists
        exact (Known.durable r).and (.const _)
      simp only [bind_bind]
      refine lockThread_rule hκ (hA.and hknown) hcall ?_
      refine lockRunOp hκ ((hA.and hknown).and (holds_persists (.thread tid))) hcall hwrites
        (fun w hi h => ⟨h.2, h.1.2⟩) ?_
      intro rows
      rcases rows with _ | ⟨row, _ | ⟨other, rest⟩⟩
      · refine body_throw hκ (((hA.and hknown).and (holds_persists _)).and ?_) hcall
          fun m h => Exn.noConfusion h
        exact fun _ _ _ _ _ _ _ hr => absurd hr List.not_mem_nil
      · intro w hi h
        obtain ⟨hid, hheld⟩ := h.2.2 row List.mem_cons_self
        exact hf row hid w hi ⟨h.1, h.2.1.1.1, hheld⟩
      · refine body_throw hκ (((hA.and hknown).and (holds_persists _)).and ?_) hcall
          fun m h => Exn.noConfusion h
        exact fun w w' hi hi' hb h r hr =>
          ⟨(h r hr).1, Held.persists r w w' hi hi' hb (h r hr).2⟩

-- ---------------------------------------------------------------------------
-- Updates of one row
-- ---------------------------------------------------------------------------

/-- A transaction that has updated one row it holds. -/
theorem staged_update {w : World} {n : Time} {old new : RunRow} (hheld : Held p old w)
    (hwrites : σ.writes = [.updateRun new]) (hnow : σ.now = some n)
    (hmove : RowMove σ.call n old new) (hbatch : ∀ t, σ.call.batchOn t = [])
    (hcompletes : σ.call.completes = none)
    (htarget : ∀ runId, σ.call.target = some runId → old.id = runId) : Staged w p σ :=
  .update hwrites hnow hheld.1 hheld.2 hmove hbatch hcompletes htarget

/-- The row that the transaction has written is there after its commit. -/
theorem updated_mem {w : World} {old new : RunRow} (hheld : Held p old w) (hid : new.id = old.id) :
    new ∈ (w.db.after [.updateRun new]).runs :=
  mem_updateRun.mpr (Or.inl ⟨rfl, old, hheld.1, hid.symm⟩)

/-- The record of a call that may have updated the one row it holds. -/
def Updated (p : Pid) (σ : Session) (old new : RunRow) (w : World) : Prop :=
  Held p old w ∧ new.id = old.id ∧
    ((new = old ∧ σ.writes = []) ∨ σ.writes = [.updateRun new])

theorem Updated.persists (σ : Session) (old new : RunRow) : Persists priv p (Updated p σ old new) :=
  fun w w' hi hi' hb h => ⟨Held.persists old w w' hi hi' hb h.1, h.2⟩

theorem Updated.mem {w : World} {old new : RunRow} (h : Updated p σ old new w) :
    new ∈ (w.db.after σ.writes).runs := by
  obtain ⟨hheld, hid, ⟨rfl, hwrites⟩ | hwrites⟩ := h
  · rw [hwrites]
    exact hheld.1
  · rw [hwrites]
    exact updated_mem hheld hid

theorem known_of_mem {w : World} {row : RunRow} (h : row ∈ w.db.runs) : Known row w :=
  ⟨row, h, .refl row, fun _ => rfl⟩

/-- `client` committed `call`. -/
def Committed (client : Pid) (call : Call) (w : World) : Prop :=
  ∃ σ before, .commit σ before ∈ w.log ∧ σ.client = client ∧ σ.call = call

theorem log_grows {w w' : World} (h : Evolution w w') {e : Event} (he : e ∈ w.log) :
    e ∈ w'.log := by
  rcases h.tables with ⟨-, new, hlog, -⟩ | ⟨q, σ, hc⟩
  · rw [hlog]
    exact List.mem_append_right _ he
  · rw [hc.log]
    exact List.mem_cons_of_mem _ he

theorem Committed.durable (client : Pid) (call : Call) : Durable priv p (Committed client call) :=
  fun _ _ _ _ hevo _ ⟨σ, before, hmem, h⟩ => ⟨σ, before, log_grows hevo hmem, h⟩

-- ---------------------------------------------------------------------------
-- `transition`
-- ---------------------------------------------------------------------------

section Transition

variable {runId token : Uuid} {status : RunStatus} {response : Option RuntimeResponse}
  {code : Option String}

theorem transitionIn_body (hκ : κ ≠ .idle) (hA : Persists priv p A) (begun : Time) :
    (discipline priv task post).Triple machine p (Beside p)
      (Inside p κ L ⟨p, .transition runId status token response code, begun, none, []⟩ A)
      (transitionIn runId status token response code)
      (BodyPost p κ L (.transition runId status token response code) (fun _ => True)
        fun σ record w => Staged w p σ ∧
          ((∃ old, Updated p σ old record w) ∧ record.status = status ∧ record.id = runId)) := by
  unfold transitionIn
  refine lockRun_rule hκ hA rfl rfl (.const _) (fun _ _ _ _ _ => trivial) fun row hid => ?_
  have hheld := hA.and (Held.persists row)
  refine now hκ hheld rfl fun n => ?_
  cases howner : checkOwner row token n with
  | error e =>
    exact body_throw hκ hheld rfl (checkOwner_error howner)
  | ok =>
    cases hcheck : checkTransition row status response with
    | error e =>
      exact body_throw hκ hheld rfl (checkTransition_error hcheck)
    | ok =>
      refine write hκ hheld rfl ?_
      refine body_pure hκ hheld rfl fun w _ hat h => ?_
      have hstatus : status ∈ transitions row.status := by
        unfold checkTransition at hcheck
        split at hcheck
        · exact absurd hcheck (by simp)
        · next hin => exact not_not.mp hin
      refine ⟨staged_update h.2 rfl rfl ?_ (fun _ => rfl) rfl ?_, ⟨row, h.2, rfl, Or.inr rfl⟩, rfl,
        hid⟩
      · rw [← hid]
        exact .transition rfl (checkOwner_ok howner) hstatus
      · intro r hr
        rw [← Option.some.inj hr]
        exact hid

theorem transition_triple (hκ : κ ≠ .idle) (hA : Persists priv p A)
    (htask : ResolverTask priv task)
    (hpriv : ∀ w, Inv priv w → At p κ L none w → A w → priv = true →
      CallPriv w ⟨p, .transition runId status token response code, w.clock, none, []⟩)
    (hstatus : status ≠ .succeeded) :
    (discipline priv task post).Triple machine p (Quiet p) (fun w => At p κ L none w ∧ A w)
      (transition runId status token response code)
      (CallPost p κ L (.transition runId status token response code) (fun _ => True)
        fun record w => (Known record w ∧ record.status = status ∧ record.id = runId) ∧
          Committed p (.transition runId status token response code) w) := by
  unfold transition
  rw [if_neg hstatus]
  refine transaction hκ hA (.const _)
    (fun r => (((Known.durable r).and (.const _)).and (.durable _ _)).lasts.persists) ?_
    htask hpriv (fun begun => transitionIn_body hκ (hA.and Timely.lasts.persists) begun) ?_
  · intro σ record
    refine Persists.and ?_ (.const _)
    exact fun w w' hi hi' hb ⟨old, h⟩ => ⟨old, Updated.persists σ old record w w' hi hi' hb h⟩
  · rintro σ record w hi hcall hat hs ⟨⟨old, hup⟩, hst, hid⟩ w' hi' hdb hlog - -
    refine ⟨⟨known_of_mem ?_, hst, hid⟩, σ, w.db, ?_, hat.client σ rfl, hcall⟩
    · rw [hdb]
      exact hup.mem
    · rw [hlog]
      exact List.mem_cons_self

end Transition

-- ---------------------------------------------------------------------------
-- `recover` and `recover_expired`
-- ---------------------------------------------------------------------------

theorem recoverIn_body {runId : Uuid} (hκ : κ ≠ .idle) (hA : Persists priv p A) (begun : Time) :
    (discipline priv task post).Triple machine p (Beside p)
      (Inside p κ L ⟨p, .recover runId, begun, none, []⟩ A) (recoverIn runId)
      (BodyPost p κ L (.recover runId) (fun _ => True)
        fun σ record w => Staged w p σ ∧
          ((∃ old, Updated p σ old record w) ∧ record.id = runId)) := by
  unfold recoverIn
  refine lockRun_rule hκ hA rfl rfl (.const _) (fun _ _ _ _ _ => trivial) fun row hid => ?_
  have hheld := hA.and (Held.persists row)
  have htarget : ∀ r, (Call.recover runId).target = some r → row.id = r := by
    intro r hr
    rw [← Option.some.inj hr]
    exact hid
  refine now hκ hheld rfl fun n => ?_
  cases he : expire row n with
  | none =>
    refine body_pure hκ hheld rfl fun w _ _ h => ?_
    exact ⟨.nothing rfl (fun _ => rfl) rfl, ⟨row, h.2, rfl, Or.inl ⟨rfl, rfl⟩⟩, hid⟩
  | some expired =>
    refine write hκ hheld rfl ?_
    refine body_pure hκ hheld rfl fun w _ _ h => ?_
    have hmove : RowMove (.recover runId) n row expired := .expire he
    exact ⟨staged_update h.2 rfl rfl hmove (fun _ => rfl) rfl htarget,
      ⟨row, h.2, hmove.unmoved.id, Or.inr rfl⟩, hmove.unmoved.id.trans hid⟩

theorem recover_triple {runId : Uuid} (hκ : κ ≠ .idle) (hA : Persists priv p A)
    (htask : ResolverTask priv task)
    (hpriv : ∀ w, Inv priv w → At p κ L none w → A w → priv = true →
      CallPriv w ⟨p, .recover runId, w.clock, none, []⟩) :
    (discipline priv task post).Triple machine p (Quiet p) (fun w => At p κ L none w ∧ A w)
      (recover runId)
      (CallPost p κ L (.recover runId) (fun _ => True)
        fun record w => Known record w ∧ record.id = runId) := by
  unfold recover
  refine transaction hκ hA (.const _)
    (fun r => ((Known.durable r).and (.const _)).lasts.persists) ?_ htask hpriv
    (fun begun => recoverIn_body hκ (hA.and Timely.lasts.persists) begun) ?_
  · intro σ record
    refine Persists.and ?_ (.const _)
    exact fun w w' hi hi' hb ⟨old, h⟩ => ⟨old, Updated.persists σ old record w w' hi hi' hb h⟩
  · rintro σ record w hi hcall hat hs ⟨⟨old, hup⟩, hid⟩ w' hi' hdb - - -
    refine ⟨known_of_mem ?_, hid⟩
    rw [hdb]
    exact hup.mem

theorem recoverOne_body {runId : Uuid} {limit : Int} (hκ : κ ≠ .idle) (hA : Persists priv p A)
    (begun : Time) :
    (discipline priv task post).Triple machine p (Beside p)
      (Inside p κ L ⟨p, .recoverExpired limit, begun, none, []⟩ A) (recoverOne runId)
      (BodyPost p κ L (.recoverExpired limit) (fun _ => True)
        fun σ _ w => Staged w p σ ∧ True) := by
  have htarget : ∀ (row : RunRow) r, (Call.recoverExpired limit).target = some r → row.id = r :=
    fun _ _ h => absurd h (by simp [Call.target])
  unfold recoverOne
  refine read (C := fun a w => ∀ tid, a = some tid →
    ∃ r, Known r w ∧ r.id = runId ∧ r.threadId = tid) hκ hA rfl rfl rfl ?_ ?_
  · intro w r w' fs hi hat ha hx
    simp only [execOk, view_eq hat, Db.after_nil] at hx
    obtain ⟨rfl, rfl, rfl⟩ : _ ∧ _ ∧ _ := by simpa [answer] using hx
    refine ⟨rfl, rfl, _, rfl, fun tid htid => ?_⟩
    obtain ⟨row, hrow, ht⟩ := Option.map_eq_some_iff.mp htid
    obtain ⟨hmem, hid⟩ := Db.run?_mem hrow
    exact ⟨row, known_of_mem hmem, hid, ht⟩
  · rintro (_ | tid)
    · refine body_pure hκ (hA.and ?_) rfl fun w _ _ _ => ⟨.nothing rfl (fun _ => rfl) rfl, trivial⟩
      exact fun _ _ _ _ _ _ _ h => absurd h (by simp)
    · have hknown : Persists priv p fun w => ∃ r, Known r w ∧ r.id = runId ∧ r.threadId = tid := by
        refine (Durable.exists fun r => ?_).lasts.persists
        exact (Known.durable r).and (.const _)
      refine Discipline.Triple.pre (fun w _ h => ⟨h.1, h.2.1, h.2.2 tid rfl⟩)
        (tryLockThread hκ (hA.and hknown) rfl ?_)
      rintro (_ | thread)
      · refine body_pure hκ ((hA.and hknown).and ?_) rfl
          fun w _ _ _ => ⟨.nothing rfl (fun _ => rfl) rfl, trivial⟩
        exact fun _ _ _ _ _ _ h => absurd h (by simp)
      · refine Discipline.Triple.pre (fun w _ h => ⟨h.1, h.2.1, h.2.2 rfl⟩)
          (lockRunOp hκ ((hA.and hknown).and (holds_persists (.thread tid))) rfl rfl
            (fun w hi h => ⟨h.2, h.1.2⟩) ?_)
        intro rows
        have hrows : Persists priv p fun w => ∀ row ∈ rows, row.id = runId ∧ Held p row w :=
          fun w w' hi hi' hb h r hr => ⟨(h r hr).1, Held.persists r w w' hi hi' hb (h r hr).2⟩
        have hall := ((hA.and hknown).and (holds_persists (.thread tid))).and hrows
        cases hone : scalarOne rows with
        | error e => exact body_throw hκ hall rfl (scalarOne_error hone)
        | ok row =>
          have hmem := scalarOne_ok hone
          refine now hκ hall rfl fun n => ?_
          cases he : expire row n with
          | none =>
            exact body_pure hκ hall rfl fun w _ _ _ => ⟨.nothing rfl (fun _ => rfl) rfl, trivial⟩
          | some expired =>
            refine write hκ hall rfl ?_
            refine body_pure hκ hall rfl fun w _ _ h => ⟨?_, trivial⟩
            exact staged_update (h.2 row hmem).2 rfl rfl (.expire he) (fun _ => rfl) rfl
              (htarget row)

/-- One transaction for each of the runs. -/
theorem recoverEach_triple {limit : Int} (hκ : κ ≠ .idle) (htask : ResolverTask priv task)
    (hpriv : ∀ w L, Inv priv w → At p κ L none w → priv = true →
      CallPriv w ⟨p, .recoverExpired limit, w.clock, none, []⟩) (ids : List Uuid) :
    ∀ L, (discipline priv task post).Triple machine p (Quiet p) (fun w => At p κ L none w ∧ True)
      (recoverEach limit ids)
      (fun r w => ∃ L, match r with
        | .ok _ => At p κ L none w
        | .error _ => Closed p κ L w) := by
  induction ids with
  | nil =>
    intro L
    exact Discipline.Triple.done (At.stable hκ (.const _)) fun w _ h => ⟨L, h.1⟩
  | cons runId rest ih =>
    intro L
    have hone : (discipline priv task post).Triple machine p (Quiet p)
        (fun w => At p κ L none w ∧ True) (inTransaction (.recoverExpired limit) (recoverOne runId))
        (CallPost p κ L (.recoverExpired limit) (fun _ => True) fun _ _ => True) :=
      transaction hκ (.const _) (.const _) (fun _ => .const _) (fun _ _ => .const _) htask
        (fun w hi hat _ hp => hpriv w L hi hat hp)
        (fun begun => recoverOne_body hκ ((Persists.const _).and Timely.lasts.persists) begun)
        fun _ _ _ _ _ _ _ _ _ _ _ _ _ _ => trivial
    refine Discipline.Triple.handle hone ?_
    rintro (e | recovered)
    · exact Discipline.Triple.done (Closed.stable hκ (.const _)) fun w _ h => ⟨L, h.1⟩
    · refine Discipline.Triple.handle (ih _) ?_
      rintro (e | others)
      · refine Discipline.Triple.exists fun L' => ?_
        refine Discipline.Triple.pre (A := fun w => Closed p κ L' w ∧ True)
          (fun w _ h => ⟨h, trivial⟩) ?_
        exact Discipline.Triple.done (Closed.stable hκ (.const True)) fun w _ h => ⟨L', h.1⟩
      · refine Discipline.Triple.exists fun L' => ?_
        refine Discipline.Triple.pre (A := fun w => At p κ L' none w ∧ True)
          (fun w _ h => ⟨h, trivial⟩) ?_
        exact Discipline.Triple.done (At.stable hκ (.const True)) fun w _ h => ⟨L', h.1⟩

-- ---------------------------------------------------------------------------
-- Message batches
-- ---------------------------------------------------------------------------

/-- The thread is locked, and its last sequence number is known. -/
def Numbering (p : Pid) (t : Uuid) (last : Nat) (w : World) : Prop :=
  w.holder (.thread t) = some p ∧ w.db.lastSequence t = last

theorem Numbering.persists (t : Uuid) (last : Nat) : Persists priv p (Numbering p t last) :=
  fun _ _ _ _ hb h => ⟨hb.holder _ h.1, (hb.lastSequence h.1).trans h.2⟩

/-- `append_message_batch` inside a transaction that has written nothing yet. -/
theorem appendBatch_rule {t : Uuid} {messages : List Message} {namespace_ : Option String}
    {f : List MessageRow → P α} (hκ : κ ≠ .idle) (hA : Persists priv p A) (hcall : σ.call = call)
    (hwrites : σ.writes = [])
    (hempty : messages = [] → (discipline priv task post).Triple machine p (Beside p)
      (Inside p κ L σ A) (f []) (BodyPost p κ L call N B))
    (hf : ∀ last, messages ≠ [] → (discipline priv task post).Triple machine p (Beside p)
      (Inside p κ L { σ with writes := [.insertMessages (numbered t last messages)] }
        fun w => A w ∧ Numbering p t last w) (f (numbered t last messages))
      (BodyPost p κ L call N B)) :
    (discipline priv task post).Triple machine p (Beside p) (Inside p κ L σ A)
      (appendMessageBatch t messages namespace_ >>= f) (BodyPost p κ L call N B) := by
  unfold appendMessageBatch
  rw [bind_bind]
  refine lockThreadOp hκ hA hcall ?_
  rintro (_ | row)
  · refine body_throw hκ (hA.and ?_) hcall fun m h => by injection h; contradiction
    exact fun _ _ _ _ _ _ h => absurd h (by simp)
  · cases messages with
    | nil => exact Discipline.Triple.pre (fun w _ h => ⟨h.1, h.2.1⟩) (hempty rfl)
    | cons m rest =>
      simp only [bind_bind]
      refine Discipline.Triple.pre (fun w _ h => ⟨h.1, h.2.1, h.2.2 rfl⟩)
        (read (A := fun w => A w ∧ w.holder (.thread t) = some p)
          (C := fun last w => w.db.lastSequence t = last) hκ (hA.and (holds_persists (.thread t)))
          hcall rfl rfl ?_ ?_)
      · intro w r w' fs hi hat ha hx
        simp only [execOk, view_eq hat, hwrites, Db.after_nil] at hx
        obtain ⟨rfl, rfl, rfl⟩ : _ ∧ _ ∧ _ := by simpa [answer] using hx
        exact ⟨rfl, rfl, _, rfl, rfl⟩
      · intro last
        refine Discipline.Triple.pre (fun w _ h => ⟨h.1, h.2.1.1, h.2.1.2, h.2.2⟩)
          (insertMessages hκ (hA.and (Numbering.persists t last)) hcall ?_)
        rw [hwrites]
        exact hf last (by simp)

theorem appendMessages_triple {t : Uuid} {messages : List Message} {namespace_ : Option String}
    (hκ : κ ≠ .idle) (htask : ResolverTask priv task)
    (hpriv : ∀ w, Inv priv w → At p κ L none w → priv = true →
      CallPriv w ⟨p, .appendMessages t messages namespace_, w.clock, none, []⟩) :
    (discipline priv task post).Triple machine p (Quiet p) (fun w => At p κ L none w ∧ True)
      (appendMessages t messages namespace_)
      (CallPost p κ L (.appendMessages t messages namespace_) (fun _ => True) fun _ _ => True) := by
  unfold appendMessages
  refine transaction (B := fun _ _ _ => True) hκ (.const _) (.const _) (fun _ => .const _)
    (fun _ _ => .const _) htask (fun w hi hat _ hp => hpriv w hi hat hp) (fun begun => ?_)
    fun _ _ _ _ _ _ _ _ _ _ _ _ _ _ => trivial
  have hA : Persists priv p fun w => True ∧ Timely p w :=
    (Persists.const _).and Timely.lasts.persists
  -- the body is the batch alone
  have hbind : appendMessageBatch t messages namespace_ =
      appendMessageBatch t messages namespace_ >>= pure := by
    rw [bind_eq]
    induction appendMessageBatch t messages namespace_ with
    | done r => cases r <;> rfl
    | op o k ih =>
      rw [handle_op]
      exact congrArg _ (funext ih)
  rw [hbind]
  refine appendBatch_rule hκ hA rfl rfl (fun hempty => ?_) fun last _ => ?_
  · refine body_pure hκ hA rfl fun w _ _ _ => ⟨.nothing rfl (fun t' => ?_) rfl, trivial⟩
    rw [hempty, Call.batchOn]
    split <;> rfl
  · refine body_pure hκ (hA.and (Numbering.persists t last)) rfl fun w _ _ h => ⟨?_, trivial⟩
    refine .append rfl ?_ h.2.1
    rw [h.2.2]

-- ---------------------------------------------------------------------------
-- `complete`
-- ---------------------------------------------------------------------------

/-- If `p` is an invocation, its run is there, and while it is active `p` has the current history
of its thread. -/
def Watching (p : Pid) (runId : Uuid) (w : World) : Prop :=
  (w.kind p).isInvocation = true → ∃ r ∈ w.db.runs, r.id = runId ∧
    (r.status.isActive = true → HistoryCurrent p runId r.threadId w.db w.log)

/-- A batch for the thread of an active run comes from `append_messages`, or from the completion
of that very run. -/
theorem Staged.batch_of_active {w : World} {q : Pid} {σ : Session} (h : Staged w q σ)
    (hdb : DbOk w.db) {r : RunRow} (hr : r ∈ w.db.runs) (hactive : r.status.isActive = true) :
    σ.call.batchOn r.threadId = [] ∨
    (∃ messages name, σ.call = .appendMessages r.threadId messages name) ∨
      ∃ r' ∈ (w.db.after σ.writes).runs, r'.id = r.id ∧ r'.status.isActive = false := by
  cases hcall : σ.call with
  | appendMessages t messages name =>
    by_cases ht : t = r.threadId
    · subst ht
      exact Or.inr (Or.inl ⟨messages, name, rfl⟩)
    · exact Or.inl (if_neg ht)
  | complete runId token messages response =>
    by_cases ht : response.threadId = r.threadId
    · obtain ⟨-, old, hold, -, hrunning, hthread, -, n, hdone⟩ := h.completes hcall
      have hsame : old = r := hdb.unique_active hold hr (hthread.trans ht)
        (by rw [hrunning]; rfl) hactive
      exact Or.inr (Or.inr ⟨_, hdone, by rw [← hsame]; rfl, rfl⟩)
    · exact Or.inl (if_neg ht)
  | _ => exact Or.inl rfl

theorem Watching.durable (runId : Uuid) : Durable priv p (Watching p runId) := by
  intro w w' hi hi' hevo hkind h hinvocation
  rw [hkind] at hinvocation
  obtain ⟨r, hr, hid, hcurrent⟩ := h hinvocation
  rcases hevo.tables with ⟨hdb, new, hlog, hnew⟩ | ⟨q, σ, hc⟩
  · refine ⟨r, hdb ▸ hr, hid, fun hactive => ?_⟩
    rw [hdb, hlog]
    exact (hcurrent hactive).extend rfl fun e he => Event.batchOn_of_not_commit _ (hnew e he)
  · -- the row after the commit, and that it was active before if it still is
    obtain ⟨r', hr', hid', hthread, hback⟩ : ∃ r' ∈ w'.db.runs, r'.id = r.id ∧
        r'.threadId = r.threadId ∧ (r'.status.isActive = true → r.status.isActive = true) := by
      rw [hc.db]
      rcases hc.staged.forward hi.db hr with hkept | ⟨r', hr', n, -, -, hmove⟩
      · exact ⟨r, hkept, rfl, rfl, id⟩
      · exact ⟨r', hr', hmove.unmoved.id, hmove.unmoved.threadId, fun _ => hmove.active⟩
    refine ⟨r', hr', hid'.trans hid, fun hactive => ?_⟩
    have hwas := hback hactive
    rw [hthread]
    rcases hc.staged.batch_of_active hi.db hr hwas with hnone | ⟨messages, name, hcall⟩ |
      ⟨r₂, hr₂, hid₂, hdone⟩
    · obtain ⟨rows, hrows, hbatch, -⟩ := hc.staged.messagesOf r.threadId
      have hempty : rows = [] := List.map_eq_nil_iff.mp (hbatch.trans hnone)
      rw [hc.log, ← List.singleton_append]
      refine (hcurrent hwas).extend ?_ fun e he => ?_
      · rw [hc.db, hrows, hempty, List.append_nil]
      · rw [List.mem_singleton.mp he]
        exact hnone
    · refine Or.inl ⟨.commit σ w.db, ?_, ?_⟩
      · rw [hc.log]
        exact List.mem_cons_self
      · simp [Event.appends, hcall]
    · rw [← hc.db] at hr₂
      have hsame := hi'.db.unique_id hr' hr₂ (hid'.trans hid₂.symm)
      rw [hsame, hdone] at hactive
      exact absurd hactive Bool.false_ne_true

/-- The run has succeeded with this response. -/
def Stored (runId : Uuid) (response : RuntimeResponse) (w : World) : Prop :=
  ∃ row ∈ w.db.runs, row.id = runId ∧ row.status = .succeeded ∧
    row.response = some response.jsonForm

theorem Stored.durable (runId : Uuid) (response : RuntimeResponse) :
    Durable priv p (Stored runId response) := by
  rintro w w' hi hi' hevo hkind ⟨row, hrow, hid, hs, hresponse⟩
  obtain ⟨row', hrow', -, hsame⟩ := Known.durable row w w' hi hi' hevo hkind (known_of_mem hrow)
  rw [hsame (by rw [hs]; rfl)] at hrow'
  exact ⟨row, hrow', hid, hs, hresponse⟩

section Complete

variable {runId token : Uuid} {messages : List Message} {response : RuntimeResponse}

theorem matchesResponse_nil : matchesResponse [] response = false := rfl

theorem completeIn_body (hκ : κ ≠ .idle) (hA : Persists priv p A)
    (hwatching : ∀ w, Inv priv w → A w → Watching p runId w) (begun : Time) :
    (discipline priv task post).Triple machine p (Beside p)
      (Inside p κ L ⟨p, .complete runId token messages response, begun, none, []⟩ A)
      (completeIn runId token messages response)
      (BodyPost p κ L (.complete runId token messages response) (fun _ => True)
        fun σ _ w => Staged w p σ ∧ True) := by
  unfold completeIn
  refine lockRun_rule hκ hA rfl rfl (.const _) (fun _ _ _ _ _ => trivial) fun row hid => ?_
  have hheld := hA.and (Held.persists row)
  refine now hκ hheld rfl fun n₀ => ?_
  cases howner₀ : checkOwner row token n₀ with
  | error e => exact body_throw hκ hheld rfl (checkOwner_error howner₀)
  | ok =>
    cases hcheck : checkCompletion row messages response with
    | error e => exact body_throw hκ hheld rfl (checkCompletion_error hcheck)
    | ok =>
      obtain ⟨hrunning, -, -, hmatch⟩ := checkCompletion_ok hcheck
      refine appendBatch_rule hκ hheld rfl rfl (fun hempty => ?_) fun last _ => ?_
      · -- an empty batch has no assistant message
        rw [hempty, matchesResponse_nil] at hmatch
        exact absurd hmatch Bool.false_ne_true
      · have hall := hheld.and (Numbering.persists row.threadId last)
        refine now hκ hall rfl fun n => ?_
        cases howner : checkOwner row token n with
        | error e => exact body_throw hκ hall rfl (checkOwner_error howner)
        | ok =>
          refine write hκ hall rfl ?_
          refine body_pure hκ hall rfl fun w hi hat ⟨⟨ha, hrow⟩, hlock, hlast⟩ => ⟨?_, trivial⟩
          subst hid
          refine .finish rfl rfl ?_ hrow.1 hrow.2 (checkOwner_ok howner) hcheck fun hinv => ?_
          · rw [hlast]
            rfl
          · obtain ⟨r, hr, hrid, hcurrent⟩ := hwatching w hi ha hinv
            have hsame := hi.db.unique_id hr hrow.1 hrid
            rw [hsame, hrunning] at hcurrent
            exact hcurrent rfl

theorem complete_triple (hκ : κ ≠ .idle) (hA : Persists priv p A) (htask : ResolverTask priv task)
    (hwatching : ∀ w, Inv priv w → A w → Watching p runId w)
    (hpriv : ∀ w, Inv priv w → At p κ L none w → A w → priv = true →
      CallPriv w ⟨p, .complete runId token messages response, w.clock, none, []⟩) :
    (discipline priv task post).Triple machine p (Quiet p) (fun w => At p κ L none w ∧ A w)
      (complete runId token messages response)
      (CallPost p κ L (.complete runId token messages response) (fun _ => True)
        fun _ w => Stored runId response w) := by
  unfold complete
  refine transaction hκ hA (.const _) (fun _ => (Stored.durable runId response).lasts.persists)
    (fun _ _ => .const _)
    htask hpriv (fun begun => completeIn_body hκ (hA.and Timely.lasts.persists)
      (fun w hi h => hwatching w hi h.1) begun) ?_
  rintro σ record w hi hcall hat hs - w' hi' hdb hlog - -
  -- the log says what its newest commit stored
  obtain ⟨-, r, hr, hid, hst, hresponse, -⟩ :=
    hi'.log.completed σ w.db runId token messages response
    (by rw [hlog]; exact List.mem_cons_self) hcall
  exact ⟨r, hr, hid, hst, hresponse⟩

end Complete

-- ---------------------------------------------------------------------------
-- `fail_if_running`
-- ---------------------------------------------------------------------------

/-- If `p` is a clean-up, this is what it found. -/
def Found (priv : Bool) (p : Pid) (o : SettleOutcome) (w : World) : Prop :=
  priv = true → ∀ parent status, w.kind p = .cleanup parent status → OutcomeOk w parent o

theorem Found.durable (o : SettleOutcome) : Durable priv p (Found priv p o) := by
  rintro w w' hi - hevo hsame h rfl parent status hkind
  rw [hsame] at hkind
  exact (h rfl parent status hkind).step hi hevo hkind

/-- A terminal row, as it was read. -/
def Final (record : RunRow) (w : World) : Prop :=
  record ∈ w.db.runs ∧ record.status.isActive = false

theorem Final.durable (record : RunRow) : Durable priv p (Final record) := by
  rintro w w' hi hi' hevo hkind ⟨hmem, hdone⟩
  obtain ⟨row, hrow, -, hsame⟩ := Known.durable record w w' hi hi' hevo hkind (known_of_mem hmem)
  exact ⟨hsame hdone ▸ hrow, hdone⟩

section FailIfRunning

variable {runId token : Uuid} {code : String} {status : RunStatus}

theorem failIfRunningIn_body (hκ : κ ≠ .idle) (hA : Persists priv p A)
    (hstatus : status = .failed ∨ status = .blocked)
    (hrun : ∀ w, Inv priv w → A w → priv = true → ∀ parent st, w.kind p = .cleanup parent st →
      w.runId parent = some runId) (begun : Time) :
    (discipline priv task post).Triple machine p (Beside p)
      (Inside p κ L ⟨p, .failIfRunning runId token code status, begun, none, []⟩
        fun w => A w ∧ Timely p w) (failIfRunningIn runId token code status)
      (BodyPost p κ L (.failIfRunning runId token code status) (Found priv p .notFound)
        fun σ record w => Staged w p σ ∧ ((∃ old, Updated p σ old record w) ∧
          record.status.isActive = false ∧ record.id = runId)) := by
  unfold failIfRunningIn
  refine lockRun_rule hκ (hA.and Timely.lasts.persists) rfl rfl (Found.durable _).lasts.persists ?_
    fun row hid => ?_
  · intro w hi hat h hnone hp parent st hkind hpremature
    refine ⟨h.2 parent st hkind hpremature, fun r hr hrunId => ?_⟩
    rw [hrun w hi h.1 hp parent st hkind, Option.some.injEq] at hrunId
    exact hnone r hr hrunId.symm
  · have hheld := (hA.and Timely.lasts.persists).and (Held.persists row)
    have htarget : ∀ r, (Call.failIfRunning runId token code status).target = some r →
        row.id = r := by
      intro r hr
      rw [← Option.some.inj hr]
      exact hid
    by_cases htoken : row.ownerToken = some token
    · rw [if_neg (not_not.mpr htoken)]
      refine now hκ hheld rfl fun n => ?_
      by_cases hactive : row.status.isActive = true
      · rw [if_pos hactive]
        cases he : expire row n with
        | some expired =>
          refine write hκ hheld rfl ?_
          refine body_pure hκ hheld rfl fun w _ _ h => ?_
          have hmove : RowMove (.failIfRunning runId token code status) n row expired := .expire he
          refine ⟨staged_update h.2 rfl rfl hmove (fun _ => rfl) rfl htarget,
            ⟨row, h.2, hmove.unmoved.id, Or.inr rfl⟩, ?_, hmove.unmoved.id.trans hid⟩
          rw [(expire_some he).2.2]
          rfl
        | none =>
          refine write hκ hheld rfl ?_
          refine body_pure hκ hheld rfl fun w _ _ h => ?_
          have hmove : RowMove (.failIfRunning runId token code status) n row
              (settled row status code n) := .settle (by rw [hid]) hstatus hactive he htoken
          refine ⟨staged_update h.2 rfl rfl hmove (fun _ => rfl) rfl htarget,
            ⟨row, h.2, rfl, Or.inr rfl⟩, ?_, hid⟩
          rcases hstatus with rfl | rfl <;> rfl
      · rw [if_neg hactive]
        refine body_pure hκ hheld rfl fun w _ _ h => ?_
        exact ⟨.nothing rfl (fun _ => rfl) rfl, ⟨row, h.2, rfl, Or.inl ⟨rfl, rfl⟩⟩,
          Bool.eq_false_iff.mpr hactive, hid⟩
    · rw [if_pos htoken]
      exact body_throw hκ hheld rfl fun m h => by simp at h

theorem failIfRunning_triple (hκ : κ ≠ .idle) (hA : Persists priv p A)
    (htask : ResolverTask priv task) (hstatus : status = .failed ∨ status = .blocked)
    (hrun : ∀ w, Inv priv w → A w → priv = true → ∀ parent st, w.kind p = .cleanup parent st →
      w.runId parent = some runId)
    (hpriv : ∀ w, Inv priv w → At p κ L none w → A w → priv = true →
      CallPriv w ⟨p, .failIfRunning runId token code status, w.clock, none, []⟩) :
    (discipline priv task post).Triple machine p (Quiet p) (fun w => At p κ L none w ∧ A w)
      (failIfRunning runId token code status)
      (CallPost p κ L (.failIfRunning runId token code status) (Found priv p .notFound)
        fun record w => Final record w ∧ record.id = runId) := by
  unfold failIfRunning
  rw [if_neg (by rcases hstatus with rfl | rfl <;> simp)]
  refine transaction hκ hA (Found.durable _).lasts
    (fun r => ((Final.durable r).and (.const _)).lasts.persists) ?_
    htask hpriv (fun begun => failIfRunningIn_body hκ hA hstatus hrun begun) ?_
  · intro σ record
    refine Persists.and ?_ (.const _)
    exact fun w w' hi hi' hb ⟨old, h⟩ => ⟨old, Updated.persists σ old record w w' hi hi' hb h⟩
  · rintro σ record w hi hcall hat hs ⟨⟨old, hup⟩, hdone, hid⟩ w' hi' hdb - - -
    refine ⟨⟨?_, hdone⟩, hid⟩
    rw [hdb]
    exact hup.mem

end FailIfRunning

-- ---------------------------------------------------------------------------
-- `claim`
-- ---------------------------------------------------------------------------

/-- `p` drew the identifier, and there is no row for it; no other transaction works for `p`. -/
def Absent (priv : Bool) (p : Pid) (runId : Uuid) (w : World) : Prop :=
  priv = true → w.resolving p = none ∧ w.mint runId = some p ∧ ∀ r ∈ w.db.runs, r.id ≠ runId

theorem Absent.persists (runId : Uuid) : Persists priv p (Absent priv p runId) := by
  rintro w w' hi hi' hb h rfl
  obtain ⟨hresolving, hmint, hnone⟩ := h rfl
  refine ⟨hb.resolving hresolving, hb.quiet.evolution.mint _ _ hmint, fun r hr hid => ?_⟩
  rcases hb.quiet.evolution.tables with ⟨hdb, -⟩ | ⟨q, σ, hc⟩
  · exact hnone r (hdb ▸ hr) hid
  · rw [hc.db] at hr
    have hok := (hi.proc q).session σ hc.session
    rcases hc.staged.new_row (hok.callPriv rfl) hr with ⟨r₀, hr₀, hid₀, -⟩ | ⟨hnew, -⟩
    · exact hnone r₀ hr₀ (hid₀.trans hid)
    · -- only a transaction of `p` inserts the row
      rw [hid, hmint, Option.some.injEq] at hnew
      rcases hok.client with hself | ⟨-, hresolver, -⟩
      · exact hb.commits q σ hc (hself.symm.trans hnew.symm)
      · rw [← hnew, hresolving] at hresolver
        exact absurd hresolver (by simp)

/-- The record of an earlier run, as a claim sees it after the expiry it may have flushed. -/
def Seen (p : Pid) (n : Time) (writes : List Write) (record : RunRow) (w : World) : Prop :=
  Freed w p n writes ∧ ∃ row ∈ (w.db.after writes).runs, SameRun record row ∧
    (record.status.isActive = false → row = record)

theorem Seen.persists (n : Time) (writes : List Write) (record : RunRow) :
    Persists priv p (Seen p n writes record) := by
  rintro w w' hi hi' hb ⟨hfreed, row, hrow, hsame, hdone⟩
  have hfreed' := hb.freed hi.db hfreed
  refine ⟨hfreed', ?_⟩
  -- a row of the table moves on at most as `Known` allows
  have hmoves : ∀ r ∈ w.db.runs, ∃ r' ∈ w'.db.runs, SameRun r r' ∧
      (r.status.isActive = false → r' = r) :=
    fun r hr => Known.lasts r w w' hi hi' hb.quiet (known_of_mem hr)
  cases hfreed with
  | nothing =>
    obtain ⟨r', hr', hsame', hdone'⟩ := hmoves row hrow
    refine ⟨r', hr', hsame.trans hsame', fun h => ?_⟩
    have hrecord := hdone h
    rw [← hrecord] at h ⊢
    exact hdone' h
  | @expired old new hold hlock hexpire =>
    have hid : new.id = old.id := (@RowMove.expire (.recover old.id) _ _ _ hexpire).unmoved.id
    rcases mem_updateRun.mp hrow with ⟨rfl, -⟩ | ⟨hr, hne⟩
    · refine ⟨row, ?_, hsame, hdone⟩
      exact mem_updateRun.mpr (Or.inl ⟨rfl, old, hb.locked hi.db hold hlock, hid.symm⟩)
    · obtain ⟨r', hr', hsame', hdone'⟩ := hmoves row hr
      refine ⟨r', mem_updateRun.mpr (Or.inr ⟨hr', by rw [hsame'.id]; exact hne⟩),
        hsame.trans hsame', fun h => ?_⟩
      have hrecord := hdone h
      rw [← hrecord] at h ⊢
      exact hdone' h

section Claim

variable {args : ClaimArgs} {lease : Time}

/-- A record with the key and the request of the claim. -/
def Answers (args : ClaimArgs) (record : RunRow) : Prop :=
  record.agentId = args.agent.agentId ∧ record.idempotencyKey = args.idempotencyKey ∧
    record.requestHash = some args.requestHash

/-- What a claim knows when it is about to commit. -/
def ClaimStaged (priv : Bool) (p : Pid) (args : ClaimArgs) (σ : Session) (c : RunClaim)
    (w : World) : Prop :=
  Answers args c.run ∧
    ((c.created = true ∧ (c.run.id = args.runId ∧ c.run.threadId = args.threadId) ∧
        ∃ freed, σ.writes = freed ++ [.insertRun c.run]) ∨
      (c.created = false ∧ Absent priv p args.runId w ∧ ∃ n, Seen p n σ.writes c.run w))

/-- What a claim has established. -/
def ClaimDone (priv : Bool) (p : Pid) (args : ClaimArgs) (c : RunClaim) (w : World) : Prop :=
  Answers args c.run ∧ Known c.run w ∧
    (c.created = true → c.run.id = args.runId ∧ c.run.threadId = args.threadId) ∧
    (c.created = false → Absent priv p args.runId w)

theorem ClaimStaged.persists (σ : Session) (c : RunClaim) :
    Persists priv p (ClaimStaged priv p args σ c) := by
  rintro w w' hi hi' hb ⟨hanswers, hcreated | ⟨hold, habsent, n, hseen⟩⟩
  · exact ⟨hanswers, Or.inl hcreated⟩
  · exact ⟨hanswers, Or.inr ⟨hold, Absent.persists _ w w' hi hi' hb habsent, n,
      Seen.persists n _ _ w w' hi hi' hb hseen⟩⟩

theorem ClaimDone.persists (c : RunClaim) : Persists priv p (ClaimDone priv p args c) := by
  rintro w w' hi hi' hb ⟨hanswers, hknown, hnew, hold⟩
  exact ⟨hanswers, (Known.lasts _).persists w w' hi hi' hb hknown, hnew,
    fun h => Absent.persists _ w w' hi hi' hb (hold h)⟩

/-- A claim that answers with an earlier run changes at most the expired row of its thread. -/
theorem Seen.staged {w : World} {n begun : Time} {writes : List Write} {record : RunRow}
    (h : Seen p n writes record w) : Staged w p ⟨p, .claim args, begun, some n, writes⟩ := by
  cases h.1 with
  | nothing => exact .nothing rfl (fun _ => rfl) rfl
  | expired hold hlock hexpire =>
    exact .update rfl rfl hold hlock (.expire hexpire) (fun _ => rfl) rfl
      fun _ hr => absurd hr (by simp [Call.target])

/-- `claim` from the `INSERT` on. -/
theorem insertClaim_body {n begun : Time} {writes : List Write} (hκ : κ ≠ .idle)
    (hA : Persists priv p A) (habsent : ∀ w, Inv priv w → A w → Absent priv p args.runId w)
    (hthread : ∀ w, Inv priv w → A w →
      w.holder (.thread args.threadId) = some p ∧ Freed w p n writes) :
    (discipline priv task post).Triple machine p (Beside p)
      (Inside p κ L ⟨p, .claim args, begun, some n, writes⟩ A) (insertClaim args lease n)
      (BodyPost p κ L (.claim args) (fun _ => True)
        fun σ c w => Staged w p σ ∧ ClaimStaged priv p args σ c w) := by
  unfold insertClaim
  refine insertRun (n := n) hκ hA rfl hthread ?_ ?_
  · -- the key was taken in the meantime
    refine read (C := fun rows w => ∀ r ∈ rows, Seen p n writes r w ∧
      r.agentId = args.agent.agentId ∧ r.idempotencyKey = args.idempotencyKey) hκ hA rfl rfl
      rfl ?_ ?_
    · intro w r w' fs hi hat ha hx
      simp only [execOk, view_eq hat] at hx
      obtain ⟨rfl, rfl, rfl⟩ : _ ∧ _ ∧ _ := by simpa [answer] using hx
      refine ⟨rfl, rfl, _, rfl, fun r hr => ?_⟩
      obtain ⟨hmem, hagent, hkey⟩ := Db.mem_runsByKey.mp hr
      exact ⟨⟨(hthread w hi ha).2, r, hmem, .refl r, fun _ => rfl⟩, hagent, hkey⟩
    · intro rows
      have hrows : Persists priv p fun w => ∀ r ∈ rows, Seen p n writes r w ∧
          r.agentId = args.agent.agentId ∧ r.idempotencyKey = args.idempotencyKey :=
        fun w w' hi hi' hb h r hr =>
          ⟨Seen.persists n writes r w w' hi hi' hb (h r hr).1, (h r hr).2⟩
      have hall := hA.and hrows
      cases hone : scalarOne rows with
      | error e => exact body_throw hκ hall rfl (scalarOne_error hone)
      | ok existing =>
        have hmem := scalarOne_ok hone
        cases hhash : checkHash existing args.requestHash with
        | error e =>
          show (discipline priv task post).Triple machine p (Beside p) _
            (lift (checkHash existing args.requestHash) >>= _) _
          rw [hhash]
          exact body_throw hκ hall rfl (checkHash_error hhash)
        | ok =>
          show (discipline priv task post).Triple machine p (Beside p) _
            (lift (checkHash existing args.requestHash) >>= _) _
          rw [hhash]
          refine body_pure hκ hall rfl fun w hi _ h => ?_
          obtain ⟨hseen, hagent, hkey⟩ := h.2 existing hmem
          exact ⟨hseen.staged, ⟨hagent, hkey, checkHash_ok hhash⟩,
            Or.inr ⟨rfl, habsent w hi h.1, n, hseen⟩⟩
  · intro stored hstored
    have hfreed : Persists priv p fun w => A w ∧ Inserted w p writes stored :=
      fun w w' hi hi' hb h =>
        ⟨hA w w' hi hi' hb h.1, hb.inserted hi (hthread w hi h.1).2 h.2⟩
    refine body_pure hκ hfreed rfl fun w hi _ h => ?_
    refine ⟨.insert rfl rfl rfl (hthread w hi h.1).2 hstored h.2, ?_, Or.inl ⟨rfl, ?_, writes, rfl⟩⟩
    · rw [hstored]
      exact ⟨rfl, rfl, rfl⟩
    · rw [hstored]
      exact ⟨rfl, rfl⟩

theorem claimSlot_body {begun : Time} (hκ : κ ≠ .idle) (hA : Persists priv p A)
    (habsent : ∀ w, Inv priv w → A w → Absent priv p args.runId w)
    (hthread : ∀ w, Inv priv w → A w → w.holder (.thread args.threadId) = some p) :
    (discipline priv task post).Triple machine p (Beside p)
      (Inside p κ L ⟨p, .claim args, begun, none, []⟩ A) (claimSlot args lease)
      (BodyPost p κ L (.claim args) (fun _ => True)
        fun σ c w => Staged w p σ ∧ ClaimStaged priv p args σ c w) := by
  unfold claimSlot
  refine lockActiveRuns hκ hA rfl rfl hthread fun rows => ?_
  have hrows : Persists priv p fun w => ∀ r ∈ rows, r.threadId = args.threadId ∧ Held p r w :=
    fun w w' hi hi' hb h r hr => ⟨(h r hr).1, Held.persists r w w' hi hi' hb (h r hr).2⟩
  have hall := hA.and hrows
  cases hone : scalarOneOrNone rows with
  | error e => exact body_throw hκ hall rfl (scalarOneOrNone_error hone)
  | ok active =>
    refine now hκ hall rfl fun n => ?_
    cases active with
    | none =>
      exact insertClaim_body hκ hall (fun w hi h => habsent w hi h.1)
        fun w hi h => ⟨hthread w hi h.1, .nothing⟩
    | some row =>
      have hmem : row ∈ rows := by
        rw [scalarOneOrNone_some hone]
        exact List.mem_cons_self
      cases he : expire row n with
      | none =>
        simp only [he]
        exact body_throw hκ hall rfl fun m h => by simp [threadBusy] at h
      | some expired =>
        simp only [he]
        refine write hκ hall rfl (insertClaim_body hκ hall (fun w hi h => habsent w hi h.1) ?_)
        exact fun w hi h => ⟨hthread w hi h.1, .expired (h.2 row hmem).2.1 (h.2 row hmem).2.2 he⟩

theorem claimIn_body {begun : Time} (hκ : κ ≠ .idle) (hA : Persists priv p A)
    (habsent : ∀ w, Inv priv w → A w → Absent priv p args.runId w) :
    (discipline priv task post).Triple machine p (Beside p)
      (Inside p κ L ⟨p, .claim args, begun, none, []⟩ A) (claimIn args lease)
      (BodyPost p κ L (.claim args) (fun _ => True)
        fun σ c w => Staged w p σ ∧ ClaimStaged priv p args σ c w) := by
  unfold claimIn
  refine lockThread_rule hκ hA rfl ?_
  have hlocked := hA.and (holds_persists (.thread args.threadId))
  cases hkey : args.idempotencyKey with
  | none => exact claimSlot_body hκ hlocked (fun w hi h => habsent w hi h.1) fun w hi h => h.2
  | some key =>
    refine read (C := fun rows w => ∀ r ∈ rows, Known r w ∧
      r.agentId = args.agent.agentId ∧ r.idempotencyKey = some key) hκ hlocked rfl rfl rfl ?_ ?_
    · intro w r w' fs hi hat ha hx
      simp only [execOk, view_eq hat, Db.after_nil] at hx
      obtain ⟨rfl, rfl, rfl⟩ : _ ∧ _ ∧ _ := by simpa [answer] using hx
      refine ⟨rfl, rfl, _, rfl, fun r hr => ?_⟩
      obtain ⟨hmem, hfound⟩ := Db.mem_runsByKey.mp hr
      exact ⟨known_of_mem hmem, hfound⟩
    · intro rows
      have hrows : Persists priv p fun w => ∀ r ∈ rows, Known r w ∧
          r.agentId = args.agent.agentId ∧ r.idempotencyKey = some key :=
        fun w w' hi hi' hb h r hr =>
          ⟨Known.lasts r w w' hi hi' hb.quiet (h r hr).1, (h r hr).2⟩
      have hall := hlocked.and hrows
      cases hone : scalarOneOrNone rows with
      | error e => exact body_throw hκ hall rfl (scalarOneOrNone_error hone)
      | ok previous =>
        cases previous with
        | none =>
          exact claimSlot_body hκ hall (fun w hi h => habsent w hi h.1.1) fun w hi h => h.1.2
        | some existing =>
          have hmem : existing ∈ rows := by
            rw [scalarOneOrNone_some hone]
            exact List.mem_cons_self
          show (discipline priv task post).Triple machine p (Beside p) _
            (lift (checkHash existing args.requestHash) >>= _) _
          cases hhash : checkHash existing args.requestHash with
          | error e => exact body_throw hκ hall rfl (checkHash_error hhash)
          | ok =>
            refine body_pure hκ hall rfl fun w hi _ h => ?_
            obtain ⟨⟨row, hrow, hsame, hdone⟩, hagent, hexisting⟩ := h.2 existing hmem
            refine ⟨.nothing rfl (fun _ => rfl) rfl,
              ⟨hagent, hexisting.trans hkey.symm, checkHash_ok hhash⟩, ?_⟩
            exact Or.inr ⟨rfl, habsent w hi h.1.1, 0, .nothing, row, hrow, hsame, hdone⟩

theorem claim_triple (hκ : κ ≠ .idle) (hA : Persists priv p A) (htask : ResolverTask priv task)
    (habsent : ∀ w, Inv priv w → A w → Absent priv p args.runId w)
    (hlease : args.lease = some lease)
    (hpriv : ∀ w, Inv priv w → At p κ L none w → A w → priv = true →
      CallPriv w ⟨p, .claim args, w.clock, none, []⟩) :
    (discipline priv task post).Triple machine p (Quiet p) (fun w => At p κ L none w ∧ A w)
      (claim args) (CallPost p κ L (.claim args) (fun _ => True) (ClaimDone priv p args)) := by
  unfold claim
  rw [hlease]
  refine transaction hκ hA (.const _) ClaimDone.persists ClaimStaged.persists htask hpriv
    (fun begun => claimIn_body hκ (hA.and Timely.lasts.persists)
      (fun w hi h => habsent w hi h.1)) ?_
  rintro σ c w hi hcall hat hs ⟨hanswers, hend⟩ w' hi' hdb hlog hmint hres
  rcases hend with
    ⟨hnew, hid, freed, hwrites⟩ | ⟨hold, habsent', n, hfreed, row, hrow, hsame, hdone⟩
  · refine ⟨hanswers, known_of_mem ?_, fun _ => hid, fun h => ?_⟩
    · rw [hdb, hwrites, Db.after_append]
      exact List.mem_append_right _ (List.mem_singleton.mpr rfl)
    · rw [hnew] at h
      exact absurd h (by simp)
  · refine ⟨hanswers, ⟨row, hdb ▸ hrow, hsame, hdone⟩, fun h => ?_, fun _ hp => ?_⟩
    · rw [hold] at h
      exact absurd h (by simp)
    · obtain ⟨hresolving, hdrawn, hnone⟩ := habsent' hp
      refine ⟨by rw [hres, hresolving], by rw [hmint, hdrawn], fun r hr => ?_⟩
      rw [hdb] at hr
      obtain ⟨r₀, hr₀, hid⟩ := hfreed.ids hr
      rw [← hid]
      exact hnone r₀ hr₀

end Claim

-- ---------------------------------------------------------------------------
-- `create_thread`
-- ---------------------------------------------------------------------------

/-- The transaction of `create_thread`. -/
theorem createThreadIn_triple {threadId : Uuid} {namespace_ : String} {userKey : Option String}
    (hκ : κ ≠ .idle) (htask : ResolverTask priv task)
    (hpriv : ∀ w, Inv priv w → At p κ L none w → priv = true →
      CallPriv w ⟨p, .createThread namespace_ userKey, w.clock, none, []⟩) :
    (discipline priv task post).Triple machine p (Quiet p) (fun w => At p κ L none w ∧ True)
      (inTransaction (.createThread namespace_ userKey) do
        perform (.insertThread ⟨threadId, namespace_, userKey⟩)
        match ← perform (.getThread threadId none) with
        | some row => pure row
        | none => throw (.py .noResultFound "No row was found when one was required"))
      (CallPost p κ L (.createThread namespace_ userKey) (fun _ => True) fun _ _ => True) := by
  refine transaction (B := fun _ _ _ => True) hκ (.const _) (.const _) (fun _ => .const _)
    (fun _ _ => .const _) htask (fun w hi hat _ hp => hpriv w hi hat hp) (fun begun => ?_)
    fun _ _ _ _ _ _ _ _ _ _ _ _ _ _ => trivial
  have hA : Persists priv p fun w => True ∧ Timely p w :=
    (Persists.const _).and Timely.lasts.persists
  refine insertThread hκ hA rfl ?_
  refine read (C := fun _ _ => True) hκ hA rfl rfl rfl ?_ ?_
  · intro w r w' fs hi hat ha hx
    obtain ⟨rfl, rfl, rfl⟩ : _ ∧ _ ∧ _ := by simpa [execOk, answer] using hx
    exact ⟨rfl, rfl, _, rfl, trivial⟩
  · rintro (_ | row)
    · exact body_throw hκ (hA.and (.const _)) rfl fun m h => Exn.noConfusion h
    · exact body_pure hκ (hA.and (.const _)) rfl fun w _ _ _ => ⟨.thread rfl rfl, trivial⟩

end Calls

end AgentRuntimeKit
