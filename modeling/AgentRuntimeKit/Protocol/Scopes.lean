import AgentRuntimeKit.Protocol.Locks

/-!
# What belongs to a namespace

A process acts in the namespace of the runtime that it runs for. `Op.Within` says that an
operation of such a process concerns that namespace alone: what it writes, what it hands to hooks
and the invoker, and what it streams. It also says that the process claims for the lease of its
runtime, and enters its deadline before it names a run. `Scoped` is what the world keeps while
every operation does.

## Results

* `ActsIn.later`, `ActsIn.before` — a process acts in one namespace for good.
* `Scoped.exec`, `Scoped.env`     — one move keeps the world scoped.
-/

namespace AgentRuntimeKit

open Lib

-- ---------------------------------------------------------------------------
-- Threads, runs and processes of a namespace
-- ---------------------------------------------------------------------------

/-- The thread belongs to this namespace. -/
def InNamespace (name : String) (t : Uuid) (db : Db) : Prop :=
  ∃ row ∈ db.threads, row.id = t ∧ row.namespace_ = name

/-- The run is one on a thread of this namespace. -/
def RunWithin (name : String) (runId : Uuid) (db : Db) : Prop :=
  ∃ r ∈ db.runs, r.id = runId ∧ InNamespace name r.threadId db

/-- The namespace of the runtime that a task was started on. -/
def Kind.namespace_ : Kind → Option String
  | .task (.invoke rt _ _ _) | .task (.stream rt _ _ _) => some rt.namespace_
  | _ => none

/-- The request of an invocation. -/
def Kind.request : Kind → Option RuntimeRequest
  | .task (.invoke _ _ request _) | .task (.stream _ _ request _) => some request
  | _ => none

/-- The lease that an invocation claims with. -/
def Kind.lease : Kind → Option Time
  | .task (.invoke rt _ _ _) | .task (.stream rt _ _ _) => some rt.lease
  | _ => none

/-- `p` acts for a runtime of this namespace: it is one of its invocations, or the clean-up
of one. -/
def ActsIn (name : String) (p : Pid) (w : World) : Prop :=
  (w.kind p).namespace_ = some name ∨
    ∃ parent status, w.kind p = .cleanup parent status ∧ (w.kind parent).namespace_ = some name

/-- The rows that a write leaves belong to this namespace. -/
def Write.Within (name : String) (db : Db) : Write → Prop
  | updateRun row | insertRun row => InNamespace name row.threadId db
  | insertThread row => row.namespace_ = name
  | insertMessages rows => ∀ row ∈ rows, InNamespace name row.threadId db

/-- The run that an item of a stream is about. -/
def Item.runId : Item → Option Uuid
  | event (.started runId _ _ _) => some runId
  | event (.completed response) => some response.runId
  | _ => none

/-- A message for `p`: one of its request, or one that is stored in this namespace. -/
def Supplied (name : String) (p : Pid) (m : Message) (w : World) : Prop :=
  (∃ request, (w.kind p).request = some request ∧ m ∈ request.messages) ∨
    ∃ row ∈ w.db.messages, row.message = m ∧ InNamespace name row.threadId w.db

/-- The invoker of `p` has put out these messages. -/
def Heard (p : Pid) (messages : List Message) (w : World) : Prop :=
  ∃ rd output, w.source p = some rd ∧ .completed output ∈ rd.source.events ∧
    output.messages = messages

/-- The lease of a row that `p` inserts is that of its runtime, from the begin of the
transaction on or longer. -/
def Leased (p : Pid) (row : RunRow) (w : World) : Prop :=
  ∀ σ lease, w.session p = some σ → (w.kind p).lease = some lease →
    ∃ e, row.leaseExpiresAt = some e ∧ σ.begun + lease ≤ e

/-- An operation of `p` concerns this namespace alone, and is one that its runtime is made for. -/
def Op.Within (name : String) (p : Pid) (w : World) : Op → Prop
  | updateRun row => InNamespace name row.threadId w.db
  | insertRun row _ => InNamespace name row.threadId w.db ∧ Leased p row w
  | insertThread row => row.namespace_ = name
  | insertMessages rows => ∀ row ∈ rows, InNamespace name row.threadId w.db
  | hook .beforeModel messages | awaitInvoker messages | openSource messages =>
    ∀ m ∈ messages, Supplied name p m w
  | hook .afterModel messages => Heard p messages w
  | put item => ∀ runId, item.runId = some runId → RunWithin name runId w.db
  | arm => (w.kind p).isInvocation = true → w.session p = none ∧ w.runId p = none
  | _ => True

/-- Whatever is done for a runtime concerns its namespace alone. -/
structure Scoped (w : World) : Prop where
  writes : ∀ q σ name, w.session q = some σ → ActsIn name σ.client w →
    ∀ x ∈ σ.writes, x.Within name w.db
  /-- The runs that a runtime has inserted. -/
  runs : ∀ r ∈ w.db.runs, ∀ p name, w.mint r.id = some p → ActsIn name p w →
    InNamespace name r.threadId w.db
  named : ∀ r ∈ w.db.runs, ∀ response, r.response = some response → response.runId = r.id
  streamed : ∀ p name, ActsIn name p w → ∀ item ∈ (w.stream p).pushed,
    ∀ runId, item.runId = some runId → RunWithin name runId w.db

-- ---------------------------------------------------------------------------
-- What lasts
-- ---------------------------------------------------------------------------

theorem Write.threads_apply (db : Db) (x : Write) : db.threads ⊆ (x.apply db).threads := by
  cases x with
  | insertThread row => exact List.subset_append_left _ _
  | _ => exact List.Subset.refl _

theorem Write.messages_apply (db : Db) (x : Write) : db.messages ⊆ (x.apply db).messages := by
  cases x with
  | insertMessages rows => exact List.subset_append_left _ _
  | _ => exact List.Subset.refl _

theorem Db.threads_after (db : Db) (xs : List Write) : db.threads ⊆ (db.after xs).threads := by
  induction xs generalizing db with
  | nil => exact List.Subset.refl _
  | cons x rest ih => exact List.Subset.trans (Write.threads_apply db x) (ih (x.apply db))

theorem Db.messages_after (db : Db) (xs : List Write) : db.messages ⊆ (db.after xs).messages := by
  induction xs generalizing db with
  | nil => exact List.Subset.refl _
  | cons x rest ih => exact List.Subset.trans (Write.messages_apply db x) (ih (x.apply db))

/-- A run after some writes was there before, or one of them wrote it. -/
theorem Db.mem_runs_after {db : Db} {xs : List Write} {r : RunRow} (h : r ∈ (db.after xs).runs) :
    r ∈ db.runs ∨ .updateRun r ∈ xs ∨ .insertRun r ∈ xs := by
  induction xs generalizing db with
  | nil => exact Or.inl h
  | cons x rest ih =>
    rcases ih h with hold | hupdate | hinsert
    · cases x with
      | updateRun row =>
        rcases mem_updateRun.mp hold with ⟨rfl, -⟩ | ⟨hold, -⟩
        · exact Or.inr (Or.inl List.mem_cons_self)
        · exact Or.inl hold
      | insertRun row =>
        rcases List.mem_append.mp hold with hold | hnew
        · exact Or.inl hold
        · rw [List.mem_singleton.mp hnew]
          exact Or.inr (Or.inr List.mem_cons_self)
      | _ => exact Or.inl hold
    · exact Or.inr (Or.inl (List.mem_cons_of_mem _ hupdate))
    · exact Or.inr (Or.inr (List.mem_cons_of_mem _ hinsert))

/-- Threads are never removed. -/
theorem Evolution.threads {w w' : World} (h : Evolution w w') : w.db.threads ⊆ w'.db.threads := by
  rcases h.tables with ⟨hsame, -⟩ | ⟨q, σ, hc⟩
  · rw [hsame]
    exact List.Subset.refl _
  · rw [hc.db]
    exact Db.threads_after _ _

/-- Messages are never removed. -/
theorem Evolution.messages {w w' : World} (h : Evolution w w') :
    w.db.messages ⊆ w'.db.messages := by
  rcases h.tables with ⟨hsame, -⟩ | ⟨q, σ, hc⟩
  · rw [hsame]
    exact List.Subset.refl _
  · rw [hc.db]
    exact Db.messages_after _ _

/-- A run stays, and stays on its thread. -/
theorem Evolution.run {w w' : World} (h : Evolution w w') (hdb : DbOk w.db) {r : RunRow}
    (hr : r ∈ w.db.runs) : ∃ r' ∈ w'.db.runs, r'.id = r.id ∧ r'.threadId = r.threadId := by
  rcases h.row hdb hr with hkept | ⟨q, σ, r', -, hr', n, -, -, hmove⟩
  · exact ⟨r, hkept, rfl, rfl⟩
  · exact ⟨r', hr', hmove.unmoved.id, hmove.unmoved.threadId⟩

section Later

variable {w w' : World} {name : String} {p : Pid} {t runId : Uuid}

theorem InNamespace.later (h : InNamespace name t w.db) (hevo : Evolution w w') :
    InNamespace name t w'.db := by
  obtain ⟨row, hrow, hid, hname⟩ := h
  exact ⟨row, hevo.threads hrow, hid, hname⟩

theorem InNamespace.after {db : Db} (h : InNamespace name t db) (xs : List Write) :
    InNamespace name t (db.after xs) := by
  obtain ⟨row, hrow, hid, hname⟩ := h
  exact ⟨row, Db.threads_after db xs hrow, hid, hname⟩

theorem RunWithin.later (h : RunWithin name runId w.db) (hdb : DbOk w.db) (hevo : Evolution w w') :
    RunWithin name runId w'.db := by
  obtain ⟨r, hr, hid, ht⟩ := h
  obtain ⟨r', hr', hid', ht'⟩ := hevo.run hdb hr
  exact ⟨r', hr', hid'.trans hid, ht' ▸ ht.later hevo⟩

theorem Write.Within.later {x : Write} (h : x.Within name w.db) (hevo : Evolution w w') :
    x.Within name w'.db := by
  cases x with
  | insertThread row => exact h
  | insertMessages rows => exact fun row hrow => (h row hrow).later hevo
  | updateRun row => exact InNamespace.later h hevo
  | insertRun row => exact InNamespace.later h hevo

theorem Op.Within.write {o : Op} {begun : Time} {x : Write} (h : o.Within name p w)
    (hx : o.write? begun = some x) : x.Within name w.db := by
  cases o
  all_goals first
    | (rw [← Option.some.inj hx]
       first
        | exact h
        | exact h.1)
    | exact absurd hx (by simp [Op.write?])

theorem Kind.namespace_ne_idle {κ : Kind} (h : κ.namespace_ = some name) : κ ≠ .idle := by
  rintro rfl
  exact absurd h (by simp [Kind.namespace_])

theorem ActsIn.started (h : ActsIn name p w) : w.kind p ≠ .idle := by
  rcases h with h | ⟨parent, status, hkind, -⟩
  · exact Kind.namespace_ne_idle h
  · rw [hkind]
    exact Kind.noConfusion

theorem ActsIn.not_resolver (h : ActsIn name p w) {client : Pid} :
    w.kind p ≠ .resolver client := by
  rcases h with h | ⟨parent, status, hkind, -⟩
  · intro hkind
    rw [hkind] at h
    exact absurd h (by simp [Kind.namespace_])
  · rw [hkind]
    exact Kind.noConfusion

theorem ActsIn.later (h : ActsIn name p w) (hevo : Evolution w w') : ActsIn name p w' := by
  rcases h with h | ⟨parent, status, hkind, h⟩
  · exact Or.inl (by rw [hevo.kind p (Kind.namespace_ne_idle h), h])
  · refine Or.inr ⟨parent, status, ?_, ?_⟩
    · rw [hevo.kind p (by rw [hkind]; exact Kind.noConfusion), hkind]
    · rw [hevo.kind parent (Kind.namespace_ne_idle h), h]

/-- A process acts in one namespace. -/
theorem ActsIn.unique {other : String} (h : ActsIn name p w) (h' : ActsIn other p w) :
    name = other := by
  rcases h with h | ⟨parent, status, hkind, h⟩
  · rcases h' with h' | ⟨parent', status', hkind', -⟩
    · exact Option.some.inj (h.symm.trans h')
    · rw [hkind'] at h
      exact absurd h (by simp [Kind.namespace_])
  · rcases h' with h' | ⟨parent', status', hkind', h'⟩
    · rw [hkind] at h'
      exact absurd h' (by simp [Kind.namespace_])
    · obtain ⟨rfl, -⟩ := Kind.cleanup.inj (hkind.symm.trans hkind')
      exact Option.some.inj (h.symm.trans h')

/-- The namespace in which a started process acts is the one it has acted in all along. -/
theorem ActsIn.before {priv : Bool} (h : ActsIn name p w') (hinv : Inv priv w)
    (hevo : Evolution w w') (hstarted : w.kind p ≠ .idle) : ActsIn name p w := by
  rcases h with h | ⟨parent, status, hkind, h⟩
  · exact Or.inl (by rw [← hevo.kind p hstarted, h])
  · rw [hevo.kind p hstarted] at hkind
    refine Or.inr ⟨parent, status, hkind, ?_⟩
    have hcleanup := (hinv.proc p).parent parent status hkind
    have hparent : w.kind parent ≠ .idle := by
      intro hidle
      rw [((hinv.proc parent).idle hidle).cleanup] at hcleanup
      exact absurd hcleanup (by simp)
    rw [← hevo.kind parent hparent, h]

theorem Supplied.later {m : Message} (h : Supplied name p m w) (hevo : Evolution w w')
    (hkind : w'.kind p = w.kind p) : Supplied name p m w' := by
  rcases h with ⟨request, hrequest, hm⟩ | ⟨row, hrow, hm, ht⟩
  · exact Or.inl ⟨request, by rw [hkind, hrequest], hm⟩
  · exact Or.inr ⟨row, hevo.messages hrow, hm, ht.later hevo⟩

end Later

-- ---------------------------------------------------------------------------
-- One move
-- ---------------------------------------------------------------------------

namespace Scoped

variable {w w' : World} {p : Pid} {name : String}

theorem initial (clock : Time) : Scoped (.initial clock) where
  writes := fun _ _ _ h => absurd h (by simp [World.initial])
  runs := fun _ h => absurd h List.not_mem_nil
  named := fun _ h => absurd h List.not_mem_nil
  streamed := fun _ _ _ _ h => absurd h List.not_mem_nil

theorem minted_started (hinv : Inv true w) {u : Uuid} (h : w.mint u = some p) : w.kind p ≠ .idle :=
  fun hidle => ((hinv.proc p).idle hidle).mint u h

/-- What a row of the tables still says after a step. -/
theorem runs_of_old (h : Scoped w) (hinv : Inv true w) (hevo : Evolution w w') {r : RunRow}
    (hr : r ∈ w.db.runs) (hmint : w'.mint r.id = some p) (hacts : ActsIn name p w') :
    InNamespace name r.threadId w'.db := by
  obtain ⟨q, hq, -⟩ := (hinv.rowsPriv rfl).minted r hr
  have hsame : q = p := Option.some.inj ((hevo.mint _ _ hq).symm.trans hmint)
  rw [hsame] at hq
  have hbefore := hacts.before hinv hevo (minted_started hinv hq)
  exact (h.runs r hr p name hq hbefore).later hevo

/-- The rows of a claim belong to the namespace of whoever claimed. -/
theorem runs_of_commit (h : Scoped w) (hinv : Inv true w) (hevo : Evolution w w') {q : Pid}
    {σ : Session} (hc : Commits w w' q σ) {r : RunRow} (hr : r ∈ w'.db.runs)
    (hmint : w'.mint r.id = some p) (hacts : ActsIn name p w') :
    InNamespace name r.threadId w'.db := by
  rw [hc.db] at hr
  rcases hc.staged.backward hr with hold | ⟨old, hold, now, -, -, hmove⟩ |
    ⟨-, args, lease, now, hcall, hrow⟩
  · exact runs_of_old h hinv hevo hold hmint hacts
  · rw [hmove.unmoved.threadId]
    rw [hmove.unmoved.id] at hmint
    exact runs_of_old h hinv hevo hold hmint hacts
  · have hok := (hinv.proc q).session σ hc.session
    obtain ⟨hclient, -, -⟩ := (hok.callPriv rfl).claim args hcall
    have hid : r.id = args.runId := by rw [hrow]; rfl
    have hsame : σ.client = p :=
      Option.some.inj ((hevo.mint _ _ (hid ▸ hclient)).symm.trans hmint)
    have hbefore := hacts.before hinv hevo (hsame ▸ hok.started)
    have hwrites := h.writes q σ name hc.session (hsame ▸ hbefore)
    rcases Db.mem_runs_after hr with hold | hupdate | hinsert
    · exact runs_of_old h hinv hevo hold hmint hacts
    · exact InNamespace.later (hwrites _ hupdate) hevo
    · exact InNamespace.later (hwrites _ hinsert) hevo

/-- A completed run carries its own response. -/
theorem named_of_commit (h : Scoped w) {q : Pid} {σ : Session} (hc : Commits w w' q σ) {r : RunRow}
    (hr : r ∈ w'.db.runs) {response : RuntimeResponse} (hresponse : r.response = some response) :
    response.runId = r.id := by
  rw [hc.db] at hr
  rcases hc.staged.backward hr with hold | ⟨old, hold, now, -, -, hmove⟩ |
    ⟨-, args, lease, now, hcall, hrow⟩
  · exact h.named r hold response hresponse
  · cases hmove with
    | expire hexpire =>
      rw [(expire_some hexpire).2.2] at hresponse
      exact absurd hresponse (by simp)
    | transition => exact h.named old hold response hresponse
    | @complete token messages answer _ _ hcheck =>
      rw [← Option.some.inj hresponse]
      exact (checkCompletion_ok hcheck).2.1
    | settle => exact absurd hresponse (by simp [settled])
  · rw [hrow] at hresponse
    exact absurd hresponse (by simp [claimRow])

/-- A step keeps what is said of the tables. -/
theorem step (h : Scoped w) (hinv : Inv true w) (hevo : Evolution w w')
    (hwrites : ∀ q σ name, w'.session q = some σ → ActsIn name σ.client w' →
      ∀ x ∈ σ.writes, x.Within name w'.db)
    (hstreamed : ∀ p name, ActsIn name p w' → ∀ item ∈ (w'.stream p).pushed,
      ∀ runId, item.runId = some runId → RunWithin name runId w'.db) : Scoped w' := by
  refine ⟨hwrites, fun r hr p name hmint hacts => ?_, fun r hr response hresponse => ?_, hstreamed⟩
  · rcases hevo.tables with ⟨hsame, -⟩ | ⟨q, σ, hc⟩
    · exact runs_of_old h hinv hevo (hsame ▸ hr) hmint hacts
    · exact runs_of_commit h hinv hevo hc hr hmint hacts
  · rcases hevo.tables with ⟨hsame, -⟩ | ⟨q, σ, hc⟩
    · exact h.named r (hsame ▸ hr) response hresponse
    · exact named_of_commit h hc hr hresponse

/-- What was written in a transaction that goes on. -/
theorem writes_kept (h : Scoped w) (hinv : Inv true w) (hevo : Evolution w w') {q : Pid}
    {σ σ' : Session} (hσ : w.session q = some σ) (hclient : σ'.client = σ.client)
    (hacts : ActsIn name σ'.client w') : ∀ x ∈ σ.writes, x.Within name w'.db := by
  rw [hclient] at hacts
  have hbefore := hacts.before hinv hevo ((hinv.proc q).session σ hσ).started
  exact fun x hx => (h.writes q σ name hσ hbefore x hx).later hevo

/-- What a process has streamed so far. -/
theorem streamed_kept (h : Scoped w) (hinv : Inv true w) (hevo : Evolution w w')
    (hacts : ActsIn name p w') : ∀ item ∈ (w.stream p).pushed,
      ∀ runId, item.runId = some runId → RunWithin name runId w'.db := by
  intro item hitem runId hrun
  by_cases hidle : w.kind p = .idle
  · rw [((hinv.proc p).idle hidle).stream] at hitem
    exact absurd hitem List.not_mem_nil
  · have hbefore := hacts.before hinv hevo hidle
    exact (h.streamed p name hbefore item hitem runId hrun).later hinv.db hevo

/-- An operation that concerns the namespace of whoever performs it. -/
theorem exec (h : Scoped w) (hinv : Inv true w) (hevo : Evolution w w') {o : Op} {c : Choice}
    {r : Except Exn (Res o)} {fs : Forks} (hx : exec p w o c = some (r, w', fs))
    (hstarted : w.kind p ≠ .idle)
    (hresolver : ∀ client begun, w.kind p = .resolver client → o.write? begun = none)
    (hwithin : ∀ name, ActsIn name p w → o.Within name p w) : Scoped w' := by
  refine h.step hinv hevo (fun q σ name hσ hacts => ?_) fun q name hacts item hitem runId hrun => ?_
  · cases exec_sessions hx hσ with
    | kept h₀ => exact h.writes_kept hinv hevo h₀ rfl hacts
    | begun _ heq =>
      rw [heq]
      exact fun x hx => absurd hx List.not_mem_nil
    | @reading σ₀ _ h₀ heq =>
      have hkept := h.writes_kept hinv hevo h₀ (by rw [heq]) hacts
      rw [heq]
      exact hkept
    | @flushed σ₀ x _ h₀ heq hwrite =>
      have hkept := h.writes_kept hinv hevo h₀ (by rw [heq]) hacts
      have hclient : σ₀.client = p := by
        rcases ((hinv.proc p).session σ₀ h₀).client with hclient | ⟨hkind, -⟩
        · exact hclient
        · rw [hresolver _ _ hkind] at hwrite
          exact absurd hwrite (by simp)
      have hacts' : ActsIn name p w := by
        rw [heq, hclient] at hacts
        exact hacts.before hinv hevo hstarted
      intro y hy
      rw [heq] at hy
      rcases List.mem_append.mp hy with hy | hy
      · exact hkept y hy
      · rw [List.mem_singleton.mp hy]
        exact ((hwithin name hacts').write hwrite).later hevo
    | handed h₀ _ => exact h.writes_kept hinv hevo h₀ rfl hacts
  · have hkept := h.streamed_kept hinv hevo hacts
    have hframe := congrFun (exec_frame hx).stream q
    by_cases hput : ∃ new, o = .put new
    · obtain ⟨new, rfl⟩ := hput
      cases r with
      | error e =>
        rw [hframe] at hitem
        exact hkept item hitem runId hrun
      | ok =>
        rw [hframe] at hitem
        by_cases hq : q = p
        · subst hq
          simp only [Function.update_self] at hitem
          rcases List.mem_append.mp hitem with hitem | hitem
          · exact hkept item hitem runId hrun
          · rw [List.mem_singleton.mp hitem] at hrun
            have hw := hwithin name (hacts.before hinv hevo hstarted)
            exact RunWithin.later (hw runId hrun) hinv.db hevo
        · simp only [Function.update_of_ne hq] at hitem
          exact hkept item hitem runId hrun
    · have hsame : w'.stream q = w.stream q := by
        rw [hframe]
        cases o
        all_goals first
          | rfl
          | exact absurd ⟨_, rfl⟩ hput
      rw [hsame] at hitem
      exact hkept item hitem runId hrun

/-- The environment opens no transaction and streams nothing. -/
theorem env_frame {e : Env} {fs : Forks} (h : env w e = some (w', fs)) :
    w'.session = w.session ∧ ∀ p, (w'.stream p).pushed = (w.stream p).pushed := by
  have hstream : ∀ q s, s.pushed = (w.stream q).pushed → ∀ p,
      ((w.setStream q s).stream p).pushed = (w.stream p).pushed := by
    intro q s hs p
    show (Function.update w.stream q s p).pushed = _
    by_cases hp : p = q
    · rw [hp, Function.update_self, hs]
    · rw [Function.update_of_ne hp]
  cases e
  all_goals simp only [AgentRuntimeKit.env] at h
  all_goals repeat' split at h
  all_goals first
    | obtain ⟨rfl, -⟩ : _ ∧ _ := by simpa only [Option.some.injEq, Prod.mk.injEq] using h
    | exact absurd h (by simp)
  all_goals first
    | exact ⟨rfl, fun _ => rfl⟩
    | exact ⟨rfl, hstream _ _ rfl⟩

theorem env (h : Scoped w) (hinv : Inv true w) (hevo : Evolution w w') {e : Env} {fs : Forks}
    (hx : env w e = some (w', fs)) : Scoped w' := by
  obtain ⟨hsession, hpushed⟩ := env_frame hx
  refine h.step hinv hevo (fun q σ name hσ hacts => ?_) fun q name hacts item hitem => ?_
  · rw [hsession] at hσ
    exact h.writes_kept hinv hevo hσ rfl hacts
  · rw [hpushed] at hitem
    exact h.streamed_kept hinv hevo hacts item hitem

end Scoped

end AgentRuntimeKit
