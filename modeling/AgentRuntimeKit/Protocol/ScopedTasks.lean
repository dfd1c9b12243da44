import AgentRuntimeKit.Protocol.Producers
import AgentRuntimeKit.Protocol.ScopedTurns

/-!
# Every task within its namespace

Deadline, reconciliation, the producer of a stream and the clean-up, watched for the namespace
of their runtime. Whoever acts in no namespace is watched for nothing, and every process in every
run is one or the other.

## Results

* `invokeTracked_confines`, `produce_confines`, `cleanupTask_confines` — the tasks.
* `Reachable.scoped`  — the world is scoped wherever callers start runtime tasks only.
* `Reachable.confined`, `Reachable.answeredIn` — what each process does next, and answers.
-/

namespace AgentRuntimeKit

open Lib Prog

section Tasks

variable {name : String} {p : Pid} {α β : Type} {A F : World → Prop} {R : α → World → Prop}

-- ---------------------------------------------------------------------------
-- Deadlines
-- ---------------------------------------------------------------------------

/-- What a body under a deadline has ended in. -/
def EndsIn (R : α → World → Prop) (out : Except Exn α × Bool) (w : World) : Prop :=
  ∀ a, out.1 = .ok a → R a w

theorem EndsIn.rests {out : Except Exn α × Bool} (hR : ∀ a, Rests p (R a)) :
    Rests p (EndsIn R out) :=
  fun w w' hi hi' hevo hkind hsession hsource h a ha =>
    hR a w w' hi hi' hevo hkind hsession hsource (h a ha)

/-- `asyncio.timeout` around a body. -/
theorem timeoutScope_confines {body : P α} (hA : Rests p A) (hR : ∀ a, Rests p (R a))
    (harm : ∀ w, A w → (w.kind p).isInvocation = true → w.session p = none ∧ w.runId p = none)
    (hbody : Confines name p A body R) :
    Confines name p A (timeoutScope body) (EndsIn R) := by
  rw [timeoutScope_eq]
  refine Confines.same hA rfl (fun w _ _ _ h => harm w h) fun _ => ?_
  have htrue : Rests p fun _ => True := .of_durable (.const True)
  refine Confines.handle hbody (fun a => ?_) fun e => ?_
  · unfold leaveScope
    refine Confines.same (hR a) rfl (fun _ _ _ _ _ => trivial) fun _ => ?_
    refine Confines.same (hR a) rfl (fun _ _ _ _ _ => trivial) fun expired => ?_
    refine Confines.pure (hR a) fun w h a' ha' => ?_
    rw [← Except.ok.inj ha']
    exact h
  · have hnot : ∀ (e : Exn) (b : Bool) (w : World), EndsIn R (.error e, b) w :=
      fun e b w a ha => absurd ha (by simp)
    unfold leaveScope
    refine Confines.same htrue rfl (fun _ _ _ _ _ => trivial) fun _ => ?_
    split
    · exact Confines.pure htrue fun w _ => hnot _ _ w
    · refine Confines.same htrue rfl (fun _ _ _ _ _ => trivial) fun expired => ?_
      exact Confines.pure htrue fun w _ => hnot _ _ w

-- ---------------------------------------------------------------------------
-- The clean-up
-- ---------------------------------------------------------------------------

/-- `p` is the clean-up of an invocation that has named this run. -/
structure Cleans (name : String) (p : Pid) (runId : Uuid) (w : World) : Prop where
  owned : Owned name runId w
  cleanup : (w.kind p).isInvocation = false

theorem Cleans.durable {runId : Uuid} : Durable true p (Cleans name p runId) := by
  intro w w' hi hi' hevo hkind h
  refine ⟨Owned.durable w w' hi hi' hevo hkind h.owned, ?_⟩
  rw [hkind, h.cleanup]

theorem settleFailure_confines {runId token : Uuid} {code : String} {status : RunStatus} :
    Confines name p (Outside p (Cleans name p runId)) (settleFailure runId token code status)
      fun _ _ => True := by
  have hF : Durable true p (Cleans name p runId) := Cleans.durable
  have hout : ∀ record : RunRecord, Rests p (Outside p (Cleans name p runId)) :=
    fun _ => Outside.rests hF
  have hA : ∀ out : Except Exn RunRecord × Bool,
      Rests p (EndsIn (fun _ => Outside p (Cleans name p runId)) out) :=
      fun out => EndsIn.rests hout
  unfold settleFailure
  refine Confines.bind (timeoutScope_confines (Outside.rests hF) hout
    (fun w h hkind => absurd (h.2.cleanup.symm.trans hkind) Bool.false_ne_true)
    (Confines.failIfRunning hF (fun _ h => h.owned) code status)) fun out => ?_
  split
  · exact Confines.pure (hA out) fun _ _ => trivial
  · exact Confines.pure (hA out) fun _ _ => trivial
  · split
    · exact Confines.pure (hA out) fun _ _ => trivial
    · exact Confines.throw (hA out)

/-- The clean-up of an invocation settles a run that the invocation has named. -/
theorem cleanupTask_confines {runId token : Uuid} {code : String} {status : RunStatus} :
    Confines name p (Outside p (Cleans name p runId)) (cleanupTask runId token code status)
      fun answer _ => answer = .nothing := by
  have hA : Rests p fun _ => True := .of_durable (.const True)
  unfold cleanupTask
  refine Confines.bind settleFailure_confines fun outcome => ?_
  exact Confines.same hA rfl (fun _ _ _ _ _ => trivial) fun _ => Confines.pure hA fun _ _ => rfl

-- ---------------------------------------------------------------------------
-- Reconciliation
-- ---------------------------------------------------------------------------

/-- The clean-up of `p` runs as `q`. -/
def CleansUp (p q : Pid) (w : World) : Prop := ∃ status, w.kind q = .cleanup p status

theorem CleansUp.durable {q : Pid} : Durable true p (CleansUp p q) := by
  rintro w w' - - hevo - ⟨status, h⟩
  refine ⟨status, (hevo.kind q ?_).trans h⟩
  rw [h]
  exact Kind.noConfusion

theorem spawnCleanup_ok {w w' : World} {runId token : Uuid} {code : String} {status : RunStatus}
    {timeout : Time} {c : Choice} {q : Pid} {fs : Forks}
    (h : exec p w (.spawnCleanup runId token code status timeout) c = some (.ok q, w', fs)) :
    CleansUp p q w' := by
  cases c
  all_goals simp only [exec, execOk, answer] at h
  all_goals repeat' split at h
  all_goals first
    | (obtain ⟨hq, rfl, -⟩ : _ ∧ _ ∧ _ := by
        simpa only [Option.some.injEq, Prod.mk.injEq, Except.ok.injEq] using h
       rw [← hq]
       exact ⟨status, Function.update_self _ _ _⟩)
    | exact absurd h (by simp)

theorem awaitCleanup_ok {w w' : World} {q : Pid} {c : Choice} {record : Option RunRecord}
    {fs : Forks} (h : exec p w (.awaitCleanup q) c = some (.ok record, w', fs)) :
    ∃ outcome, w.settled q = some outcome ∧ record = outcome.result := by
  rcases exec_plain rfl h with hx | ⟨e, he, -⟩
  · simp only [execOk, answer] at hx
    split at hx
    · next outcome hsettled =>
      obtain ⟨hrecord, -⟩ : _ ∧ _ := by
        simpa only [Option.some.injEq, Prod.mk.injEq, Except.ok.injEq] using hx
      exact ⟨outcome, hsettled, hrecord.symm⟩
    · exact absurd hx (by simp)
  · exact absurd he (by simp)

/-- What a clean-up has found succeeded is a run of the namespace. -/
theorem durableResponse_within {w : World} {q : Pid} {outcome : SettleOutcome}
    {response : RuntimeResponse} (hi : Inv true w) (hs : Scoped w) (hacts : ActsIn name p w)
    (hclean : CleansUp p q w) (hsettled : w.settled q = some outcome)
    (h : durableResponse outcome.result = some response) :
    RunWithin name response.runId w.db := by
  obtain ⟨status, hkind⟩ := hclean
  have hok := (hi.rowsPriv rfl).outcomes q outcome p status hsettled hkind
  cases outcome with
  | settled record =>
    obtain ⟨hmem, -, hrun⟩ := hok
    have hresponse : record.response = some response := by
      unfold SettleOutcome.result durableResponse at h
      dsimp only at h
      split at h
      · exact h
      · exact absurd h (by simp)
    rw [hs.named record hmem response hresponse]
    exact ⟨record, hmem, rfl, hs.runs record hmem p name ((hi.proc p).runId _ hrun) hacts⟩
  | _ => exact absurd h (by simp [SettleOutcome.result, durableResponse])

/-- What `_record_failure` answers. -/
def Recovered (name : String) (record : Option RunRecord) (w : World) : Prop :=
  ∀ response, durableResponse record = some response → RunWithin name response.runId w.db

theorem Recovered.durable {record : Option RunRecord} : Durable true p (Recovered name record) :=
  fun _ _ hi _ hevo _ h response hresponse => (h response hresponse).later hi.db hevo

theorem recordFailure_confines {runId token : Uuid} {code : String} {status : RunStatus}
    {timeout : Time} :
    Confines name p (fun _ => True) (recordFailure runId token code status timeout)
      (Recovered name) := by
  have htrue : Rests p fun _ => True := .of_durable (.const True)
  unfold recordFailure
  refine Confines.keep (C := CleansUp p) htrue rfl (fun _ _ _ _ _ => trivial)
    (fun _ _ _ _ _ _ _ _ _ _ _ _ hx => spawnCleanup_ok hx) fun q => ?_
  rw [← bind_pure (perform (.awaitCleanup q))]
  have hA : Rests p fun w => True ∧ CleansUp p q w := htrue.and (.of_durable CleansUp.durable)
  refine Confines.keep (C := Recovered name) hA rfl (fun _ _ _ _ _ => trivial) ?_ fun record => ?_
  · intro w c record w' fs hi hs hi' _ hevo hacts h hx response hresponse
    obtain ⟨outcome, hsettled, rfl⟩ := awaitCleanup_ok hx
    have hwithin := durableResponse_within hi hs hacts h.2 hsettled hresponse
    exact hwithin.later hi.db hevo
  · exact Confines.pure (hA.and (.of_durable Recovered.durable)) fun _ h => h.2

theorem Answered.rests {response : RuntimeResponse} : Rests p (Answered.Within name response) :=
  .of_durable RunWithin.durable

theorem reconcile_confines {rt : Runtime} {token : Uuid} {exc : Exn} {expired : Bool} :
    Confines name p (fun _ => True) (reconcile rt token exc expired) (Answered.Within name) := by
  have htrue : Rests p fun _ => True := .of_durable (.const True)
  unfold reconcile
  refine Confines.same htrue rfl (fun _ _ _ _ _ => trivial) fun runId => ?_
  split
  · exact Confines.throw htrue
  · exact Confines.bind recordFailure_confines fun _ =>
      Confines.throw (.of_durable Recovered.durable)
  · exact Confines.throw htrue
  · refine Confines.bind recordFailure_confines fun record => ?_
    split
    · next response hresponse =>
      exact Confines.pure (.of_durable Recovered.durable) fun w h => h response hresponse
    · exact Confines.throw (.of_durable Recovered.durable)

-- ---------------------------------------------------------------------------
-- Invocations and streams
-- ---------------------------------------------------------------------------

section Invocations

variable {rt : Runtime} {agentId : String} {request : RuntimeRequest} {key : Option String}
  {emit : Bool}

/-- `p` has not named a run yet. -/
def Unnamed (p : Pid) (rt : Runtime) (request : RuntimeRequest) (w : World) : Prop :=
  Outside p (AskedBy p rt request) w ∧ w.runId p = none

theorem Unnamed.rests : Rests p (Unnamed p rt request) :=
  (Outside.rests AskedBy.durable).and fun _ _ _ _ _ _ _ hsame h => hsame.runId.trans h

theorem invokeWithDeadline_confines :
    Confines rt.namespace_ p (Unnamed p rt request)
      (invokeWithDeadline rt agentId request key emit) (Answered.Within rt.namespace_) := by
  have hA : ∀ out, Rests p (EndsIn (Answered.Within rt.namespace_) out) :=
    fun out => EndsIn.rests fun _ => Answered.rests
  unfold invokeWithDeadline
  refine Confines.same Unnamed.rests rfl (fun _ _ _ _ _ => trivial) fun token => ?_
  refine Confines.bind (timeoutScope_confines Unnamed.rests (fun _ => Answered.rests)
    (fun w h _ => ⟨h.1.1, h.2⟩) (execute_confines.pre fun _ _ _ _ h => h.1)) fun out => ?_
  split
  · next response hout => exact Confines.pure (hA out) fun w h => h response hout
  · exact reconcile_confines.pre fun _ _ _ _ _ => trivial

/-- An invocation answers with the response of a run of its namespace. -/
theorem invokeTracked_confines :
    Confines rt.namespace_ p (Unnamed p rt request)
      (invokeTracked rt agentId request key emit) (Answered.Within rt.namespace_) := by
  unfold invokeTracked
  refine Confines.same Unnamed.rests rfl (fun _ _ _ _ _ => trivial) fun closing => ?_
  split
  · exact Confines.throw Unnamed.rests
  · exact invokeWithDeadline_confines

/-- An item that is about no run. -/
theorem putOther_confines {item : Item} {f : Unit → P α} (hitem : item.runId = none)
    (hf : Confines name p (fun _ => True) (f ()) R) :
    Confines name p (fun _ => True) (perform (.put item) >>= f) R := by
  refine Confines.same (.of_durable (.const True)) rfl (fun _ _ _ _ _ runId h => ?_) fun _ => hf
  exact absurd (hitem.symm.trans h) (by simp)

/-- A stream puts out events about runs of its namespace alone. -/
theorem produce_confines :
    Confines rt.namespace_ p (Unnamed p rt request) (produce rt agentId request key)
      fun answer _ => answer = .nothing := by
  have htrue : Rests p fun _ => True := .of_durable (.const True)
  -- a failure of the invocation, or of its completed event
  have hfailed : ∀ exc : Exn, Confines rt.namespace_ p (fun _ => True)
      (if exc.isException then perform (.put (.failure exc)) else throw exc : P Unit)
      fun _ _ => True := by
    intro exc
    split
    · rw [← bind_pure (perform (.put (.failure exc)))]
      exact putOther_confines rfl (Confines.pure htrue fun _ h => h)
    · exact Confines.throw htrue
  have hlast : Confines rt.namespace_ p (fun _ => True) sentinelLast
      fun answer _ => answer = .nothing :=
    putOther_confines rfl (Confines.pure htrue fun _ _ => rfl)
  rw [produce_eq]
  refine Confines.handle invokeTracked_confines (fun response => ?_) fun e => ?_
  · unfold produceTail
    refine Confines.handle (B := fun _ _ => True) ?_ (fun _ => hlast) fun _ => Confines.throw htrue
    refine Confines.handle (B := fun _ _ => True) ?_ (fun _ => Confines.pure htrue fun _ h => h)
      hfailed
    rw [onOk, ← bind_pure (perform (.put (.event (.completed response))))]
    refine Confines.same Answered.rests rfl (fun w _ _ _ h runId hid => ?_)
      fun _ => Confines.pure Answered.rests fun _ _ => trivial
    rw [← Option.some.inj hid]
    exact h
  · unfold produceTail
    refine Confines.handle (B := fun _ _ => True) ?_ (fun _ => hlast) fun _ => Confines.throw htrue
    exact hfailed e

end Invocations

-- ---------------------------------------------------------------------------
-- Everybody else
-- ---------------------------------------------------------------------------

/-- An answer of `p` is the response of a run of the namespace that `p` acts in. -/
def AnsweredIn (p : Pid) (r : Except Exn Answer) (w : World) : Prop :=
  ∀ response name, r = .ok (.response response) → ActsIn name p w →
    RunWithin name response.runId w.db

/-- `p` is watched for its namespace. -/
def ScopeWatched (p : Pid) (m : P Answer) (w : World) : Prop :=
  scoping.Watched machine p (scopeWatch p) (fun _ => AnsweredIn p) True m w

/-- `p` has started, acts in no namespace, and finishes no transaction of another. -/
structure Unscoped (p : Pid) (w : World) : Prop where
  started : w.kind p ≠ .idle
  resolver : ∀ client, w.kind p ≠ .resolver client
  nowhere : ∀ name, ¬ActsIn name p w

theorem Unscoped.later {w w' : World} (h : Unscoped p w) (hi : Inv true w) (hevo : Evolution w w') :
    Unscoped p w' := by
  have hkind := hevo.kind p h.started
  refine ⟨hkind ▸ h.started, fun client hclient => h.resolver client (hkind ▸ hclient), ?_⟩
  exact fun name hacts => h.nowhere name (hacts.before hi hevo h.started)

theorem Unscoped.stable : scoping.Stable p (Unscoped p) :=
  fun _ _ hi _ ho h => h.later hi.1 ho.1

/-- Who acts in no namespace is watched for nothing. -/
theorem Unscoped.watched {w : World} {m : P Answer} (h : Unscoped p w) : ScopeWatched p m w := by
  unfold ScopeWatched
  generalize True = φ
  induction m generalizing φ w with
  | done r =>
    intro w₁ h₁ response name _ hacts
    exact absurd hacts ((Unscoped.stable.rely h₁ h).nowhere name)
  | op o k ih =>
    intro w₁ h₁ hi
    have h' := Unscoped.stable.rely h₁ h
    refine ⟨⟨h'.started, fun client _ hkind => absurd hkind (h'.resolver client), ?_⟩, ?_⟩
    · exact fun name hacts => absurd hacts (h'.nowhere name)
    · intro c r w₂ fs _ _ _ ho
      have hevo : Evolution w₁ w₂ := (ho (p + 1) (Nat.succ_ne_self p)).1
      exact ih r (h'.later hi.1 hevo) _

/-- A transaction without a client writes nothing more. -/
theorem resolver_watched {w : World} {client : Pid} (hi : scoping.inv w)
    (hkind : w.kind p = .resolver client) : ScopeWatched p resolverProgram w := by
  have hstable : scoping.Stable p fun w => w.kind p = .resolver client := by
    intro w w' _ _ ho h
    refine (ho.1.kind p ?_).trans h
    rw [h]
    exact Kind.noConfusion
  refine Discipline.Watches.op (B := fun _ _ => True) hstable (fun w _ h => ?_) (fun _ => trivial)
    (fun _ _ _ _ _ _ _ _ _ _ => trivial) (fun r => ?_) w hi hkind
  · refine ⟨?_, fun _ _ _ => rfl, fun _ _ => trivial⟩
    rw [h]
    exact Kind.noConfusion
  · cases r with
    | ok a => exact Discipline.Watches.done (.const _) fun _ _ _ _ _ h => absurd h (by simp)
    | error e => exact Discipline.Watches.done (.const _) fun _ _ _ _ _ h => absurd h (by simp)

-- ---------------------------------------------------------------------------
-- Every task
-- ---------------------------------------------------------------------------

/-- A program that keeps to its namespace, and what its value means. -/
theorem Confines.watched {m : P Answer} {S : Answer → World → Prop} {w : World}
    (hm : Confines name p A m S) (hi : scoping.inv w) (hacts : ActsIn name p w) (ha : A w)
    (hS : ∀ answer w, ActsIn name p w → S answer w → AnsweredIn p (.ok answer) w) :
    ScopeWatched p m w := by
  refine Discipline.Watched.mono (hm True w hi ⟨hacts, ha⟩) fun _ r w h => ?_
  cases r with
  | ok answer => exact hS answer w h.1 h.2
  | error e => exact fun _ _ h => absurd h (by simp)

theorem answeredIn_nothing {w : World} {answer : Answer} (h : answer = .nothing) :
    AnsweredIn p (.ok answer) w := by
  intro response _ hanswer
  rw [h] at hanswer
  exact absurd hanswer (by simp)

/-- The answer of an invocation. -/
def Replies (name : String) (answer : Answer) (w : World) : Prop :=
  ∃ response, answer = .response response ∧ RunWithin name response.runId w.db

theorem Replies.answeredIn {answer : Answer} {w : World} (h : Replies name answer w)
    (hacts : ActsIn name p w) : AnsweredIn p (.ok answer) w := by
  obtain ⟨response, rfl, hrun⟩ := h
  intro response' other hanswer hother
  rw [← Answer.response.inj (Except.ok.inj hanswer), hother.unique hacts]
  exact hrun

theorem invoke_confines {rt : Runtime} {agentId : String} {request : RuntimeRequest}
    {key : Option String} :
    Confines rt.namespace_ p (Unnamed p rt request)
      (Task.invoke rt agentId request key).program (Replies rt.namespace_) := by
  refine Confines.bind (f := fun response => pure (Answer.response response))
    invokeTracked_confines fun response => ?_
  exact Confines.pure Answered.rests fun w h => ⟨response, rfl, h⟩

/-- Every task is watched from its start. -/
theorem task_watched {w : World} {m : P Answer} (hi : scoping.inv w) (htask : TaskOf true p m w) :
    ScopeWatched p m w := by
  unfold TaskOf at htask
  cases hkind : w.kind p with
  | idle =>
    rw [hkind] at htask
    exact htask.elim
  | task t =>
    rw [hkind] at htask
    obtain ⟨rfl, hidle, -⟩ := htask
    have hstart : ∀ rt request, (Kind.task t).request = some request →
        (Kind.task t).lease = some rt.lease → Unnamed p rt request w := by
      intro rt request hrequest hlease
      exact ⟨⟨hidle.session, by rw [hkind, hrequest], by rw [hkind, hlease]⟩, hidle.runId⟩
    have hacts : ∀ name, (Kind.task t).namespace_ = some name → ActsIn name p w :=
      fun name h => Or.inl (by rw [hkind, h])
    cases t with
    | invoke rt agentId request key =>
      exact invoke_confines.watched hi (hacts _ rfl) (hstart _ _ rfl rfl)
        fun _ _ hacts h => h.answeredIn hacts
    | stream rt agentId request key =>
      exact produce_confines.watched hi (hacts _ rfl) (hstart _ _ rfl rfl)
        fun _ _ _ => answeredIn_nothing
    | call c =>
      refine Unscoped.watched ⟨?_, fun client => ?_, fun name hacts => ?_⟩
      · rw [hkind]
        exact Kind.noConfusion
      · rw [hkind]
        exact Kind.noConfusion
      · rcases hacts with h | ⟨parent, status, h, -⟩
        · rw [hkind] at h
          exact absurd h (by simp [Kind.namespace_])
        · exact Kind.noConfusion (hkind.symm.trans h)
  | cleanup parent status =>
    rw [hkind] at htask
    obtain ⟨hidle, -, runId, token, code, rfl, hcleaning⟩ := htask
    obtain ⟨hmint, -⟩ := hcleaning rfl parent status hkind
    by_cases hacts : ∃ name, ActsIn name p w
    · obtain ⟨name, hacts⟩ := hacts
      have hparent : ActsIn name parent w := by
        rcases hacts with h | ⟨parent', status', h, hname⟩
        · rw [hkind] at h
          exact absurd h (by simp [Kind.namespace_])
        · obtain ⟨rfl, -⟩ := Kind.cleanup.inj (hkind.symm.trans h)
          exact Or.inl hname
      exact cleanupTask_confines.watched hi hacts
        ⟨hidle.session, Or.inr ⟨parent, hmint, hparent⟩, by rw [hkind]; rfl⟩
        fun _ _ _ => answeredIn_nothing
    · refine Unscoped.watched ⟨?_, fun client => ?_, fun name h => hacts ⟨name, h⟩⟩
      · rw [hkind]
        exact Kind.noConfusion
      · rw [hkind]
        exact Kind.noConfusion
  | resolver client =>
    rw [hkind] at htask
    rw [htask.1]
    exact resolver_watched hi hkind

end Tasks

-- ---------------------------------------------------------------------------
-- Every run
-- ---------------------------------------------------------------------------

section Runs

variable {c c' : Cfg}

/-- One move of processes that keep to their namespaces. -/
theorem Scoped.move (h : Scoped c.world) (hc : Reachable true c) {mv : Move Choice Env}
    (hmv : Legal true c mv) (hs : machine.step c mv = some c')
    (hmust : ∀ p, Performs p (fun w o _ => Confined p w o) c mv) : Scoped c'.world := by
  have hevo := hc.evolution hmv hs
  rcases Machine.step_cases hs with ⟨p, ch, o, k, r, fs, rfl, hp, hx, -⟩ | ⟨e, fs, rfl, hx, -⟩
  · have hconfined := hmust p ch o k rfl hp
    exact h.exec hc.inv hevo hx hconfined.started hconfined.resolver hconfined.within
  · exact h.env hc.inv hevo hx

/-- The world is scoped, and every process is watched. -/
theorem Reachable.scopes (h : Reachable true c) : Scoped c.world ∧
    ∀ p m, c.procs p = some m → ∃ φ,
      scoping.Watched machine p (scopeWatch p) (fun _ => AnsweredIn p) φ m c.world := by
  obtain ⟨clock, hreach⟩ := h
  have hall := Discipline.Watched.everywhere (D := scoping) (V := scopeWatch)
    (Q := fun p _ => AnsweredIn p) (R := fun c => Reachable true c ∧ Scoped c.world)
    (fun c hc => ⟨hc.1.inv, hc.2⟩)
    (fun c mv c' hc hok hs hmust => ⟨⟨hc.1.step hok hs, hc.2.move hc.1 hok hs hmust⟩,
      hc.1.next hok hs⟩)
    (fun _ _ _ _ => trivial) ?_ ⟨⟨clock, .refl⟩, Scoped.initial clock⟩ (fun _ => rfl) hreach
  · exact ⟨hall.1.2, hall.2⟩
  · intro c mv c' p m hc hok hs hwatched hbefore hafter
    have hmust : ∀ p, Performs p (fun w o _ => Confined p w o) c mv := by
      intro p ch o k _ hp
      obtain ⟨φ, hm⟩ := hwatched p _ hp
      exact hm.next ⟨hc.1.inv, hc.2⟩
    have hinv : scoping.inv c'.world := ⟨(hc.1.step hok hs).inv, hc.2.move hc.1 hok hs hmust⟩
    exact task_watched hinv (hc.1.started hok hs hbefore hafter)

theorem Reachable.scoped (h : Reachable true c) : Scoped c.world := h.scopes.1

/-- The next operation of every process. -/
theorem Reachable.confined (h : Reachable true c) {p : Pid} {o : Op}
    {k : Except Exn (Res o) → P Answer} (hp : c.procs p = some (.op o k)) :
    Confined p c.world o := by
  obtain ⟨φ, hm⟩ := h.scopes.2 p _ hp
  exact hm.next ⟨h.inv, h.scoped⟩

/-- What every process has answered. -/
theorem Reachable.answeredIn (h : Reachable true c) {p : Pid} {r : Except Exn Answer}
    (hp : c.procs p = some (.done r)) : AnsweredIn p r c.world := by
  obtain ⟨φ, hm⟩ := h.scopes.2 p _ hp
  exact hm c.world .refl

end Runs

end AgentRuntimeKit
