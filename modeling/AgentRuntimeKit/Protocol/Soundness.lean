import AgentRuntimeKit.Protocol.Reconciliation

/-!
# Every run

The discipline holds of every task, so the invariant holds in every reachable
configuration, and what a process leaves behind is what its program promises.

With `priv`, callers start only invocations, streams and the store calls that name no run
(`recover`, `recover_expired`, `append_messages`, `create_thread`).

## Results

* `Reachable.inv`   — the invariant, in every reachable configuration.
* `Reachable.post`  — what holds once a process has ended.
* `Reachable.next`  — what one more move does, seen by everybody else.
-/

namespace AgentRuntimeKit

open Lib Prog

-- ---------------------------------------------------------------------------
-- Tasks and results
-- ---------------------------------------------------------------------------

/-- A task that passes no run of its own to the store. -/
def Task.isRuntime : Task → Bool
  | .invoke _ _ _ _ | .stream _ _ _ _ => true
  | .call c => c.isPublic

/-- What may be started as `p`. -/
def TaskOf (priv : Bool) (p : Pid) (m : P Answer) (w : World) : Prop :=
  match w.kind p with
  | .idle => False
  | .task t => m = t.program ∧ IdleOk w p ∧ (priv = true → t.isRuntime = true)
  | .cleanup _ status => IdleOk w p ∧ (status = .failed ∨ status = .blocked) ∧
      ∃ runId token code, m = cleanupTask runId token code status ∧ Cleaning priv p runId w
  | .resolver client => m = resolverProgram ∧ client ≠ p ∧
      ∃ σ, w.session p = some σ ∧ σ.client = client

/-- What holds once `p` has ended. -/
def PostOf (p : Pid) (r : Except Exn Answer) (w : World) : Prop :=
  match w.kind p with
  | .task (.invoke rt agentId request key) =>
      ∃ outcome, r = outcome.map Answer.response ∧
        Invoked rt agentId request key false p (w.kind p) outcome w
  | .task (.stream rt agentId request key) =>
      Produced rt agentId request key p (w.kind p) (marksEnded r) w
  | _ => True

/-- The discipline of this development. -/
abbrev protocol (priv : Bool) : Discipline World Op Res Exn Answer :=
  discipline priv (TaskOf priv) PostOf

section Tasks

variable {priv : Bool} {p : Pid} {κ : Kind} {k : Kept}

theorem resolverTask : ResolverTask priv (TaskOf priv) := by
  intro w q σ _ hkind hsession hself
  unfold TaskOf
  rw [hkind]
  exact ⟨rfl, hself, σ, hsession, rfl⟩

theorem spawnTask : SpawnTask priv (TaskOf priv) := by
  intro w q parent status runId token code _ hkind hidle hcleaning hstatus
  unfold TaskOf
  rw [hkind]
  exact ⟨hidle, hstatus, runId, token, code, rfl, hcleaning⟩

/-- What a task knows when it starts. -/
theorem holding_of_idle {F : World → Prop} {w : World} (hkind : w.kind p = κ) (hidle : IdleOk w p)
    (hF : F w) : Holding p κ [] .fresh F w := by
  refine ⟨⟨hkind, hidle.session, fun σ h => absurd h (by simp), hidle.resolving, hidle.cleanup,
    hidle.acked⟩, ⟨hidle.runId, ?_, hidle.source, hidle.settled, fun e he hr => ?_,
    fun e he hby => ?_⟩, hF⟩
  · rw [hidle.stream]
    rfl
  · have hby := Event.isBy_of_reader hr
    rw [hidle.log e he] at hby
    exact absurd hby Bool.false_ne_true
  · rw [hidle.log e he] at hby
    exact absurd hby Bool.false_ne_true

-- ---------------------------------------------------------------------------
-- Direct store calls
-- ---------------------------------------------------------------------------

/-- A store call whose result its caller does not need. -/
theorem fired {β : Type} {m : P β} {f : β → Answer} {A : World → Prop}
    {R : Except Exn β → World → Prop} (hA : ∀ w, w.kind p = κ → A w)
    (hm : (protocol priv).Triple machine p (Quiet p) (fun w => At p κ [] none w ∧ A w) m R) :
    (protocol priv).Triple machine p (fun _ _ => True) (Holding p κ [] k fun _ => True) (f <$> m)
      fun _ _ => True := by
  refine Discipline.Triple.bind (R := fun _ _ => True) ((hm.weaken fun _ _ _ => trivial).conseq
    (fun w _ h => ⟨h.1, hA w h.1.kind⟩) fun _ _ _ => trivial) (fun b => ?_) fun e => ?_
  · exact Discipline.Triple.done (.const _) fun _ _ h => h
  · exact ⟨.const _, fun _ _ h => h⟩

/-- A call that is refused before its transaction. -/
theorem refused {β : Type} {f : β → Answer} {m : P β} {A : World → Prop}
    (hm : ∃ e, m = throw e) :
    (protocol priv).Triple machine p (fun _ _ => True) A (f <$> m) fun _ _ => True := by
  obtain ⟨e, rfl⟩ := hm
  exact fun _ _ _ _ _ => trivial

theorem kind_persists (κ : Kind) : Persists priv p fun w => w.kind p = κ :=
  fun _ _ _ _ hb h => hb.quiet.kind.trans h

/-- A store call that a caller makes by itself. -/
theorem directCall_triple {c : Call} (hpublic : priv = true → c.isPublic = true) :
    (protocol priv).Triple machine p (fun _ _ => True)
      (Holding p (.task (.call c)) [] k fun _ => True) c.program fun _ _ => True := by
  have hκ : Kind.task (.call c) ≠ .idle := fun h => Kind.noConfusion h
  have htask : ResolverTask priv (TaskOf priv) := resolverTask
  have hself : ∀ w : World, w.kind p = .task (.call c) → w.kind p = .task (.call c) := fun _ h => h
  have hpriv : ∀ w, Inv priv w → At p (.task (.call c)) [] none w → w.kind p = .task (.call c) →
      priv = true → CallPriv w ⟨p, c, w.clock, none, []⟩ :=
    fun w _ hat _ hp => callPriv_public hat.kind (fun _ _ h => Kind.noConfusion h) (hpublic hp)
  have hA : Persists priv p fun w => w.kind p = .task (.call c) := kind_persists _
  cases c with
  | claim args =>
    cases hlease : args.lease with
    | none =>
      exact refused (m := AgentRuntimeKit.claim args)
        ⟨_, by unfold AgentRuntimeKit.claim; rw [hlease]⟩
    | some lease =>
      have habsent : ∀ w, Inv priv w → w.kind p = .task (.call (.claim args)) →
          Absent priv p args.runId w := fun _ _ _ hp => absurd (hpublic hp) Bool.false_ne_true
      exact fired hself (claim_triple hκ hA htask habsent hlease hpriv)
  | transition runId status token response code =>
    -- some arguments are refused before the first statement
    by_cases hstatus : status = .succeeded
    · exact refused (m := AgentRuntimeKit.transition runId status token response code)
        ⟨_, by unfold AgentRuntimeKit.transition; rw [if_pos hstatus]⟩
    · exact fired hself (transition_triple hκ hA htask hpriv hstatus)
  | complete runId token messages response =>
    refine fired hself (complete_triple hκ hA htask (fun w _ hkind hinvocation => ?_) hpriv)
    rw [hkind] at hinvocation
    exact absurd hinvocation Bool.false_ne_true
  | failIfRunning runId token code status =>
    by_cases hstatus : status = .failed ∨ status = .blocked
    · refine fired hself (failIfRunning_triple hκ hA htask hstatus
        (fun w _ hkind _ parent st h => ?_) hpriv)
      exact Kind.noConfusion (hkind.symm.trans h)
    · have hraises : status ≠ .failed ∧ status ≠ .blocked := not_or.mp hstatus
      exact refused (m := AgentRuntimeKit.failIfRunning runId token code status)
        ⟨_, by unfold AgentRuntimeKit.failIfRunning; rw [if_pos hraises]⟩
  | recover runId => exact fired hself (recover_triple hκ hA htask hpriv)
  | recoverExpired limit =>
    by_cases hlimit : 1 ≤ limit ∧ limit ≤ 1000
    · have hpublic' : ∀ w L, Inv priv w → At p (.task (.call (.recoverExpired limit))) L none w →
          priv = true → CallPriv w ⟨p, .recoverExpired limit, w.clock, none, []⟩ :=
        fun w _ _ hat hp => callPriv_public hat.kind (fun _ _ h => Kind.noConfusion h) rfl
      show (protocol priv).Triple machine p _ _
        (Answer.records <$> AgentRuntimeKit.recoverExpired limit) _
      unfold AgentRuntimeKit.recoverExpired
      rw [if_pos hlimit]
      refine Discipline.Triple.bind (R := fun _ _ => True) ?_
        (fun b => Discipline.Triple.done (.const _) fun _ _ h => h) fun e =>
        ⟨.const _, fun _ _ h => h⟩
      refine keep hκ (.const True) (same_triple rfl hκ (.const True))
        (fun _ _ _ _ => trivial) fun ids => ?_
      exact ((recoverEach_triple hκ htask hpublic' ids []).weaken fun _ _ _ => trivial).conseq
        (fun w _ h => ⟨h.1, trivial⟩) fun _ _ _ => trivial
    · exact refused (m := AgentRuntimeKit.recoverExpired limit)
        ⟨_, by unfold AgentRuntimeKit.recoverExpired; rw [if_neg hlimit]⟩
  | appendMessages t messages namespace_ =>
    exact fired (fun _ _ => trivial)
      (appendMessages_triple hκ htask fun w hi hat hp => hpriv w hi hat hat.kind hp)
  | createThread namespace_ userKey =>
    show (protocol priv).Triple machine p _ _
      (Answer.thread <$> AgentRuntimeKit.createThread namespace_ userKey) _
    unfold AgentRuntimeKit.createThread
    refine Discipline.Triple.bind (R := fun _ _ => True) ?_
      (fun b => Discipline.Triple.done (.const _) fun _ _ h => h) fun e =>
      ⟨.const _, fun _ _ h => h⟩
    refine uuidRule hκ (.const True) fun threadId => ?_
    exact ((createThreadIn_triple hκ htask fun w hi hat hp => hpriv w hi hat hat.kind hp).weaken
      fun _ _ _ => trivial).conseq (fun w _ h => ⟨h.1.1, trivial⟩) fun _ _ _ => trivial

-- ---------------------------------------------------------------------------
-- Transactions without a client
-- ---------------------------------------------------------------------------

/-- The open transaction of `client`, which `p` finishes. -/
def Resolving (p client : Pid) (w : World) : Prop :=
  w.kind p = .resolver client ∧ client ≠ p ∧ ∃ σ, w.session p = some σ ∧ σ.client = client

/-- A transaction without a client commits or rolls back. -/
theorem resolver_triple {client : Pid} :
    (protocol priv).Triple machine p (fun _ _ => True) (Resolving p client) resolverProgram
      fun _ _ => True := by
  have hstable : (protocol priv).Stable p (Resolving p client) := by
    rintro w w' - - ho ⟨hkind, hself, σ, hsession, hclient⟩
    have ha := ho.2 (by rw [hkind]; exact fun h => Kind.noConfusion h)
    exact ⟨ha.quiet.kind.trans hkind, hself, σ, ha.session.trans hsession, hclient⟩
  unfold resolverProgram
  refine outside (C := fun _ _ => True) (E := fun _ _ => True) hstable ?_
    (fun e => ⟨.const _, fun _ _ h => h⟩) fun _ => Discipline.Triple.done (.const _) fun _ _ h => h
  rintro w c r w' fs hi ⟨hkind, hself, σ, hsession, rfl⟩ hx
  cases c with
  | flag committed =>
    simp only [exec, hsession] at hx
    obtain ⟨rfl, rfl, rfl⟩ : _ ∧ _ ∧ _ := by simpa [answer] using hx
    have hstarted : w.kind p ≠ .idle := by
      rw [hkind]
      exact fun h => Kind.noConfusion h
    rcases ((hi.proc p).session σ hsession).client with hown | ⟨-, hresolving, hstaged⟩
    · exact absurd hown hself
    · have hfewer : ∀ c x, Function.update w.resolving σ.client none c = some x →
          w.resolving c = some x := by
        intro c x h
        by_cases hc : c = σ.client
        · subst hc
          rw [Function.update_self] at h
          exact absurd h (by simp)
        · rwa [Function.update_of_ne hc] at h
      have hmine : ∀ c x, x ≠ p → w.resolving c = some x →
          Function.update w.resolving σ.client none c = some x := by
        intro c x hx h
        rw [Function.update_of_ne, h]
        rintro rfl
        rw [hresolving, Option.some.injEq] at h
        exact hx h.symm
      cases committed with
      | true =>
        exact ⟨.committed _ hi hsession hstaged hfewer hmine fun _ _ => rfl,
          fun f hf => absurd hf List.not_mem_nil, trivial⟩
      | false =>
        exact ⟨.ended _ hi hstarted hfewer hmine, fun f hf => absurd hf List.not_mem_nil, trivial⟩
  | fail e =>
    exact absurd hx
      (by cases e <;> simp [exec, Op.mayRaise, Op.suspends, Op.isStatement, Op.isForeign])
  | _ => exact absurd hx (by simp [exec, execOk])

-- ---------------------------------------------------------------------------
-- All tasks, and the environment
-- ---------------------------------------------------------------------------

theorem invocation_triple {rt : Runtime} {agentId : String} {request : RuntimeRequest}
    {key : Option String} :
    (protocol priv).Triple machine p (fun _ _ => True)
      (Holding p (.task (.invoke rt agentId request key)) [] .fresh fun _ => True)
      (Task.invoke rt agentId request key).program
      fun r w => ∃ outcome, r = outcome.map Answer.response ∧
        Invoked rt agentId request key false p
        (.task (.invoke rt agentId request key)) outcome w := by
  have hκ : Kind.task (.invoke rt agentId request key) ≠ .idle := fun h => Kind.noConfusion h
  have hstable : ∀ outcome, (protocol priv).Stable p
      (Invoked rt agentId request key false p (.task (.invoke rt agentId request key)) outcome) :=
    fun outcome => .exists fun L => .exists fun c => .exists fun k =>
      Resting.stable hκ (Reconciled.durable outcome L c k)
  refine Discipline.Triple.bind (invokeTracked_triple hκ (fun _ _ h => Kind.noConfusion h)
    resolverTask spawnTask rfl fun _ h => absurd h List.not_mem_nil) (fun response => ?_)
    fun e => ⟨hstable _, fun w _ h => ⟨.error e, rfl, h⟩⟩
  exact Discipline.Triple.done (hstable _) fun w _ h => ⟨.ok response, rfl, h⟩

/-- A process stays what it is. -/
theorem safe_kind {α : Type} {m : P α} {R : Except Exn α → World → Prop} {w : World}
    (hκ : κ ≠ .idle) (hkind : w.kind p = κ)
    (h : (protocol priv).Safe machine p (fun _ _ => True) R m w) :
    (protocol priv).Safe machine p (fun _ _ => True) (fun r w => R r w ∧ w.kind p = κ) m w := by
  have hrely : ∀ {w w'}, (protocol priv).rely p w w' → w.kind p = κ → w'.kind p = κ := by
    intro w w' hr hk
    refine Discipline.Stable.rely (A := fun w => w.kind p = κ) ?_ hr hk
    exact fun w w' _ _ ho hk => (ho.1.kind p (by rw [hk]; exact hκ)).trans hk
  induction m generalizing w with
  | done r => exact fun w₁ h₁ => ⟨h w₁ h₁, hrely h₁ hkind⟩
  | op o k ih =>
    intro w₁ h₁ hi c r w₂ fs hx
    obtain ⟨hi', hother, hforks, hg, hk⟩ := h w₁ h₁ hi c r w₂ fs hx
    have hevo : Evolution w₁ w₂ := (hother (p + 1) (Nat.succ_ne_self p)).1
    have hk₁ := hrely h₁ hkind
    exact ⟨hi', hother, hforks, hg, ih r ((hevo.kind p (by rw [hk₁]; exact hκ)).trans hk₁) hk⟩

/-- Every task is safe. -/
theorem tasksSafe : (protocol priv).TasksSafe machine := by
  intro p m w hi htask
  unfold protocol discipline TaskOf at htask
  dsimp only at htask
  cases hkind : w.kind p with
  | idle =>
    rw [hkind] at htask
    exact htask.elim
  | task t =>
    rw [hkind] at htask
    obtain ⟨rfl, hidle, hruntime⟩ := htask
    have hstart := holding_of_idle (F := fun _ => True) hkind hidle trivial
    have hκ : Kind.task t ≠ .idle := fun h => Kind.noConfusion h
    cases t with
    | invoke rt agentId request key =>
      refine (safe_kind hκ hkind (invocation_triple w hi hstart)).mono
        (fun _ _ h => h) fun r w h => ?_
      show PostOf p r w
      unfold PostOf
      rw [h.2]
      exact h.1
    | stream rt agentId request key =>
      refine (safe_kind hκ hkind (produce_triple hκ (fun _ _ h => Kind.noConfusion h) resolverTask
        spawnTask rfl (fun _ h => absurd h List.not_mem_nil) w hi hstart)).mono (fun _ _ h => h)
        fun r w h => ?_
      show PostOf p r w
      unfold PostOf
      rw [h.2]
      exact h.1
    | call c =>
      refine (safe_kind hκ hkind (directCall_triple hruntime w hi hstart)).mono (fun _ _ h => h)
        fun r w h => ?_
      show PostOf p r w
      unfold PostOf
      rw [h.2]
      trivial
  | cleanup parent status =>
    rw [hkind] at htask
    obtain ⟨hidle, hstatus, runId, token, code, rfl, hcleaning⟩ := htask
    have hκ : Kind.cleanup parent status ≠ .idle := fun h => Kind.noConfusion h
    refine (safe_kind hκ hkind (cleanupTask_triple hκ ⟨parent, rfl⟩ resolverTask hstatus w hi
      (holding_of_idle hkind hidle hcleaning))).mono (fun _ _ h => h) fun r w h => ?_
    show PostOf p r w
    unfold PostOf
    rw [h.2]
    trivial
  | resolver client =>
    rw [hkind] at htask
    obtain ⟨rfl, hself, hsession⟩ := htask
    have hκ : Kind.resolver client ≠ .idle := fun h => Kind.noConfusion h
    refine (safe_kind hκ hkind (resolver_triple w hi ⟨hkind, hself, hsession⟩)).mono
      (fun _ _ h => h) fun r w h => ?_
    show PostOf p r w
    unfold PostOf
    rw [h.2]
    trivial

/-- Callers start only what is allowed. -/
def Allowed (priv : Bool) (e : Env) : Prop :=
  priv = true → ∀ p t, e = .start p t → t.isRuntime = true

/-- The environment respects the discipline. -/
theorem envOk : (protocol priv).EnvOk machine (Allowed priv) := by
  intro w e w' fs hallowed hi h
  obtain ⟨hi', hother⟩ := StepOk.environment hi h
  refine ⟨hi', hother, ?_⟩
  cases e with
  | start q t =>
    simp only [machine, env] at h
    split at h
    · next hidle =>
      obtain ⟨rfl, rfl⟩ : _ ∧ _ := by simpa using h
      have hq : w.kind q = .idle := by
        cases hk : w.kind q with
        | idle => rfl
        | _ =>
          rw [hk] at hidle
          exact absurd hidle Bool.false_ne_true
      intro f hf
      rw [List.mem_singleton.mp hf]
      show TaskOf priv q t.program _
      unfold TaskOf
      dsimp only
      rw [Function.update_self]
      exact ⟨rfl, { (hi.proc q).idle hq with }, fun hp => hallowed hp q t rfl⟩
    · exact absurd h (by simp)
  | take q =>
    simp only [machine, env] at h
    split at h
    · obtain ⟨-, rfl⟩ : _ ∧ _ := by simpa using h
      exact fun f hf => absurd hf List.not_mem_nil
    · exact absurd h (by simp)
  | close q =>
    simp only [machine, env] at h
    split at h
    · obtain ⟨-, rfl⟩ : _ ∧ _ := by simpa using h
      exact fun f hf => absurd hf List.not_mem_nil
    · exact absurd h (by simp)
  | _ =>
    obtain ⟨-, rfl⟩ : _ ∧ _ := by simpa [machine, env] using h
    exact fun f hf => absurd hf List.not_mem_nil

end Tasks

-- ---------------------------------------------------------------------------
-- Reachable configurations
-- ---------------------------------------------------------------------------

/-- The moves under which the results hold: with `priv`, callers start only what is allowed. -/
def Legal (priv : Bool) (_ : Cfg) (mv : Move Choice Env) : Prop :=
  ∀ e, mv = .env e → Allowed priv e

/-- Every process may start anything, unless `priv` forbids it. -/
theorem legal_false (c : Cfg) (mv : Move Choice Env) : Legal false c mv :=
  fun _ _ hp => absurd hp Bool.false_ne_true

/-- Configurations reached from an empty schema at some time. -/
def Reachable (priv : Bool) (c : Cfg) : Prop :=
  ∃ clock, machine.Reaches (Legal priv) (Cfg.initial clock) c

theorem Inv.initial (priv : Bool) (clock : Time) : Inv priv (.initial clock) where
  db := ⟨.nil, fun r hr => absurd hr List.not_mem_nil, fun _ => rfl⟩
  log := {
    transcript := fun _ => rfl
    completed := fun _ _ _ _ _ _ h => absurd h List.not_mem_nil
    covered := fun r hr => absurd hr List.not_mem_nil
    once := .nil
    entered := fun _ _ _ _ h => absurd h List.not_mem_nil
    enteredOnce := .nil }
  serial := trivial
  enteredBy := fun _ _ _ _ h => absurd h List.not_mem_nil
  readOnce := .nil
  inserting := fun _ _ _ h => absurd h List.not_mem_nil
  proc := fun p => {
    session := fun σ h => absurd h (by simp [World.initial])
    idle := fun _ => ⟨rfl, rfl, rfl, rfl, rfl, rfl, rfl, rfl, rfl,
      fun e h => absurd h List.not_mem_nil, fun u h => absurd h (by simp [World.initial])⟩
    cleanup := fun s h => absurd h (by simp [World.initial])
    parent := fun q st h => absurd h (by simp [World.initial])
    runId := fun u h => absurd h (by simp [World.initial]) }
  rowsPriv := fun _ => {
    minted := fun r hr => absurd hr List.not_mem_nil
    asked := fun r hr => absurd hr List.not_mem_nil
    blocked := fun r hr => absurd hr List.not_mem_nil
    completedBy := fun _ _ _ _ _ _ h => absurd h List.not_mem_nil
    spared := fun _ _ _ _ h => absurd h List.not_mem_nil
    outcomes := fun s o p st h => absurd h (by simp [World.initial]) }
  clients := fun _ _ h => absurd h List.not_mem_nil

section Reachable

variable {priv : Bool} {c c' : Cfg}

/-- The invariant holds, and every process is safe from here on. -/
theorem Reachable.sound (h : Reachable priv c) : Inv priv c.world ∧ ∀ p m, c.procs p = some m →
    (protocol priv).Safe machine p (fun _ _ => True) (PostOf p) m c.world := by
  obtain ⟨clock, h⟩ := h
  refine Discipline.sound envOk tasksSafe (fun _ e hok => hok e rfl) ?_ ?_ h
  · exact Inv.initial priv clock
  · exact fun _ => rfl

theorem Reachable.inv (h : Reachable priv c) : Inv priv c.world := h.sound.1

/-- What holds once a process has ended. -/
theorem Reachable.post (h : Reachable priv c) {p : Pid} {r : Except Exn Answer}
    (hp : c.procs p = some (.done r)) : PostOf p r c.world :=
  h.sound.2 p _ hp c.world Relation.ReflTransGen.refl

/-- One more move. -/
theorem Reachable.step (h : Reachable priv c) {mv : Move Choice Env} (hmv : Legal priv c mv)
    (hs : machine.step c mv = some c') : Reachable priv c' := by
  obtain ⟨clock, h⟩ := h
  exact ⟨clock, h.step hmv hs⟩

/-- What one more move does, seen by everybody who did not make it. -/
theorem Reachable.next (h : Reachable priv c) {mv : Move Choice Env} (hmv : Legal priv c mv)
    (hs : machine.step c mv = some c') : (protocol priv).Seen mv c.world c'.world :=
  (Discipline.sound_step envOk tasksSafe (fun _ e hok => hok e rfl) hmv hs h.sound.1 h.sound.2).2.1

/-- What one more move starts. -/
theorem Reachable.started (h : Reachable priv c) {mv : Move Choice Env} (hmv : Legal priv c mv)
    (hs : machine.step c mv = some c') {p : Pid} {m : P Answer} (hbefore : c.procs p = none)
    (hafter : c'.procs p = some m) : TaskOf priv p m c'.world :=
  Discipline.started envOk (fun _ e hok => hok e rfl) hmv hs h.sound.1 h.sound.2 hbefore hafter

/-- What one more move does to what all processes share. -/
theorem Reachable.evolution (h : Reachable priv c) {mv : Move Choice Env} (hmv : Legal priv c mv)
    (hs : machine.step c mv = some c') : Evolution c.world c'.world := by
  have hseen := h.next hmv hs
  cases mv with
  | run p ch =>
    refine (hseen (p + 1) fun ch' heq => ?_).1
    injection heq with hp
    exact absurd hp (Nat.ne_of_lt (Nat.lt_succ_self p))
  | env e => exact (hseen 0 fun ch' heq => absurd heq (by simp)).1

end Reachable

end AgentRuntimeKit
