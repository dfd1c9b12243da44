import AgentRuntimeKit.Context.Current
import AgentRuntimeKit.Hooks.Guardrails
import AgentRuntimeKit.Protocol.Answers
import AgentRuntimeKit.Protocol.BalancedRuns

/-!
# Screened messages

A turn gives its agent the messages that its first hooks have seen, and stores the request, which is
among them, and the output that its last hooks have seen. So if the hooks let through good messages
only, only good messages reach an agent or a transcript, and only a good answer is stored.

## Results

* `inputMessages_screens` — the request is among the input messages.
* `invokeTracked_screens`, `produce_screens` — a turn.
* `GuardedRun.screened`      — every process, transaction and commit, in every guarded run.
-/

namespace AgentRuntimeKit

open Lib Prog

-- ---------------------------------------------------------------------------
-- The policy
-- ---------------------------------------------------------------------------

/-- The texts of each message are good. -/
def Clean (good : List PyStr → Prop) (messages : List Message) : Prop :=
  ∀ m ∈ messages, good m.texts

def Call.Screens (good : List PyStr → Prop) : Call → Prop
  | .complete _ _ messages _ | .appendMessages _ messages _ => Clean good messages
  | _ => True

/-- Only good messages go to a store or to an agent. -/
def Op.Screens (good : List PyStr → Prop) : Op → Prop
  | .begin call => call.Screens good
  | .awaitInvoker messages | .openSource messages => Clean good messages
  | _ => True

/-- The hooks pass for good messages only. -/
def Op.Passes (good : List PyStr → Prop) : (o : Op) → Except Exn (Res o) → Prop
  | .hook _ messages, .ok () => Clean good messages
  | _, _ => True

abbrev ScreensTo {α : Type} (good : List PyStr → Prop) (Q : α → Prop) (m : P α) : Prop :=
  Under (Op.Screens good) (Op.Passes good) Q m

abbrev Screens {α : Type} (good : List PyStr → Prop) (m : P α) : Prop :=
  ScreensTo good (fun _ => True) m

section Turn

variable {good : List PyStr → Prop} {rt : Runtime} {emit : Bool}

theorem Op.screens_of_isNeutral {o : Op} (h : o.isNeutral = true) : o.Screens good := by
  cases o with
  | begin call => cases call <;> trivial
  | awaitInvoker messages => exact absurd h Bool.false_ne_true
  | openSource messages => exact absurd h Bool.false_ne_true
  | _ => trivial

theorem Neutral.screens {α : Type} {m : P α} (h : Neutral m) : Screens good m :=
  h.under fun _ => Op.screens_of_isNeutral

theorem hook_screens {β : Type} {phase : HookPhase} {messages : List Message} {f : Unit → P β}
    {Q : β → Prop} (hf : Clean good messages → ScreensTo good Q (f ())) :
    ScreensTo good Q (perform (.hook phase messages) >>= f) :=
  Tame.performBind trivial fun _ h => hf h

/-- The request is among the messages that the agent is given. -/
theorem inputMessages_screens (t : Uuid) (current : List Message) :
    ScreensTo good (fun messages => ∀ m ∈ current, m ∈ messages) (inputMessages rt t current) := by
  unfold inputMessages
  split
  · next window _ _ =>
    unfold selectStored
    refine Tame.bind (Q := fun selection => ∀ m ∈ current, m ∈ selection.messages)
      (under_bind (requireThread_neutral t _).screens fun _ => under_step trivial fun rows => ?_) ?_
    · refine under_bind ?_ fun s => ?_
      · exact Tame.weaken ((selectBatches_tame trivial _ fun _ _ _ _ => trivial).finallyDo
          (under_perform trivial)) fun _ _ => trivial
      · refine Tame.bind (under_lift fun _ h => h) fun s' hs' =>
          under_lift fun selection hfinish => ?_
        exact fun m hm => (Keeping.current hm hs').finish hfinish
    · exact fun selection hselection => hselection
  · refine under_bind ?_ fun history => fun m hm => List.mem_append_right history hm
    unfold getMessages
    exact under_bind (requireThread_neutral t _).screens fun _ =>
      under_step trivial fun rows => under_done _
  · refine under_bind ?_ fun history => ?_
    · unfold getMessages
      exact under_bind (requireThread_neutral t _).screens fun _ =>
        under_step trivial fun rows => under_done _
    · exact Tame.bind (under_lift fun _ h => select_current h) fun selection hselection =>
        hselection

theorem runClaimed_screens (invoker : Invoker) (request : RuntimeRequest) (key : Option String)
    (runId threadId token : Uuid) :
    Screens good (runClaimed rt invoker request key emit runId threadId token) := by
  unfold runClaimed
  refine under_bind (transition_neutral _ _ _ _ _).screens fun _ => ?_
  refine under_bind (emitEvent_neutral _).screens fun _ => ?_
  refine Tame.bind (inputMessages_screens _ _) fun messages hrequest =>
    hook_screens fun hinput => ?_
  refine under_step trivial fun _ => under_bind ?_ fun output => ?_
  · exact invokeAgent_under (fun _ => Op.screens_of_isNeutral) _ hinput hinput
  refine hook_screens fun houtput => under_bind (under_done _) fun assistant => ?_
  have hboth : Clean good (request.messages ++ output.messages) := by
    intro m hm
    rcases List.mem_append.mp hm with hm | hm
    · exact hinput m (hrequest m hm)
    · exact houtput m hm
  refine under_step trivial fun traceId => under_bind ?_ fun _ => under_done _
  exact complete_under (fun _ => Op.screens_of_isNeutral) hboth

theorem invokeTracked_screens (agentId : String) (request : RuntimeRequest) (key : Option String) :
    Screens good (invokeTracked rt agentId request key emit) :=
  invokeTracked_under (fun _ => Op.screens_of_isNeutral) (fun _ _ _ _ _ => trivial)
    (fun _ _ _ _ _ => runClaimed_screens _ _ _ _ _ _) _ _

theorem produce_screens (agentId : String) (request : RuntimeRequest) (key : Option String) :
    Screens good (produce rt agentId request key) :=
  produce_under (fun _ => Op.screens_of_isNeutral) (fun _ _ _ _ _ => trivial) _ _
    fun _ _ _ _ _ => runClaimed_screens _ _ _ _ _ _

end Turn

-- ---------------------------------------------------------------------------
-- Guarded runs
-- ---------------------------------------------------------------------------

/-- The event that `_execute` gives its hooks. -/
def HookPhase.event (phase : HookPhase) (context : RuntimeContext) (messages : List Message) :
    HookEvent where
  phase :=
    match phase with
    | .beforeModel => .beforeModel
    | .afterModel => .afterModel
  context := context
  messages := messages
  toolName := none
  toolCallId := none
  toolArguments := none
  toolResult := none

/-- Hooks pass only where a hook manager with the guardrail lets their event through. -/
def HookAnswer {σ : Type} (g : Guardrail σ) : Op → Choice → Prop
  | .hook phase messages, .ok => ∃ (manager : HookManager σ) (context : RuntimeContext) (s s' : σ),
      manager.Guards g ∧ manager.run (phase.event context messages) s = (.ok (), s')
  | _, _ => True

/-- A turn of a runtime, whatever its request, or another public call, which appends good messages
only. -/
def Task.Screens (good : List PyStr → Prop) : Task → Prop
  | .invoke _ _ _ _ | .stream _ _ _ _ => True
  | .call c => c.isPublic = true ∧ c.Screens good

/-- Callers start only such tasks, and all hooks are guarded. -/
structure Guarding {σ : Type} (g : Guardrail σ) (good : List PyStr → Prop) (c : Cfg)
    (mv : Move Choice Env) : Prop where
  started : ∀ p t, mv = .env (.start p t) → t.Screens good
  hooked : ∀ p, Performs p (fun _ o ch => HookAnswer g o ch) c mv

/-- Configurations that such runs reach. -/
def GuardedRun {σ : Type} (g : Guardrail σ) (good : List PyStr → Prop) (c : Cfg) : Prop :=
  ∃ clock, machine.Reaches (Guarding g good) (Cfg.initial clock) c

/-- What holds in every such run. -/
structure ScreenedCfg (good : List PyStr → Prop) (c : Cfg) : Prop where
  kinds : ∀ p t, c.world.kind p = .task t → t.Screens good
  procs : ∀ p m, c.procs p = some m → Screens good m
  sessions : ∀ q σ, c.world.session q = some σ → σ.call.Screens good
  commits : ∀ σ before, .commit σ before ∈ c.world.log → σ.call.Screens good

section Runs

variable {σ : Type} {g : Guardrail σ} {good : List PyStr → Prop} {c c' : Cfg}
  {mv : Move Choice Env}

theorem Task.isRuntime_of_screens {t : Task} (h : t.Screens good) : t.isRuntime = true := by
  cases t with
  | call c => exact h.1
  | _ => rfl

theorem Guarding.legal (h : Guarding g good c mv) : Legal true c mv :=
  fun e he _ p t ht => Task.isRuntime_of_screens (h.started p t (by rw [he, ht]))

theorem GuardedRun.reachable (h : GuardedRun g good c) : Reachable true c := by
  obtain ⟨clock, hr⟩ := h
  induction hr with
  | refl => exact ⟨clock, .refl⟩
  | step _ hmv hs ih => exact ih.step hmv.legal hs

/-- Whatever is started. -/
theorem task_screens {w : World} {p : Pid} {m : P Answer} (h : TaskOf true p m w)
    (hkinds : ∀ t, w.kind p = .task t → t.Screens good) : Screens good m := by
  unfold TaskOf at h
  cases hkind : w.kind p with
  | idle =>
    rw [hkind] at h
    exact h.elim
  | task t =>
    rw [hkind] at h
    obtain ⟨rfl, -⟩ := h
    have ht := hkinds t hkind
    cases t with
    | invoke rt agentId request key =>
      exact under_bind (invokeTracked_screens _ _ _) fun _ => under_done _
    | stream rt agentId request key => exact produce_screens _ _ _
    | call call =>
      cases call with
      | recover runId => exact under_bind (recover_neutral _).screens fun _ => under_done _
      | recoverExpired limit =>
        exact under_bind (recoverExpired_neutral _).screens fun _ => under_done _
      | createThread name user =>
        exact under_bind (createThread_neutral _ _).screens fun _ => under_done _
      | appendMessages t messages name =>
        refine under_bind ?_ fun _ => under_done _
        unfold appendMessages
        exact under_inTransaction ht.2 trivial trivial (appendMessageBatch_neutral _ _ _).screens
      | _ => exact absurd ht.1 Bool.false_ne_true
  | cleanup parent status =>
    rw [hkind] at h
    obtain ⟨-, -, runId, token, code, rfl, -⟩ := h
    exact (cleanupTask_neutral _ _ _ _).screens
  | resolver client =>
    rw [hkind] at h
    obtain ⟨rfl, -⟩ := h
    exact under_step trivial fun _ => under_done _

/-- What a hook answers in such a run. -/
theorem Guarding.passes {p : Pid} {ch : Choice} {o : Op} {k : Except Exn (Res o) → P Answer}
    {r : Except Exn (Res o)} {w' : World} {fs : Forks} (hg : g.Enforces good)
    (h : Guarding g good c (.run p ch)) (hp : c.procs p = some (.op o k))
    (hx : exec p c.world o ch = some (r, w', fs)) : o.Passes good r := by
  have hanswer := h.hooked p ch o k rfl hp
  cases o with
  | hook phase messages =>
    cases r with
    | error e => trivial
    | ok u =>
      have hch : ch = .ok := by
        cases ch
        all_goals simp only [exec, execOk, answer] at hx
        all_goals repeat' split at hx
        all_goals first
          | rfl
          | exact absurd hx (by simp)
      rw [hch] at hanswer
      obtain ⟨manager, context, s, s', hguards, hrun⟩ := hanswer
      refine GuardrailHook.admits hg hguards ?_ hrun
      cases phase with
      | beforeModel => exact Or.inl rfl
      | afterModel => exact Or.inr rfl
  | _ => cases r <;> trivial

/-- One move. -/
theorem ScreenedCfg.move (h : ScreenedCfg good c) (hg : g.Enforces good) (hc : Reachable true c)
    (hmv : Guarding g good c mv) (hs : machine.step c mv = some c') : ScreenedCfg good c' := by
  have hevo := hc.evolution hmv.legal hs
  have hkinds : ∀ p t, c'.world.kind p = .task t → t.Screens good := by
    intro p t hkind
    rcases step_kind hs hkind with hbefore | hstart
    · exact h.kinds p t hbefore
    · exact hmv.started p t hstart
  refine ⟨hkinds, fun p m hp => ?_, fun q σ hσ => ?_, fun σ before hmem => ?_⟩
  · rcases Machine.step_proc hs hp with hnew | hsame | ⟨ch, o, k, r, fs, rfl, hbefore, hx, rfl⟩
    · exact task_screens (hc.started hmv.legal hs hnew hp) (hkinds p)
    · exact h.procs p m hsame
    · exact Tame.mono ((h.procs p _ hbefore).2 r (hmv.passes hg hbefore hx)) fun _ _ => trivial
  · rcases Machine.step_cases hs with ⟨p, ch, o, k, r, fs, rfl, hp, hx, -⟩ | ⟨e, fs, rfl, hx, -⟩
    · rcases exec_calls hx hσ with ⟨q₀, σ₀, h₀, hcall, -⟩ | ⟨rfl, -⟩
      · rw [← hcall]
        exact h.sessions q₀ σ₀ h₀
      · exact (h.procs p _ hp).1
    · rw [(Scoped.env_frame hx).1] at hσ
      exact h.sessions q σ hσ
  · rcases hevo.tables with ⟨-, new, hlog, hplain⟩ | ⟨q, σ', hcommit⟩
    · rw [hlog] at hmem
      rcases List.mem_append.mp hmem with hnew | hold
      · exact absurd (hplain _ hnew) (by simp [Event.isCommit])
      · exact h.commits σ before hold
    · rw [hcommit.log] at hmem
      rcases List.mem_cons.mp hmem with heq | hold
      · rw [(Event.commit.inj heq).1]
        exact h.sessions q σ' hcommit.session
      · exact h.commits σ before hold

theorem GuardedRun.screened (h : GuardedRun g good c) (hg : g.Enforces good) :
    ScreenedCfg good c := by
  obtain ⟨clock, hr⟩ := h
  induction hr with
  | refl =>
    exact {
      kinds := fun p t hkind => Kind.noConfusion hkind
      procs := fun p m hp => absurd hp (by simp [Cfg.initial])
      sessions := fun q σ hσ => absurd hσ (by simp [Cfg.initial, World.initial])
      commits := fun σ before he => absurd he List.not_mem_nil }
  | step hbefore hmv hs ih =>
    have hguarded : GuardedRun g good _ := ⟨clock, hbefore⟩
    exact ih.move hg hguarded.reachable hmv hs

end Runs

end AgentRuntimeKit
