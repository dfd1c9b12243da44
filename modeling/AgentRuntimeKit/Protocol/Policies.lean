import AgentRuntimeKit.Protocol.Programs

/-!
# Programs under a policy

A policy says which operations a program may perform, given what operations answer. Most programs
are neutral: they bring no message to a store or to an agent, and start no task. For a policy that
leaves neutral operations alone, what is left of a turn is `runClaimed`.

## Results

* `Neutral.under`                      — a neutral program, under such a policy.
* `execute_under`, `produce_under`     — a turn, from its claimed run on.
-/

namespace AgentRuntimeKit

open Lib Prog

/-- Operations that bring no message to a store or to an agent, and start no task. -/
def Op.isNeutral : Op → Bool
  | .begin (.complete _ _ _ _) | .begin (.appendMessages _ _ _) | .awaitInvoker _ | .openSource _
  | .spawnCleanup _ _ _ _ _ => false
  | _ => true

/-- The program performs allowed operations only, and its value satisfies `Q`. -/
abbrev Under {α : Type} (allowed : Op → Prop) (possible : (o : Op) → Except Exn (Res o) → Prop)
    (Q : α → Prop) (m : P α) : Prop :=
  Tame allowed possible Q (fun _ => True) m

abbrev Neutral {α : Type} (m : P α) : Prop :=
  Under (fun o => o.isNeutral = true) (fun _ _ => True) (fun _ => True) m

section Rules

variable {α β : Type} {allowed : Op → Prop} {possible : (o : Op) → Except Exn (Res o) → Prop}
  {Q : α → Prop} {R : β → Prop}

theorem under_done (r : Except Exn α) : Under allowed possible (fun _ => True) (.done r) := by
  cases r with
  | ok a => trivial
  | error e => trivial

theorem tame_lift {seen : Exn → Prop} {r : Except Exn α} (hok : ∀ a, r = .ok a → Q a)
    (herror : ∀ e, r = .error e → seen e) : Tame allowed possible Q seen (lift r : P α) := by
  cases r with
  | ok a => exact hok a rfl
  | error e => exact herror e rfl

theorem under_lift {r : Except Exn α} (h : ∀ a, r = .ok a → Q a) :
    Under allowed possible Q (lift r : P α) := tame_lift h fun _ _ => trivial

theorem under_step {o : Op} {f : Res o → P β} (ho : allowed o)
    (hf : ∀ a, Under allowed possible R (f a)) : Under allowed possible R (perform o >>= f) :=
  Tame.performBind ho fun a _ => hf a

theorem under_perform {o : Op} (ho : allowed o) :
    Under allowed possible (fun _ => True) (perform o) := Tame.perform ho

theorem under_bind {m : P α} {f : α → P β} (hm : Under allowed possible (fun _ => True) m)
    (hf : ∀ a, Under allowed possible R (f a)) : Under allowed possible R (m >>= f) :=
  Tame.bind hm fun a _ => hf a

theorem under_handle {m : P α} {f : Except Exn α → P β}
    (hm : Under allowed possible (fun _ => True) m)
    (hf : ∀ r, Under allowed possible R (f r)) : Under allowed possible R (m.handle f) := by
  refine Tame.handle hm (fun a seen hseen _ => ?_) fun e seen hseen _ => ?_
  · exact (hf (.ok a)).mono hseen
  · exact (hf (.error e)).mono hseen

theorem under_inTransaction {call : Call} {body : P α} (hcall : allowed (.begin call))
    (hcommit : allowed .commit) (hrollback : allowed .rollback)
    (hbody : Under allowed possible (fun _ => True) body) :
    Under allowed possible (fun _ => True) (inTransaction call body) := by
  unfold inTransaction
  refine under_step hcall fun _ => ?_
  rw [attempt_bind]
  refine under_handle hbody fun r => ?_
  cases r with
  | ok a => exact under_step hcommit fun _ => under_done _
  | error e => exact under_step hrollback fun _ => under_done _

/-- A neutral program, under a policy that leaves neutral operations alone. -/
theorem Neutral.under {m : P α} (h : Neutral m) (hneutral : ∀ o, o.isNeutral = true → allowed o) :
    Under allowed possible (fun _ => True) m := by
  have hgeneral : ∀ seen : Exn → Prop, Tame (fun o => o.isNeutral = true) (fun _ _ => True)
      (fun _ => True) seen m → Tame allowed possible (fun _ => True) seen m := by
    induction m with
    | done r =>
      intro seen hm
      cases r with
      | ok a => trivial
      | error e => exact hm
    | op o k ih =>
      intro seen hm
      have hrest : ∀ r, Neutral (k r) := fun r => (hm.2 r trivial).mono fun _ _ => trivial
      exact ⟨hneutral o hm.1, fun r _ => ih r (hrest r) _ (hm.2 r trivial)⟩
  exact hgeneral _ h

end Rules

-- ---------------------------------------------------------------------------
-- The stores
-- ---------------------------------------------------------------------------

section Stores

theorem lockThread_neutral (t : Uuid) : Neutral (lockThread t) := by
  unfold lockThread
  refine under_step rfl ?_
  rintro (_ | row)
  · exact under_done _
  · exact under_done _

theorem lockRun_neutral (runId : Uuid) : Neutral (lockRun runId) := by
  unfold lockRun
  refine under_step rfl ?_
  rintro (_ | t)
  · exact under_done _
  · exact under_bind (lockThread_neutral t) fun _ => under_step rfl fun _ => under_done _

theorem insertClaim_neutral (args : ClaimArgs) (lease now : Time) :
    Neutral (insertClaim args lease now) := by
  unfold insertClaim
  refine under_step rfl ?_
  rintro (_ | row)
  · refine under_step rfl fun found => under_bind (under_done _) fun existing => ?_
    exact under_bind (under_done _) fun _ => under_done _
  · exact under_done _

theorem claimSlot_neutral (args : ClaimArgs) (lease : Time) :
    Neutral (claimSlot args lease) := by
  unfold claimSlot
  refine under_step rfl fun found => under_bind (under_done _) fun active => ?_
  refine under_step rfl fun now => ?_
  cases active with
  | none => exact insertClaim_neutral args lease now
  | some row =>
    dsimp only
    cases expire row now with
    | none => exact under_done _
    | some expired => exact under_step rfl fun _ => insertClaim_neutral args lease now

theorem claim_neutral (args : ClaimArgs) : Neutral (claim args) := by
  unfold claim
  cases args.lease with
  | none => exact under_done _
  | some lease =>
    refine under_inTransaction rfl rfl rfl ?_
    unfold claimIn
    refine under_bind (lockThread_neutral _) fun _ => ?_
    cases args.idempotencyKey with
    | none => exact claimSlot_neutral args lease
    | some key =>
      refine under_step rfl fun found => under_bind (under_done _) ?_
      rintro (_ | existing)
      · exact claimSlot_neutral args lease
      · exact under_bind (under_done _) fun _ => under_done _

theorem transition_neutral (runId : Uuid) (status : RunStatus) (token : Uuid)
    (response : Option RuntimeResponse) (code : Option String) :
    Neutral (transition runId status token response code) := by
  unfold transition
  split
  · exact under_done _
  · refine under_inTransaction rfl rfl rfl ?_
    unfold transitionIn
    refine under_bind (lockRun_neutral runId) fun row => under_step rfl fun now => ?_
    refine under_bind (under_done _) fun _ => under_bind (under_done _) fun _ => ?_
    exact under_step rfl fun _ => under_done _

theorem appendMessageBatch_neutral (t : Uuid) (messages : List Message) (name : Option String) :
    Neutral (appendMessageBatch t messages name) := by
  unfold appendMessageBatch
  refine under_step rfl ?_
  rintro (_ | row)
  · exact under_done _
  · cases messages with
    | nil => exact under_done _
    | cons m rest =>
      exact under_step rfl fun last => under_step rfl fun _ => under_done _

theorem completeIn_neutral (runId token : Uuid) (messages : List Message)
    (response : RuntimeResponse) : Neutral (completeIn runId token messages response) := by
  unfold completeIn
  refine under_bind (lockRun_neutral runId) fun row => under_step rfl fun now => ?_
  refine under_bind (under_done _) fun _ => under_bind (under_done _) fun _ => ?_
  refine under_bind (appendMessageBatch_neutral _ _ _) fun _ => under_step rfl fun now' => ?_
  exact under_bind (under_done _) fun _ => under_step rfl fun _ => under_done _

theorem failIfRunning_neutral (runId token : Uuid) (code : String) (status : RunStatus) :
    Neutral (failIfRunning runId token code status) := by
  unfold failIfRunning
  split
  · exact under_done _
  · refine under_inTransaction rfl rfl rfl ?_
    unfold failIfRunningIn
    refine under_bind (lockRun_neutral runId) fun row => ?_
    split
    · exact under_done _
    · refine under_step rfl fun now => ?_
      split
      · split
        · exact under_step rfl fun _ => under_done _
        · exact under_step rfl fun _ => under_done _
      · exact under_done _

theorem recover_neutral (runId : Uuid) : Neutral (recover runId) := by
  unfold recover
  refine under_inTransaction rfl rfl rfl ?_
  unfold recoverIn
  refine under_bind (lockRun_neutral runId) fun row => under_step rfl fun now => ?_
  cases expire row now with
  | none => exact under_done _
  | some expired => exact under_step rfl fun _ => under_done _

theorem recoverOne_neutral (runId : Uuid) : Neutral (recoverOne runId) := by
  unfold recoverOne
  refine under_step rfl ?_
  rintro (_ | t)
  · exact under_done _
  · refine under_step rfl ?_
    rintro (_ | thread)
    · exact under_done _
    · refine under_step rfl fun found => under_bind (under_done _) fun row => ?_
      refine under_step rfl fun now => ?_
      cases expire row now with
      | none => exact under_done _
      | some expired => exact under_step rfl fun _ => under_done _

theorem recoverEach_neutral (limit : Int) (ids : List Uuid) :
    Neutral (recoverEach limit ids) := by
  induction ids with
  | nil => exact under_done _
  | cons runId rest ih =>
    unfold recoverEach
    refine under_bind (under_inTransaction rfl rfl rfl (recoverOne_neutral runId)) fun _ => ?_
    exact under_bind ih fun _ => under_done _

theorem recoverExpired_neutral (limit : Int) : Neutral (recoverExpired limit) := by
  unfold recoverExpired
  split
  · exact under_step rfl fun ids => recoverEach_neutral limit ids
  · exact under_done _

theorem createThread_neutral (name : String) (userKey : Option String) :
    Neutral (createThread name userKey) := by
  unfold createThread
  refine under_step rfl fun t => under_inTransaction rfl rfl rfl ?_
  refine under_step rfl fun _ => under_step rfl ?_
  rintro (_ | row)
  · exact under_done _
  · exact under_done _

theorem requireThread_neutral (t : Uuid) (name : String) :
    Neutral (requireThread t name) := by
  unfold requireThread
  refine under_step rfl ?_
  rintro (_ | row)
  · exact under_done _
  · exact under_done _

end Stores

-- ---------------------------------------------------------------------------
-- The turn
-- ---------------------------------------------------------------------------

section Turn

variable {rt : Runtime} {emit : Bool}

theorem emitEvent_neutral (e : RuntimeStreamEvent) : Neutral (emitEvent emit e) := by
  unfold emitEvent
  split
  · exact Tame.perform (o := Op.put (.event e)) rfl
  · exact under_done _

theorem replayTo_neutral (run : RunRecord) (hash : String) : Neutral (replayTo emit run hash) := by
  unfold replayTo
  refine under_bind (under_done _) fun response => ?_
  exact under_bind (emitEvent_neutral _) fun _ => under_done _

theorem requireScopedThread_neutral (t : Uuid) : Neutral (requireScopedThread rt t) := by
  unfold requireScopedThread getThread
  refine under_step rfl ?_
  rintro (_ | row)
  · exact under_done _
  · exact under_done _

theorem replayPrevious_neutral (previous : RunRecord) (hash : String) :
    Neutral (replayPrevious rt emit previous hash) := by
  unfold replayPrevious
  refine under_bind (requireScopedThread_neutral _) fun _ => ?_
  split
  · exact under_bind (recover_neutral _) fun recovered => replayTo_neutral recovered hash
  · exact replayTo_neutral previous hash

theorem replayClaimed_neutral (run : RunRecord) (hash : String) :
    Neutral (replayClaimed rt emit run hash) := by
  unfold replayClaimed
  refine under_step rfl fun _ => under_bind (requireScopedThread_neutral _) fun _ => ?_
  split
  · exact under_bind (recover_neutral _) fun recovered => replayTo_neutral recovered hash
  · exact replayTo_neutral run hash

theorem openThread_neutral (request : RuntimeRequest) : Neutral (openThread rt request) := by
  unfold openThread
  split
  · exact createThread_neutral _ _
  · unfold getThread
    refine under_step rfl ?_
    rintro (_ | row)
    · exact under_done _
    · exact under_done _

theorem forward_neutral {ending : Option Exn} (events : List AgentStreamEvent) :
    ∀ terminal, Neutral (forward emit ending events terminal) := by
  induction events with
  | nil =>
    intro terminal
    unfold forward
    refine under_step rfl fun _ => ?_
    split
    · exact under_done _
    · exact under_done _
    · exact under_done _
  | cons event rest ih =>
    intro terminal
    unfold forward
    refine under_step rfl fun _ => ?_
    split
    · exact under_done _
    · exact ih _
    · exact under_bind (emitEvent_neutral _) fun _ => ih none
    · exact under_bind (emitEvent_neutral _) fun _ => ih none

theorem timeoutScope_neutral {α : Type} {body : P α} (h : Neutral body) :
    Neutral (timeoutScope body) := by
  unfold timeoutScope
  refine under_step rfl fun _ => ?_
  rw [attempt_bind]
  refine under_handle h fun r => under_step rfl fun _ => ?_
  split
  · exact under_done _
  · exact under_step rfl fun _ => under_done _

theorem cleanupTask_neutral (runId token : Uuid) (code : String) (status : RunStatus) :
    Neutral (cleanupTask runId token code status) := by
  unfold cleanupTask settleFailure
  refine under_bind (under_bind (timeoutScope_neutral (failIfRunning_neutral _ _ _ _))
    fun out => ?_) fun outcome => under_step rfl fun _ => under_done _
  split
  · exact under_done _
  · exact under_done _
  · split
    · exact under_done _
    · exact under_done _

section Policy

variable {allowed : Op → Prop} {possible : (o : Op) → Except Exn (Res o) → Prop}
  {request : RuntimeRequest} (hneutral : ∀ o, o.isNeutral = true → allowed o)
  (hspawn : ∀ runId token code status timeout,
    allowed (.spawnCleanup runId token code status timeout))
  (hclaimed : ∀ invoker key runId threadId token, Under allowed possible (fun _ => True)
    (runClaimed rt invoker request key emit runId threadId token))

include hneutral

theorem complete_under {runId token : Uuid} {messages : List Message} {response : RuntimeResponse}
    (hcall : allowed (.begin (.complete runId token messages response))) :
    Under allowed possible (fun _ => True) (complete runId token messages response) := by
  unfold complete
  exact under_inTransaction hcall (hneutral _ rfl) (hneutral _ rfl)
    ((completeIn_neutral _ _ _ _).under hneutral)

theorem invokeAgent_under (invoker : Invoker) {messages : List Message}
    (hawait : allowed (.awaitInvoker messages)) (hopen : allowed (.openSource messages)) :
    Under allowed possible (fun _ => True) (invokeAgent invoker emit messages) := by
  unfold invokeAgent
  split
  · unfold streamInvoker
    refine under_step hopen fun source => Tame.finallyDo ?_ (under_perform (hneutral _ rfl))
    exact (forward_neutral _ _).under hneutral
  · exact under_perform hawait

include hclaimed

theorem runFresh_under (invoker : Invoker) (key : Option String) (token : Uuid) :
    Under allowed possible (fun _ => True) (runFresh rt invoker request key emit token) := by
  unfold runFresh
  refine under_bind ((openThread_neutral request).under hneutral) fun thread => ?_
  refine under_step (hneutral _ rfl) fun runId => under_step (hneutral _ rfl) fun _ => ?_
  refine under_bind ((claim_neutral _).under hneutral) fun claimed => ?_
  split
  · exact hclaimed _ _ _ _ _
  · exact (replayClaimed_neutral _ _).under hneutral

/-- One whole turn. -/
theorem execute_under (agentId : String) (key : Option String) (token : Uuid) :
    Under allowed possible (fun _ => True) (execute rt agentId request key emit token) := by
  unfold execute
  refine under_bind (under_done _) fun invoker => ?_
  cases key with
  | none => exact runFresh_under hneutral hclaimed _ _ _
  | some k =>
    refine under_bind (under_step (hneutral _ rfl) fun _ => under_done _) ?_
    rintro (_ | previous)
    · exact runFresh_under hneutral hclaimed _ _ _
    · exact (replayPrevious_neutral _ _).under hneutral

omit hclaimed in
include hspawn in
theorem reconcile_under (token : Uuid) (exc : Exn) (expired : Bool) :
    Under allowed possible (fun _ => True) (reconcile rt token exc expired) := by
  have hrecord : ∀ runId code status, Under allowed possible (fun _ => True)
      (recordFailure runId token code status rt.cleanupTimeout) := by
    intro runId code status
    unfold recordFailure
    exact under_step (hspawn _ _ _ _ _) fun _ => under_perform (hneutral _ rfl)
  unfold reconcile
  refine under_step (hneutral _ rfl) fun runId => ?_
  split
  · exact under_done _
  · exact under_bind (hrecord _ _ _) fun _ => under_done _
  · exact under_done _
  · refine under_bind (hrecord _ _ _) fun record => ?_
    split
    · exact under_done _
    · exact under_done _

include hspawn

theorem invokeTracked_under (agentId : String) (key : Option String) :
    Under allowed possible (fun _ => True) (invokeTracked rt agentId request key emit) := by
  unfold invokeTracked
  refine under_step (hneutral _ rfl) fun closing => ?_
  split
  · exact under_done _
  · unfold invokeWithDeadline timeoutScope
    refine under_step (hneutral _ rfl) fun token => under_bind ?_ fun r => ?_
    · refine under_step (hneutral _ rfl) fun _ => ?_
      rw [attempt_bind]
      refine under_handle (execute_under hneutral hclaimed _ _ _) fun r => ?_
      refine under_step (hneutral _ rfl) fun _ => ?_
      split
      · exact under_done _
      · exact under_step (hneutral _ rfl) fun _ => under_done _
    · split
      · exact under_done _
      · exact reconcile_under hneutral hspawn _ _ _

omit hclaimed in
theorem produce_under (agentId : String) (key : Option String)
    (hclaimed : ∀ invoker key runId threadId token, Under allowed possible (fun _ => True)
      (runClaimed rt invoker request key true runId threadId token)) :
    Under allowed possible (fun _ => True) (produce rt agentId request key) := by
  unfold produce
  refine under_bind ?_ fun _ => under_step (hneutral _ rfl) fun _ => under_done _
  rw [tryCatch_eq]
  refine under_handle (under_bind (invokeTracked_under hneutral hspawn hclaimed _ _) fun _ =>
    under_perform (hneutral _ rfl)) fun r => ?_
  cases r with
  | ok u => exact under_done _
  | error e =>
    show Under allowed possible (fun _ => True)
      (if e.isException = true then perform (.put (.failure e)) else throw e)
    split
    · exact under_perform (hneutral _ rfl)
    · exact under_done _

end Policy

end Turn

end AgentRuntimeKit
