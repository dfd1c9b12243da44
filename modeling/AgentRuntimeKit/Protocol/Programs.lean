import AgentRuntimeKit.Machine.Exec

/-!
# What the programs do

Facts about the text of `_execute` alone, whatever the database and everybody else do. It
performs only inner operations: it enters no time-out, starts no clean-up, and enqueues
neither a completed event nor an end mark. And it is cancelled only where one of its
operations is: no error of its own is a cancellation.

## Results

* `execute_inner` — one whole turn.
-/

namespace AgentRuntimeKit

open Lib Prog

/-- What the turn of a stream may enqueue. -/
def Item.isInner : Item → Bool
  | .event (.completed _) | .failure _ | .sentinel => false
  | .event _ => true

/-- The operations of a turn. -/
def Op.isInner : Op → Bool
  | arm | disarm | expired | spawnCleanup _ _ _ _ _ | awaitCleanup _ | finish _ | resolve => false
  | put item => item.isInner
  | _ => true

/-- What an operation may answer: a source ends in no cancellation of its own, a `queue.put`
fails only when it is cancelled, and a time-out is left without failing. -/
def Op.answers : (o : Op) → Except Exn (Res o) → Prop
  | .openSource _, .ok source => ∀ e, source.ending = some e → e.isException = true
  | .put _, .error e => ∃ b, e = .cancelled b
  | .disarm, .error _ => False
  | _, _ => True

/-- Only inner operations, no cancellation but those of operations, and a value with `Q`. -/
abbrev InnerTo {α : Type} (Q : α → Prop) (m : P α) : Prop :=
  Tame (fun o => o.isInner = true) Op.answers Q (fun e => e.isException = true) m

/-- Only inner operations, and no cancellation but those of operations. -/
abbrev Inner {α : Type} (m : P α) : Prop := InnerTo (fun _ => True) m

section Rules

variable {α β : Type} {Q : α → Prop} {R : β → Prop}

theorem inner_pure (a : α) : Inner (pure a : P α) := trivial

theorem inner_throw {e : Exn} (he : e.isException = true) : InnerTo Q (throw e : P α) := he

/-- A pure computation that raises only ordinary exceptions. -/
theorem innerTo_lift {r : Except Exn α} (hok : ∀ a, r = .ok a → Q a)
    (hr : ∀ e, r = .error e → e.isException = true) : InnerTo Q (lift r : P α) := by
  cases r with
  | ok a => exact hok a rfl
  | error e => exact hr e rfl

theorem inner_lift {r : Except Exn α} (hr : ∀ e, r = .error e → e.isException = true) :
    Inner (lift r : P α) := innerTo_lift (fun _ _ => trivial) hr

theorem inner_step {o : Op} {f : Res o → P β} (ho : o.isInner = true)
    (hf : ∀ a, InnerTo R (f a)) : InnerTo R (perform o >>= f) :=
  Tame.performBind ho fun a _ => hf a

theorem inner_perform {o : Op} (ho : o.isInner = true) : Inner (perform o) := Tame.perform ho

theorem inner_bind {m : P α} {f : α → P β} (hm : Inner m) (hf : ∀ a, InnerTo R (f a)) :
    InnerTo R (m >>= f) := Tame.bind hm fun a _ => hf a

theorem inner_inTransaction {call : Call} {body : P α} (h : Inner body) :
    Inner (inTransaction call body) := by
  unfold inTransaction
  refine inner_step rfl fun _ => ?_
  rw [attempt_bind]
  refine Tame.handle h (fun a _ _ _ => ?_) fun e _ _ he => ?_
  · exact Tame.performBind rfl fun _ _ => trivial
  · exact Tame.performBind rfl fun _ _ => he

end Rules

-- ---------------------------------------------------------------------------
-- The stores
-- ---------------------------------------------------------------------------

theorem scalarOne_isException {α : Type} {xs : List α} {e : Exn} (h : scalarOne xs = .error e) :
    e.isException = true := by
  unfold scalarOne at h
  split at h
  · rw [← Except.error.inj h]
    rfl
  · exact absurd h (by simp)
  · rw [← Except.error.inj h]
    rfl

theorem scalarOneOrNone_isException {α : Type} {xs : List α} {e : Exn}
    (h : scalarOneOrNone xs = .error e) : e.isException = true := by
  unfold scalarOneOrNone at h
  split at h
  · exact absurd h (by simp)
  · exact absurd h (by simp)
  · rw [← Except.error.inj h]
    rfl

theorem checkHash_isException {row : RunRow} {hash : String} {e : Exn}
    (h : checkHash row hash = .error e) : e.isException = true := by
  unfold checkHash at h
  split at h
  · exact absurd h (by simp)
  · rw [← Except.error.inj h]
    rfl

theorem checkOwner_isException {row : RunRow} {token : Uuid} {now : Time} {e : Exn}
    (h : checkOwner row token now = .error e) : e.isException = true := by
  unfold checkOwner at h
  split at h
  · exact absurd h (by simp)
  · rw [← Except.error.inj h]
    rfl

theorem checkTransition_isException {row : RunRow} {status : RunStatus}
    {response : Option RuntimeResponse} {e : Exn}
    (h : checkTransition row status response = .error e) : e.isException = true := by
  unfold checkTransition at h
  split at h
  · rw [← Except.error.inj h]
    rfl
  · split at h
    · rw [← Except.error.inj h]
      rfl
    · exact absurd h (by simp)

theorem checkCompletion_isException {row : RunRow} {messages : List Message}
    {response : RuntimeResponse} {e : Exn}
    (h : checkCompletion row messages response = .error e) : e.isException = true := by
  unfold checkCompletion at h
  split at h
  · rw [← Except.error.inj h]
    rfl
  · split at h
    · rw [← Except.error.inj h]
      rfl
    · split at h
      · rw [← Except.error.inj h]
        rfl
      · exact absurd h (by simp)

theorem lockThread_inner (t : Uuid) : Inner (lockThread t) := by
  unfold lockThread
  refine inner_step rfl ?_
  rintro (_ | row)
  · exact inner_throw rfl
  · exact inner_pure ()

theorem lockRun_inner (runId : Uuid) : Inner (lockRun runId) := by
  unfold lockRun
  refine inner_step rfl ?_
  rintro (_ | t)
  · exact inner_throw rfl
  · refine inner_bind (lockThread_inner t) fun _ => inner_step rfl fun rows => ?_
    exact inner_lift fun _ => scalarOne_isException

theorem insertClaim_inner (args : ClaimArgs) (lease now : Time) :
    Inner (insertClaim args lease now) := by
  unfold insertClaim
  refine inner_step rfl ?_
  rintro (_ | row)
  · refine inner_step rfl fun rows =>
      inner_bind (inner_lift fun _ => scalarOne_isException) fun existing => ?_
    exact inner_bind (inner_lift fun _ => checkHash_isException) fun _ => inner_pure _
  · exact inner_pure _

theorem claimSlot_inner (args : ClaimArgs) (lease : Time) : Inner (claimSlot args lease) := by
  unfold claimSlot
  refine inner_step rfl fun rows =>
    inner_bind (inner_lift fun _ => scalarOneOrNone_isException) fun active => ?_
  refine inner_step rfl fun now => ?_
  cases active with
  | none => exact insertClaim_inner args lease now
  | some row =>
    dsimp only
    cases expire row now with
    | none => exact inner_throw rfl
    | some expired => exact inner_step rfl fun _ => insertClaim_inner args lease now

theorem claim_inner (args : ClaimArgs) : Inner (claim args) := by
  unfold claim
  cases args.lease with
  | none => exact inner_throw rfl
  | some lease =>
    refine inner_inTransaction ?_
    unfold claimIn
    refine inner_bind (lockThread_inner _) fun _ => ?_
    cases args.idempotencyKey with
    | none => exact claimSlot_inner args lease
    | some key =>
      refine inner_step rfl fun rows =>
        inner_bind (inner_lift fun _ => scalarOneOrNone_isException) ?_
      rintro (_ | existing)
      · exact claimSlot_inner args lease
      · exact inner_bind (inner_lift fun _ => checkHash_isException) fun _ => inner_pure _

theorem transition_inner (runId : Uuid) (status : RunStatus) (token : Uuid)
    (response : Option RuntimeResponse) (code : Option String) :
    Inner (transition runId status token response code) := by
  unfold transition
  split
  · exact inner_throw rfl
  · refine inner_inTransaction ?_
    unfold transitionIn
    refine inner_bind (lockRun_inner runId) fun row => inner_step rfl fun now => ?_
    refine inner_bind (inner_lift fun _ => checkOwner_isException) fun _ => ?_
    refine inner_bind (inner_lift fun _ => checkTransition_isException) fun _ => ?_
    exact inner_step rfl fun _ => inner_pure _

theorem appendMessageBatch_inner (t : Uuid) (messages : List Message) (name : Option String) :
    Inner (appendMessageBatch t messages name) := by
  unfold appendMessageBatch
  refine inner_step rfl ?_
  rintro (_ | row)
  · exact inner_throw rfl
  · cases messages with
    | nil => exact inner_pure _
    | cons m rest => exact inner_step rfl fun last => inner_step rfl fun _ => inner_pure _

theorem complete_inner (runId token : Uuid) (messages : List Message)
    (response : RuntimeResponse) : Inner (complete runId token messages response) := by
  unfold complete
  refine inner_inTransaction ?_
  unfold completeIn
  refine inner_bind (lockRun_inner runId) fun row => inner_step rfl fun now => ?_
  refine inner_bind (inner_lift fun _ => checkOwner_isException) fun _ => ?_
  refine inner_bind (inner_lift fun _ => checkCompletion_isException) fun _ => ?_
  refine inner_bind (appendMessageBatch_inner _ _ _) fun _ => inner_step rfl fun now' => ?_
  refine inner_bind (inner_lift fun _ => checkOwner_isException) fun _ => ?_
  exact inner_step rfl fun _ => inner_pure _

theorem recover_inner (runId : Uuid) : Inner (recover runId) := by
  unfold recover
  refine inner_inTransaction ?_
  unfold recoverIn
  refine inner_bind (lockRun_inner runId) fun row => inner_step rfl fun now => ?_
  cases expire row now with
  | none => exact inner_pure _
  | some expired => exact inner_step rfl fun _ => inner_pure _

theorem createThread_inner (name : String) (userKey : Option String) :
    Inner (createThread name userKey) := by
  unfold createThread
  refine inner_step rfl fun t => inner_inTransaction ?_
  refine inner_step rfl fun _ => inner_step rfl ?_
  rintro (_ | row)
  · exact inner_throw rfl
  · exact inner_pure _

theorem getByIdempotency_inner (agentId key : String) : Inner (getByIdempotency agentId key) := by
  unfold getByIdempotency
  exact inner_step rfl fun rows => inner_lift fun _ => scalarOneOrNone_isException

theorem requireThread_inner (t : Uuid) (name : String) : Inner (requireThread t name) := by
  unfold requireThread
  refine inner_step rfl ?_
  rintro (_ | row)
  · exact inner_throw rfl
  · exact inner_pure ()

theorem getMessages_inner (t : Uuid) (name : String) : Inner (getMessages t name) := by
  unfold getMessages
  exact inner_bind (requireThread_inner t name) fun _ => inner_step rfl fun rows => inner_pure _

-- ---------------------------------------------------------------------------
-- The selection
-- ---------------------------------------------------------------------------

theorem scanPart_isException {pending : Finset PyStr} {part : ContentPart} {e : Exn}
    (h : scanPart pending part = .error e) : e.isException = true := by
  cases part <;> simp only [scanPart] at h
  · exact absurd h (by simp)
  · split at h
    · rw [← Except.error.inj h]
      rfl
    · exact absurd h (by simp)
  · split at h
    · exact absurd h (by simp)
    · rw [← Except.error.inj h]
      rfl

theorem scanParts_isException {parts : List ContentPart} {e : Exn} :
    ∀ {pending : Finset PyStr}, scanParts pending parts = .error e → e.isException = true := by
  induction parts with
  | nil => exact fun h => absurd h (by simp [scanParts])
  | cons part parts ih =>
    intro pending h
    rw [scanParts] at h
    split at h
    · exact ih h
    · next hpart =>
      rw [← Except.error.inj h]
      exact scanPart_isException hpart

section Selection

variable {encode : Encoder} (hencode : ∀ m e, encode m = .error e → e.isException = true)

include hencode

theorem Scan.loop_isException {n : Nat} {messages : List Message} {e : Exn} :
    ∀ {index : Nat} {s : Scan}, Scan.loop encode n index messages s = .error e →
      e.isException = true := by
  induction messages with
  | nil => exact fun h => absurd h (by simp [Scan.loop])
  | cons message rest ih =>
    intro index s h
    rw [Scan.loop] at h
    split at h
    · exact ih h
    · next hstep =>
      rw [← Except.error.inj h]
      rw [Scan.step] at hstep
      split at hstep
      · next hmessage =>
        rw [← Except.error.inj hstep]
        exact hencode _ _ hmessage
      · dsimp only at hstep
        split at hstep
        · exact absurd hstep (by simp)
        · split at hstep
          · exact absurd hstep (by simp)
          · next hparts =>
            rw [← Except.error.inj hstep]
            exact scanParts_isException hparts

theorem select_isException {window : ContextWindow} {history current : List Message} {e : Exn}
    (h : window.select encode history current = .error e) : e.isException = true := by
  unfold ContextWindow.select at h
  dsimp only at h
  split at h
  · next hloop =>
    rw [← Except.error.inj h]
    exact Scan.loop_isException hencode hloop
  · unfold Scan.select at h
    split at h
    · rw [← Except.error.inj h]
      rfl
    · extract_lets groups required mandatory selected selectedBytes f at h
      split at h
      · rw [← Except.error.inj h]
        rfl
      · exact absurd h (by simp)

namespace StreamingSelection

/-- What a selection has recorded to raise later is an ordinary exception. -/
def Recorded (s : StreamingSelection) : Prop := ∀ e, s.failure = some e → e.isException = true

omit hencode in
theorem require_failure (s : StreamingSelection) (cost history : Nat)
    (entries : List (Nat × Message)) : (s.require cost history entries).failure = s.failure := by
  unfold require
  extract_lets s'
  split <;> rfl

omit hencode in
theorem closeGroup_failure (s : StreamingSelection) : s.closeGroup.failure = s.failure := by
  unfold closeGroup
  extract_lets group s'
  split
  · rfl
  · split
    · exact require_failure s' _ _ _
    · split <;> rfl

theorem add_recorded {s : StreamingSelection} {message : Message} {current : Bool}
    (hs : s.Recorded) : (∀ s', s.add encode message current = .ok s' → s'.Recorded) ∧
      ∀ e, s.add encode message current = .error e → e.isException = true := by
  unfold add
  split
  · exact ⟨fun s' h => Except.ok.inj h ▸ hs, fun e h => absurd h (by simp)⟩
  · next hnone =>
    have hfailure : s.failure = none := by simpa using hnone
    split
    · next e₀ hmessage =>
      have he₀ := hencode _ _ hmessage
      split
      · refine ⟨fun s' h => ?_, fun e h => absurd h (by simp)⟩
        rw [← Except.ok.inj h]
        intro e he
        rw [← Option.some.inj he]
        exact he₀
      · refine ⟨fun s' h => absurd h (by simp), fun e h => ?_⟩
        rw [← Except.error.inj h]
        exact he₀
    · -- nothing but a failed scan records an error from here on
      extract_lets cost index boundary s₁ s₂ s₃
      have h₁ : s₁.failure = none := by
        show (if _ then s.closeGroup else s).failure = none
        split
        · rw [closeGroup_failure, hfailure]
        · exact hfailure
      split
      · refine ⟨fun s' h => ?_, fun e h => absurd h (by simp)⟩
        rw [← Except.ok.inj h]
        intro e he
        rw [require_failure] at he
        exact absurd (h₁.symm.trans he) (by simp)
      · split
        · refine ⟨fun s' h => ?_, fun e h => absurd h (by simp)⟩
          rw [← Except.ok.inj h]
          intro e he
          exact absurd (h₁.symm.trans he) (by simp)
        · next hparts =>
          refine ⟨fun s' h => ?_, fun e h => absurd h (by simp)⟩
          rw [← Except.ok.inj h]
          intro e he
          rw [← Option.some.inj he]
          exact scanParts_isException hparts

theorem addAll_recorded {messages : List Message} {current : Bool} :
    ∀ {s : StreamingSelection}, s.Recorded →
      (∀ s', s.addAll encode current messages = .ok s' → s'.Recorded) ∧
      ∀ e, s.addAll encode current messages = .error e → e.isException = true := by
  induction messages with
  | nil =>
    intro s hs
    unfold addAll
    exact ⟨fun s' h => Except.ok.inj h ▸ hs, fun e h => absurd h (by simp)⟩
  | cons message rest ih =>
    intro s hs
    obtain ⟨hok, herr⟩ := @add_recorded encode hencode s message current hs
    unfold addAll
    split
    · next s' hadd => exact ih (hok s' hadd)
    · next e' hadd =>
      refine ⟨fun s' h => absurd h (by simp), fun e h => ?_⟩
      rw [← Except.error.inj h]
      exact herr e' hadd

omit hencode in
theorem finish_isException {s : StreamingSelection} (hs : s.Recorded) {e : Exn}
    (h : s.finish = .error e) : e.isException = true := by
  unfold finish at h
  split at h
  · next e' hfailure =>
    rw [← Except.error.inj h]
    exact hs e' hfailure
  · split at h
    · rw [← Except.error.inj h]
      rfl
    · dsimp only at h
      split at h
      · rw [← Except.error.inj h]
        rfl
      · exact absurd h (by simp)

end StreamingSelection

end Selection

-- ---------------------------------------------------------------------------
-- The turn
-- ---------------------------------------------------------------------------

section Turn

variable {rt : Runtime} {emit : Bool}

theorem StreamingSelection.start_recorded (n : Nat) : (StreamingSelection.start n).Recorded :=
  fun _ he => absurd he (by simp [start])

theorem selectBatches_inner (batches : List (List MessageRow)) :
    ∀ {s : StreamingSelection}, s.Recorded →
      InnerTo StreamingSelection.Recorded (selectBatches rt.encode batches s) := by
  induction batches with
  | nil => exact fun hs => hs
  | cons batch rest ih =>
    intro s hs
    obtain ⟨hok, herr⟩ := @StreamingSelection.addAll_recorded rt.encode rt.validEncode
      (batch.map MessageRow.message) false s hs
    unfold selectBatches
    refine inner_step rfl fun _ => Tame.bind (innerTo_lift hok herr) fun s' hs' => ?_
    exact ih hs'

theorem selectStored_inner (window : ContextWindow) (t : Uuid) (current : List Message) :
    Inner (selectStored rt window t current) := by
  unfold selectStored
  refine inner_bind (requireThread_inner t _) fun _ => inner_step rfl fun rows => ?_
  have hbatches := @selectBatches_inner rt (partitions 256 rows.length rows) _
    (StreamingSelection.start_recorded window.maxBytes)
  refine Tame.bind (hbatches.finallyDo (inner_perform rfl)) fun s hs => ?_
  obtain ⟨hok, herr⟩ :=
    @StreamingSelection.addAll_recorded rt.encode rt.validEncode current true s hs
  refine Tame.bind (innerTo_lift hok herr) fun s' hs' => ?_
  exact inner_lift fun _ => StreamingSelection.finish_isException hs'

theorem inputMessages_inner (t : Uuid) (current : List Message) :
    Inner (inputMessages rt t current) := by
  unfold inputMessages
  split
  · exact inner_bind (selectStored_inner _ t current) fun _ => inner_pure _
  · exact inner_bind (getMessages_inner t _) fun _ => inner_pure _
  · refine inner_bind (getMessages_inner t _) fun history => ?_
    exact inner_bind (inner_lift fun _ => select_isException rt.validEncode) fun _ => inner_pure _

theorem emitEvent_inner {e : RuntimeStreamEvent} (he : (Item.event e).isInner = true) :
    Inner (emitEvent emit e) := by
  unfold emitEvent
  split
  · exact inner_perform he
  · exact inner_pure ()

theorem forward_inner {ending : Option Exn} (hending : ∀ e, ending = some e → e.isException = true)
    (events : List AgentStreamEvent) : ∀ terminal, Inner (forward emit ending events terminal) := by
  induction events with
  | nil =>
    intro terminal
    unfold forward
    refine inner_step rfl fun _ => ?_
    cases ending with
    | some e => exact inner_throw (hending e rfl)
    | none =>
      cases terminal with
      | none => exact inner_throw rfl
      | some output => exact inner_pure output
  | cons event rest ih =>
    intro terminal
    unfold forward
    refine inner_step rfl fun _ => ?_
    cases terminal with
    | some output => exact inner_throw rfl
    | none =>
      cases event with
      | completed output => exact ih _
      | textDelta delta => exact inner_bind (emitEvent_inner rfl) fun _ => ih _
      | toolResult result => exact inner_bind (emitEvent_inner rfl) fun _ => ih _

theorem invokeAgent_inner (invoker : Invoker) (messages : List Message) :
    Inner (invokeAgent invoker emit messages) := by
  unfold invokeAgent
  split
  · unfold streamInvoker
    refine Tame.performBind rfl fun source hsource => ?_
    exact Tame.finallyDo (forward_inner hsource source.events none) (inner_perform rfl)
  · exact inner_perform rfl

theorem finalAssistant_isException {messages : List Message} {e : Exn}
    (h : finalAssistant messages = .error e) : e.isException = true := by
  unfold finalAssistant at h
  split at h
  · exact absurd h (by simp)
  · rw [← Except.error.inj h]
    rfl

theorem replay_isException {run : RunRecord} {hash : String} {e : Exn}
    (h : replay run hash = .error e) :
    e.isException = true := by
  unfold replay at h
  split at h
  · rw [← Except.error.inj h]
    rfl
  · split at h
    · rw [← Except.error.inj h]
      rfl
    · split at h
      · exact absurd h (by simp)
      · rw [← Except.error.inj h]
        rfl

theorem requireScopedThread_inner (t : Uuid) : Inner (requireScopedThread rt t) := by
  unfold requireScopedThread getThread
  refine inner_step rfl ?_
  rintro (_ | row)
  · exact inner_throw rfl
  · exact inner_pure ()

theorem replayTo_inner (run : RunRecord) (hash : String) : Inner (replayTo emit run hash) := by
  unfold replayTo
  refine inner_bind (inner_lift fun _ => replay_isException) fun response => ?_
  exact inner_bind (emitEvent_inner rfl) fun _ => inner_pure response

theorem replayPrevious_inner (previous : RunRecord) (hash : String) :
    Inner (replayPrevious rt emit previous hash) := by
  unfold replayPrevious
  refine inner_bind (requireScopedThread_inner _) fun _ => ?_
  split
  · exact inner_bind (recover_inner _) fun recovered => replayTo_inner recovered hash
  · exact replayTo_inner previous hash

theorem replayClaimed_inner (run : RunRecord) (hash : String) :
    Inner (replayClaimed rt emit run hash) := by
  unfold replayClaimed
  refine inner_step rfl fun _ => inner_bind (requireScopedThread_inner _) fun _ => ?_
  split
  · exact inner_bind (recover_inner _) fun recovered => replayTo_inner recovered hash
  · exact replayTo_inner run hash

theorem openThread_inner (request : RuntimeRequest) : Inner (openThread rt request) := by
  unfold openThread
  split
  · exact createThread_inner _ _
  · unfold getThread
    refine inner_step rfl ?_
    rintro (_ | row)
    · exact inner_throw rfl
    · exact inner_pure row

theorem runClaimed_inner (invoker : Invoker) (request : RuntimeRequest) (key : Option String)
    (runId threadId token : Uuid) :
    Inner (runClaimed rt invoker request key emit runId threadId token) := by
  unfold runClaimed
  refine inner_bind (transition_inner _ _ _ _ _) fun _ => ?_
  refine inner_bind (emitEvent_inner rfl) fun _ =>
    inner_bind (inputMessages_inner _ _) fun messages => ?_
  refine inner_step rfl fun _ => inner_step rfl fun _ =>
    inner_bind (invokeAgent_inner _ _) fun output => ?_
  refine inner_step rfl fun _ =>
    inner_bind (inner_lift fun _ => finalAssistant_isException) fun assistant => ?_
  refine inner_step rfl fun traceId => ?_
  exact inner_bind (complete_inner _ _ _ _) fun _ => inner_pure _

theorem runFresh_inner (invoker : Invoker) (request : RuntimeRequest) (key : Option String)
    (token : Uuid) : Inner (runFresh rt invoker request key emit token) := by
  unfold runFresh
  refine inner_bind (openThread_inner request) fun thread => inner_step rfl fun runId => ?_
  refine inner_step rfl fun _ => inner_bind (claim_inner _) fun claimed => ?_
  split
  · exact runClaimed_inner _ _ _ _ _ _
  · exact replayClaimed_inner _ _

/-- One whole turn. -/
theorem execute_inner (agentId : String) (request : RuntimeRequest) (key : Option String)
    (token : Uuid) : Inner (execute rt agentId request key emit token) := by
  unfold execute
  refine inner_bind (inner_lift fun e he => ?_) fun invoker => ?_
  · unfold Runtime.agent at he
    split at he
    · exact absurd he (by simp)
    · rw [← Except.error.inj he]
      rfl
  · cases key with
    | none => exact runFresh_inner _ _ _ _
    | some k =>
      refine inner_bind (getByIdempotency_inner _ _) ?_
      rintro (_ | previous)
      · exact runFresh_inner _ _ _ _
      · exact replayPrevious_inner _ _

end Turn

end AgentRuntimeKit
