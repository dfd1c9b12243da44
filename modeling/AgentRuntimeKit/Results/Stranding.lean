import AgentRuntimeKit.Results.Streams

/-!
# Stranded consumers

The consumer of a stream takes items from a queue that a producer task fills. A consumer that waits
on an empty queue gets nothing more once its producer has ended without an end mark, and waits for
ever. A cancellation of the producer skips the end mark, which is meant for consumers that have gone
away; `shutdown` cancels the producers of those that have not.

`not_stranded` is about every run in which no producer is cancelled while its consumer iterates
(`Undisturbed`). What counts is every `CancelledError` that a producer gets, from whatever operation
it awaits, but the one of its own deadline: that of a shutdown, but also one that an invoker lets
out itself, because a task of its own that it awaits has been cancelled. The producer cannot tell
them apart. After its consumer has gone, a producer may be cancelled in any way.

A program is `Shielded` if it ends only after it has enqueued an end mark, unless it is cancelled
from outside. `produce` is; the operations of a turn raise no cancellation of their own under one
deadline (`Calm`), and what they raise otherwise ends in an end mark. From the start of the producer
on, the assertion is kept by each of its operations and by its consumer (`Producing.Kept`).

## Results

* `not_stranded`     — unless a producer is cancelled from outside while its consumer iterates,
  no consumer is ever stranded.
* `stranded_shutdown` — a shutdown strands a consumer.
-/

namespace AgentRuntimeKit

open Lib Prog

/-- The producer of `p` has ended, its queue is empty, no end mark was ever enqueued, and the
consumer waits for the next item. -/
structure Stranded (c : Cfg) (p : Pid) : Prop where
  stream : (c.world.kind p).isStream = true
  ended : ∃ r, c.procs p = some (.done r)
  empty : (c.world.stream p).pushed.length ≤ (c.world.stream p).taken
  unmarked : ∀ item ∈ (c.world.stream p).pushed, item.ends = false
  waiting : (c.world.stream p).iterating = true

-- ---------------------------------------------------------------------------
-- Programs that end with an end mark
-- ---------------------------------------------------------------------------

/-- Nobody outside has cancelled, and the deadline only inside `asyncio.timeout`. -/
def Uncancelled {α : Type} (armed : Bool) (r : Except Exn α) : Prop :=
  ∀ b, r = .error (.cancelled b) → b = true ∧ armed = true

/-- Unless it is cancelled from outside, the program ends only after it has enqueued an end
mark. -/
def Shielded : Bool → P Answer → Prop
  | _, .done _ => False
  | armed, .op o k => ∀ r, o.answers r → Uncancelled armed r →
      (∃ item, o = .put item ∧ item.ends = true ∧ ∃ a, r = .ok a) ∨
        Shielded (o.arms armed r) (k r)

/-- An operation that enters and leaves no deadline. -/
def Op.keepsDeadline (o : Op) : Prop := ∀ armed r, o.arms armed r = armed

theorem Op.keepsDeadline_of_ne {o : Op} (harm : o ≠ .arm) (hdisarm : o ≠ .disarm) :
    o.keepsDeadline := by
  intro armed r
  cases o with
  | arm => exact absurd rfl harm
  | disarm => exact absurd rfl hdisarm
  | _ => rfl

/-- No cancellation but those of its operations, under one deadline. -/
abbrev Calm {α : Type} (m : P α) : Prop :=
  Tame Op.keepsDeadline Op.answers (fun _ => True) (fun e => e.isException = true) m

section Shielded

variable {armed : Bool} {α : Type}

theorem uncancelled_of_isException {e : Exn} (he : e.isException = true) :
    Uncancelled armed (.error e : Except Exn α) := by
  intro b hb
  rw [Except.error.inj hb] at he
  exact Bool.noConfusion he

theorem isException_of_uncancelled {e : Exn} (h : Uncancelled false (.error e : Except Exn α)) :
    e.isException = true := by
  cases e with
  | cancelled b => exact Bool.noConfusion (h b rfl).2
  | _ => rfl

theorem Shielded.handle {m : P α} {f : Except Exn α → P Answer} {Q : α → Prop} {seen : Exn → Prop}
    (hm : Tame Op.keepsDeadline Op.answers Q seen m)
    (hseen : ∀ e, seen e → Uncancelled armed (.error e : Except Exn α))
    (hf : ∀ r, Uncancelled armed r → Shielded armed (f r)) : Shielded armed (m.handle f) := by
  induction m generalizing seen with
  | done r =>
    refine hf r fun b hb => ?_
    subst hb
    exact hseen _ hm b rfl
  | op o k ih =>
    intro r hr hcancelled
    refine Or.inr ?_
    rw [hm.1]
    refine ih r (hm.2 r hr) fun e he => ?_
    rcases he with he | rfl
    · exact hseen e he
    · exact fun b hb => hcancelled b (by rw [Except.error.inj hb])

/-- One operation that keeps the deadline. -/
theorem Shielded.step {o : Op} {f : Res o → P α} {g : Except Exn α → P Answer}
    (ho : o.keepsDeadline) (hf : ∀ a, Shielded armed ((f a).handle g))
    (hg : ∀ e, Uncancelled armed (.error e : Except Exn α) → Shielded armed (g (.error e))) :
    Shielded armed ((perform o >>= f).handle g) := by
  intro r hr hcancelled
  refine Or.inr ?_
  rw [ho]
  cases r with
  | ok a => exact hf a
  | error e => exact hg e fun b hb => hcancelled b (by rw [Except.error.inj hb])

theorem sentinelLast_shielded : Shielded false sentinelLast := by
  intro r hr hcancelled
  cases r with
  | ok a => exact Or.inl ⟨_, rfl, rfl, a, rfl⟩
  | error e =>
    obtain ⟨b, rfl⟩ := hr
    exact Bool.noConfusion (hcancelled b rfl).2

/-- Once its invocation has ended without a cancellation, a producer enqueues an end mark. -/
theorem produceTail_shielded {r : Except Exn RuntimeResponse} (h : Uncancelled false r) :
    Shielded false (produceTail r) := by
  have herror : ∀ exc : Exn, exc.isException = true → Shielded false
      ((onError (fun exc => if exc.isException then perform (.put (.failure exc)) else throw exc)
        (.error exc)).handle (onOk fun _ => sentinelLast)) := by
    intro exc hexc
    unfold onError
    dsimp only
    rw [if_pos hexc]
    intro r hr hcancelled
    cases r with
    | ok a => exact Or.inl ⟨_, rfl, rfl, a, rfl⟩
    | error e =>
      obtain ⟨b, rfl⟩ := hr
      exact Bool.noConfusion (hcancelled b rfl).2
  cases r with
  | error exc => exact herror exc (isException_of_uncancelled h)
  | ok response =>
    intro r hr hcancelled
    refine Or.inr ?_
    cases r with
    | ok a => exact sentinelLast_shielded
    | error e =>
      obtain ⟨b, rfl⟩ := hr
      exact Bool.noConfusion (hcancelled b rfl).2

end Shielded

section Producers

variable {rt : Runtime} {agentId : String} {request : RuntimeRequest} {key : Option String}

theorem calm_perform {o : Op} (harm : o ≠ .arm) (hdisarm : o ≠ .disarm) : Calm (perform o) :=
  Tame.perform (Op.keepsDeadline_of_ne harm hdisarm)

theorem recordFailure_calm (runId token : Uuid) (code : String) (status : RunStatus)
    (timeout : Time) : Calm (recordFailure runId token code status timeout) := by
  unfold recordFailure
  exact (calm_perform (fun h => Op.noConfusion h) fun h => Op.noConfusion h).bind fun _ _ =>
    calm_perform (fun h => Op.noConfusion h) fun h => Op.noConfusion h

theorem raisedFor_isException {exc : Exn} (h : exc.isException = true) (expired : Bool) :
    (raisedFor exc expired).isException = true := by
  unfold raisedFor
  split
  · rfl
  · exact h

/-- An ordinary exception is reconciled without a cancellation of its own. -/
theorem reconcile_calm {token : Uuid} {exc : Exn} {expired : Bool} (h : exc.isException = true) :
    Calm (reconcile rt token exc expired) := by
  unfold reconcile
  refine Tame.bind (calm_perform (fun h => Op.noConfusion h) fun h => Op.noConfusion h)
    fun runId _ => ?_
  split
  · exact Bool.noConfusion h
  · exact Bool.noConfusion h
  · exact raisedFor_isException h expired
  · refine (recordFailure_calm _ _ _ _ _).bind fun record _ => ?_
    split
    · trivial
    · exact raisedFor_isException h expired

/-- What `_invoke_with_deadline` does once it has left its deadline. -/
def afterScope (rt : Runtime) (token : Uuid) (r : Except Exn RuntimeResponse × Bool) :
    P RuntimeResponse :=
  match r.1 with
  | .ok response => pure response
  | .error exc => reconcile rt token exc r.2

theorem invokeWithDeadline_eq (emit : Bool) :
    invokeWithDeadline rt agentId request key emit = perform .uuid4 >>= fun token =>
      timeoutScope (execute rt agentId request key emit token) >>= afterScope rt token := rfl

theorem leaveScope_deadline {α : Type} : leaveScope (.error (.cancelled true) : Except Exn α) =
    perform .disarm >>= fun _ => pure (.error .timeout, true) := rfl

theorem leaveScope_of_ne {α : Type} {r : Except Exn α} (h : r ≠ .error (.cancelled true)) :
    leaveScope r = perform .disarm >>= fun _ => perform .expired >>= fun expired =>
      pure (r, expired) := by
  cases r with
  | ok a => rfl
  | error e =>
    cases e with
    | cancelled b =>
      cases b with
      | true => exact absurd rfl h
      | false => rfl
    | _ => rfl

/-- Once `_execute` has ended, its producer enqueues an end mark. -/
theorem scope_shielded {token : Uuid} {r : Except Exn RuntimeResponse} (h : Uncancelled true r) :
    Shielded true ((leaveScope r >>= afterScope rt token).handle produceTail) := by
  -- past the deadline nobody cancels, and what is reconciled is no cancellation
  have hafter : ∀ r : Except Exn RuntimeResponse × Bool, Uncancelled false r.1 →
      Shielded false ((afterScope rt token r).handle produceTail) := by
    rintro ⟨r, expired⟩ hr
    cases r with
    | ok response => exact produceTail_shielded fun b hb => absurd hb (by simp)
    | error exc =>
      exact Shielded.handle (reconcile_calm (isException_of_uncancelled hr))
        (fun e he => uncancelled_of_isException he) fun r hr => produceTail_shielded hr
  -- leaving it does not fail
  have hleave : ∀ f : Unit → P (Except Exn RuntimeResponse × Bool),
      Shielded false ((f () >>= afterScope rt token).handle produceTail) →
      Shielded true ((perform .disarm >>= f >>= afterScope rt token).handle produceTail) := by
    intro f hf left hleft _
    cases left with
    | ok u => exact Or.inr hf
    | error e => exact hleft.elim
  by_cases hdeadline : r = .error (.cancelled true)
  · rw [hdeadline, leaveScope_deadline]
    exact hleave _ (hafter (.error .timeout, true) (uncancelled_of_isException rfl))
  · have hr : Uncancelled false r := by
      intro b hb
      obtain ⟨rfl, -⟩ := h b hb
      exact absurd hb hdeadline
    rw [leaveScope_of_ne hdeadline]
    refine hleave _ ?_
    rw [bind_bind]
    exact Shielded.step (Op.keepsDeadline_of_ne (fun h => Op.noConfusion h)
      fun h => Op.noConfusion h) (fun expired => hafter (r, expired) hr) fun e he =>
        produceTail_shielded fun b hb => he b (by rw [Except.error.inj hb])

theorem produce_shielded (rt : Runtime) (agentId : String) (request : RuntimeRequest)
    (key : Option String) : Shielded false (produce rt agentId request key) := by
  have hfail : ∀ e, Uncancelled false (.error e : Except Exn RuntimeResponse) →
      Shielded false (produceTail (.error e)) := fun e he => produceTail_shielded he
  rw [produce_eq]
  unfold invokeTracked
  refine Shielded.step (Op.keepsDeadline_of_ne (fun h => Op.noConfusion h)
    fun h => Op.noConfusion h) (fun closing => ?_) hfail
  split
  · exact hfail _ (uncancelled_of_isException rfl)
  · rw [invokeWithDeadline_eq]
    refine Shielded.step (Op.keepsDeadline_of_ne (fun h => Op.noConfusion h)
      fun h => Op.noConfusion h) (fun token => ?_) hfail
    rw [timeoutScope_eq]
    intro r hr hcancelled
    refine Or.inr ?_
    cases r with
    | error e => exact hfail e fun b hb => hcancelled b (by rw [Except.error.inj hb])
    | ok u =>
      -- inside the deadline
      show Shielded true (((execute rt agentId request key true token).handle leaveScope >>=
        afterScope rt token).handle produceTail)
      rw [bind_eq, handle_handle, handle_handle]
      refine Shielded.handle ((execute_inner agentId request key token).allow fun o ho => ?_)
        (fun e he => uncancelled_of_isException he) fun r hr => ?_
      · refine Op.keepsDeadline_of_ne ?_ ?_ <;> rintro rfl <;> exact Bool.noConfusion ho
      · have hscope : Shielded true
            ((leaveScope r >>= afterScope rt token).handle produceTail) := scope_shielded hr
        rwa [bind_eq, handle_handle] at hscope

-- ---------------------------------------------------------------------------
-- No consumer is stranded
-- ---------------------------------------------------------------------------

/-- While its consumer iterates, a producer has enqueued an end mark or will. -/
def Marking (m : P Answer) (s : Stream) (armed : Bool) : Prop :=
  s.iterating = true → (∃ item ∈ s.pushed, item.ends = true) ∨ Shielded armed m

theorem marking_kept : Producing.Kept Marking false where
  start rt agentId request key := fun _ => Or.inr (produce_shielded rt agentId request key)
  consumer m s s' armed h hpushed hit := by
    intro hs'
    rw [hpushed]
    exact h (hit hs')
  own o k s armed r h hr hcancelled := by
    intro hit
    have hpushes : ∀ item ∈ s.pushed, item ∈ (o.pushes s r).pushed := by
      intro item hitem
      cases o <;> cases r <;> first
        | exact hitem
        | exact List.mem_append_left _ hitem
    have hsame : (o.pushes s r).iterating = s.iterating := by
      cases o <;> cases r <;> rfl
    rw [hsame] at hit
    rcases h hit with ⟨item, hitem, hends⟩ | hshielded
    · exact Or.inl ⟨item, hpushes item hitem, hends⟩
    · have huncancelled : Uncancelled armed r := by
        intro b hb
        rcases hcancelled b hb with hdeadline | ⟨-, hdisturbed | hgone⟩
        · exact hdeadline
        · exact Bool.noConfusion hdisturbed
        · rw [hit] at hgone
          exact Bool.noConfusion hgone
      rcases hshielded r hr huncancelled with ⟨item, rfl, hends, a, rfl⟩ | hleft
      · exact Or.inl ⟨item, List.mem_append_right _ List.mem_cons_self, hends⟩
      · exact Or.inr hleft

/-- **No consumer is stranded**, in a run in which no producer is cancelled while its consumer
iterates. Every `CancelledError` but that of the deadline counts as such a cancellation, also one
that the invoker lets out itself. -/
theorem not_stranded {clock : Time} {c : Cfg}
    (h : machine.Reaches Undisturbed (Cfg.initial clock) c) (p : Pid) : ¬ Stranded c p := by
  intro hstranded
  obtain ⟨r, hr⟩ := hstranded.ended
  obtain ⟨m, hm, hmarking⟩ :=
    (marking_kept.holds (fun _ _ hmv _ => hmv) h).1 p hstranded.stream
  obtain rfl : m = .done r := Option.some.inj (hm.symm.trans hr)
  rcases hmarking hstranded.waiting with ⟨item, hitem, hends⟩ | hshielded
  · rw [hstranded.unmarked item hitem] at hends
    exact Bool.noConfusion hends
  · exact hshielded

/-- A move that cancels nobody from outside. -/
def isUncancelling : Move Choice Env → Bool
  | .run _ ch => ch.exception ≠ some (.cancelled false)
  | .env _ => true

theorem Reaches.of_uncancelling {clock : Time} {mvs : List (Move Choice Env)} {c : Cfg}
    (hmvs : mvs.all isUncancelling = true) (h : machine.run (Cfg.initial clock) mvs = some c) :
    machine.Reaches Undisturbed (Cfg.initial clock) c := by
  refine Machine.Reaches.of_run (fun c mv hmv => ?_) h
  rintro p ch rfl _ _
  exact of_decide_eq_true (List.all_eq_true.mp hmvs _ hmv)

end Producers

set_option maxRecDepth 8000 in
/-- The consumer of the sample stream. -/
theorem Sample.not_stranded_streamed : ¬ Stranded Sample.streamed 1 :=
  not_stranded (Reaches.of_uncancelling (by decide) (Option.some_get _).symm) 1

-- ---------------------------------------------------------------------------
-- A shutdown
-- ---------------------------------------------------------------------------

namespace Sample

/-- A stream whose runtime shuts down while its consumer waits for the next event. -/
def shutdown : List (Move Choice Env) :=
  .env (.start 1 (.stream streamingRuntime "agent" request (some "key"))) :: ok 1 1 ++
    .run 1 (.uuid 30) :: ok 1 2 ++ .run 1 (.uuid 100) :: ok 1 4 ++ .run 1 (.uuid 10) ::
  -- up to the second event of the source
    ok 1 20 ++ .run 1 (.source source) :: ok 1 2 ++ .env (.take 1) :: .env (.take 1) ::
    .env (.shutdown 0) :: .run 1 (.fail (.cancelled false)) ::
  -- the source is closed, and the clean-up settles the run
    ok 1 2 ++ .run 1 (.flag false) :: ok 1 1 ++ .run 1 (.pid 2) :: ok 2 9 ++ .run 2 (.flag false) ::
    ok 2 1 ++ ok 1 1

set_option maxRecDepth 8000 in
/-- Where `shutdown` ends. -/
def shut : Cfg := (machine.run (Cfg.initial 0) shutdown).get (by decide)

end Sample

set_option maxRecDepth 8000 in
/-- A shutdown strands a consumer: it has taken the two events there are, the producer has ended
without an end mark, and the run has failed. -/
theorem stranded_shutdown : Reachable true Sample.shut ∧ Stranded Sample.shut 1 ∧
    Sample.shut.world.db.runs.map RunRow.status = [.failed] := by
  refine ⟨.of_schedule (by decide) (Option.some_get _).symm, ?_, by decide⟩
  exact ⟨rfl, ⟨_, rfl⟩, by decide, by decide, rfl⟩

end AgentRuntimeKit
