import AgentRuntimeKit.Protocol.Frame
import AgentRuntimeKit.Protocol.History

/-!
# Producers

The producer task of a stream, from its start to its end. What it has enqueued and whether
it is inside its deadline follow from its text alone, so an assertion about both and about
the program that is left holds in every reachable configuration once each operation keeps
it (`Producing.reaches`).

* `CompletedLast` — nothing but the sentinel follows a completed event.
* `Shielded`      — unless it is cancelled from outside, the producer ends only after it has
  enqueued an end mark.
-/

namespace AgentRuntimeKit

open Lib Prog

-- ---------------------------------------------------------------------------
-- Assertions about a producer
-- ---------------------------------------------------------------------------

/-- What an operation does to the stream of its process. -/
def Op.pushes (s : Stream) : (o : Op) → Except Exn (Res o) → Stream
  | .put item, .ok _ => { s with pushed := s.pushed ++ [item] }
  | _, _ => s

/-- What an operation does to the deadline of its process. -/
def Op.arms (armed : Bool) : (o : Op) → Except Exn (Res o) → Bool
  | .arm, .ok _ => true
  | .disarm, .ok _ => false
  | _, _ => armed

/-- The program that is left of a producer, its stream, and whether it is inside its deadline. -/
abbrev Producing := P Answer → Stream → Bool → Prop

def Kind.isStream : Kind → Bool
  | .task (.stream _ _ _ _) => true
  | _ => false

/-- Each producer of `c` satisfies `Φ`. -/
def Producing.Holds (Φ : Producing) (c : Cfg) : Prop :=
  ∀ p, (c.world.kind p).isStream = true →
    ∃ m, c.procs p = some m ∧ Φ m (c.world.stream p) (c.world.armed p)

/-- An assertion that holds of a new producer and is kept by its operations and its consumer.
An external cancellation may be ruled out while the consumer iterates. -/
structure Producing.Kept (Φ : Producing) (disturbed : Bool) : Prop where
  start : ∀ rt agentId request key, Φ (produce rt agentId request key) .empty false
  own : ∀ o k s armed r, Φ (.op o k) s armed → o.answers r →
    (∀ b, r = .error (.cancelled b) → b = true ∧ armed = true ∨
      b = false ∧ (disturbed = true ∨ s.iterating = false)) →
    Φ (k r) (o.pushes s r) (o.arms armed r)
  consumer : ∀ m s s' armed, Φ m s armed → s'.pushed = s.pushed →
    (s'.iterating = true → s.iterating = true) → Φ m s' armed

/-- No producer whose consumer iterates is cancelled from outside. Outside is whatever is not its
deadline: a `CancelledError` that the awaited invoker raises itself counts too, for instance the one
of a helper task that it awaits. -/
def Undisturbed (c : Cfg) (mv : Move Choice Env) : Prop :=
  ∀ p ch, mv = .run p ch → (c.world.kind p).isStream = true →
    (c.world.stream p).iterating = true → ch.exception ≠ some (.cancelled false)

section Producing

variable {Φ : Producing} {p : Pid}

/-- An assertion survives a move of somebody else. -/
theorem Producing.Holds.other {c c' : Cfg} (h : Φ.Holds c) {q : Pid}
    (hq : (c'.world.kind q).isStream = true) (hkind : c'.world.kind q = c.world.kind q)
    (hstream : c'.world.stream q = c.world.stream q) (harmed : c'.world.armed q = c.world.armed q)
    (hprocs : ∀ m, c.procs q = some m → c'.procs q = some m) :
    ∃ m, c'.procs q = some m ∧ Φ m (c'.world.stream q) (c'.world.armed q) := by
  rw [hkind] at hq
  obtain ⟨m, hm, hΦ⟩ := h q hq
  rw [hstream, harmed]
  exact ⟨m, hprocs m hm, hΦ⟩

theorem exec_streams {w w' : World} {o : Op} {ch : Choice} {r : Except Exn (Res o)} {fs : Forks}
    (h : exec p w o ch = some (r, w', fs)) :
    (∀ q, q ≠ p → w'.stream q = w.stream q ∧ w'.armed q = w.armed q) ∧
      w'.stream p = o.pushes (w.stream p) r ∧ w'.armed p = o.arms (w.armed p) r := by
  have hframe := exec_frame h
  refine ⟨fun q hq => ⟨?_, ?_⟩, ?_, ?_⟩
  · rw [hframe.stream]
    cases o <;> cases r <;> first
      | rfl
      | exact Function.update_of_ne hq _ _
  · rw [hframe.armed]
    cases o <;> cases r <;> first
      | rfl
      | exact Function.update_of_ne hq _ _
  · rw [hframe.stream]
    cases o <;> cases r <;> first
      | rfl
      | exact Function.update_self _ _ _
  · rw [hframe.armed]
    cases o <;> cases r <;> first
      | rfl
      | exact Function.update_self _ _ _

/-- No operation starts a producer. -/
theorem Frame.isStream {w w' : World} {o : Op} {r : Except Exn (Res o)} (h : Frame p o r w w')
    {q : Pid} (hq : (w'.kind q).isStream = true) : w'.kind q = w.kind q := by
  rcases h.kind q with hsame | ⟨-, htask⟩
  · exact hsame
  · cases hk : w'.kind q with
    | task t =>
      rw [hk] at htask
      exact Bool.noConfusion htask
    | _ =>
      rw [hk] at hq
      exact Bool.noConfusion hq

/-- One operation keeps the assertion of every producer. -/
theorem Producing.Kept.run {disturbed : Bool} (hkept : Φ.Kept disturbed) {c c' : Cfg} {o : Op}
    {k : Except Exn (Res o) → P Answer} {ch : Choice} {r : Except Exn (Res o)} {fs : Forks}
    (hp : c.procs p = some (.op o k)) (hx : exec p c.world o ch = some (r, c'.world, fs))
    (hst : startAll (Function.update c.procs p (some (k r))) fs = some c'.procs)
    (hmv : disturbed = false → Undisturbed c (.run p ch)) (h : Φ.Holds c) : Φ.Holds c' := by
  intro q hq
  have hframe := exec_frame hx
  have hkind := hframe.isStream hq
  obtain ⟨hothers, hstream, harmed⟩ := exec_streams hx
  by_cases hqp : q = p
  · subst hqp
    rw [hkind] at hq
    obtain ⟨m, hm, hΦ⟩ := h q hq
    obtain rfl : m = .op o k := Option.some.inj (hm.symm.trans hp)
    refine ⟨k r, startAll_mono hst (Function.update_self _ _ _), ?_⟩
    rw [hstream, harmed]
    refine hkept.own o k _ _ r hΦ (exec_answers hx) fun b hb => ?_
    rw [hb] at hx
    obtain ⟨hmay, hchoice⟩ := exec_cancelled hx
    cases b with
    | true =>
      simp only [Op.mayRaise, Bool.and_eq_true, if_true] at hmay
      exact Or.inl ⟨rfl, hmay.2⟩
    | false =>
      refine Or.inr ⟨rfl, ?_⟩
      cases hd : disturbed with
      | true => exact Or.inl rfl
      | false =>
        cases hit : (c.world.stream q).iterating with
        | false => exact Or.inr rfl
        | true => exact absurd hchoice (hmv hd q ch rfl hq hit)
  · refine h.other hq hkind (hothers q hqp).1 (hothers q hqp).2 fun m hm => ?_
    refine startAll_mono hst ?_
    rw [Function.update_of_ne hqp]
    exact hm

/-- So does a move of the environment. -/
theorem Producing.Kept.environment {disturbed : Bool} (hkept : Φ.Kept disturbed) {c c' : Cfg}
    {e : Env} {fs : Forks} (hc : Reachable false c) (hx : env c.world e = some (c'.world, fs))
    (hst : startAll c.procs fs = some c'.procs) (h : Φ.Holds c) : Φ.Holds c' := by
  intro q hq
  have hprocs : ∀ m, c.procs q = some m → c'.procs q = some m := fun m hm => startAll_mono hst hm
  cases e with
  | start p t =>
    simp only [env] at hx
    split at hx
    · next hidle =>
      obtain ⟨hw, rfl⟩ : _ ∧ _ := by simpa only [Option.some.injEq, Prod.mk.injEq] using hx
      have hkinds : c'.world.kind q = Function.update c.world.kind p (.task t) q := by rw [← hw]
      by_cases hqp : q = p
      · subst hqp
        rw [Function.update_self] at hkinds
        have hidle' : c.world.kind q = .idle := by
          cases hk : c.world.kind q with
          | idle => rfl
          | _ =>
            rw [hk] at hidle
            exact Bool.noConfusion hidle
        have hfresh := (hc.inv.proc q).idle hidle'
        rw [hkinds] at hq
        cases t with
        | stream rt agentId request key =>
          refine ⟨produce rt agentId request key, ?_, ?_⟩
          · rw [startAll] at hst
            split at hst
            · rw [startAll, Option.some.injEq] at hst
              rw [← hst, Function.update_self]
              rfl
            · exact absurd hst (by simp)
          · rw [← hw]
            show Φ _ (c.world.stream q) (c.world.armed q)
            rw [hfresh.stream, hfresh.armed]
            exact hkept.start rt agentId request key
        | _ => exact Bool.noConfusion hq
      · rw [Function.update_of_ne hqp] at hkinds
        exact h.other hq hkinds (by rw [← hw]) (by rw [← hw]) hprocs
    · exact absurd hx (by simp)
  | take p =>
    simp only [env] at hx
    split at hx
    · next item hit hitem =>
      obtain ⟨hw, -⟩ : _ ∧ _ := by simpa only [Option.some.injEq, Prod.mk.injEq] using hx
      by_cases hqp : q = p
      · subst hqp
        rw [← hw] at hq
        obtain ⟨m, hm, hΦ⟩ := h q hq
        refine ⟨m, hprocs m hm, ?_⟩
        rw [← hw]
        refine hkept.consumer m _ _ _ hΦ ?_ fun _ => ?_
        · show (Function.update c.world.stream q _ q).pushed = _
          rw [Function.update_self]
        · rw [Bool.and_eq_true] at hit
          exact hit.2
      · exact h.other hq (by rw [← hw]; rfl) (by rw [← hw]; exact Function.update_of_ne hqp _ _)
          (by rw [← hw]; rfl) hprocs
    · exact absurd hx (by simp)
  | close p =>
    simp only [env] at hx
    split at hx
    · obtain ⟨hw, -⟩ : _ ∧ _ := by simpa only [Option.some.injEq, Prod.mk.injEq] using hx
      by_cases hqp : q = p
      · subst hqp
        rw [← hw] at hq
        obtain ⟨m, hm, hΦ⟩ := h q hq
        refine ⟨m, hprocs m hm, ?_⟩
        rw [← hw]
        refine hkept.consumer m _ _ _ hΦ ?_ fun hit => ?_
        · show (Function.update c.world.stream q _ q).pushed = _
          rw [Function.update_self]
        · replace hit : (Function.update c.world.stream q _ q).iterating = true := hit
          rw [Function.update_self] at hit
          exact Bool.noConfusion hit
      · exact h.other hq (by rw [← hw]; rfl) (by rw [← hw]; exact Function.update_of_ne hqp _ _)
          (by rw [← hw]; rfl) hprocs
    · exact absurd hx (by simp)
  | _ =>
    obtain ⟨hw, -⟩ : _ ∧ _ := by simpa only [env, Option.some.injEq, Prod.mk.injEq] using hx
    exact h.other hq (by rw [← hw]) (by rw [← hw]) (by rw [← hw]) hprocs

/-- An assertion that is kept holds in every configuration that such moves reach. -/
theorem Producing.Kept.holds {disturbed : Bool} (hkept : Φ.Kept disturbed)
    {ok : Cfg → Move Choice Env → Prop}
    (hok : ∀ c mv, ok c mv → disturbed = false → Undisturbed c mv) {clock : Time} {c : Cfg}
    (h : machine.Reaches ok (Cfg.initial clock) c) : Φ.Holds c ∧ Reachable false c := by
  induction h with
  | refl => exact ⟨fun p hp => Bool.noConfusion hp, clock, .refl⟩
  | step _ hmv hs ih =>
    obtain ⟨hΦ, hc⟩ := ih
    refine ⟨?_, hc.step (legal_false _ _) hs⟩
    rcases Machine.step_cases hs with ⟨p, ch, o, k, r, fs, rfl, hp, hx, hst⟩ | ⟨e, fs, rfl, hx, hst⟩
    · exact hkept.run hp hx hst (hok _ _ hmv) hΦ
    · exact hkept.environment hc hx hst hΦ

end Producing

-- ---------------------------------------------------------------------------
-- The text of a producer
-- ---------------------------------------------------------------------------

/-- The end of `produce`: `await queue.put(sentinel)`. -/
def sentinelLast : P Answer := do
  perform (.put .sentinel)
  pure .nothing

/-- What `produce` does with the outcome of its invocation. -/
def produceTail (r : Except Exn RuntimeResponse) : P Answer :=
  ((onOk (fun response => perform (.put (.event (.completed response)))) r).handle
    (onError fun exc =>
      if exc.isException then perform (.put (.failure exc)) else throw exc)).handle
    (onOk fun _ => sentinelLast)

theorem produce_eq (rt : Runtime) (agentId : String) (request : RuntimeRequest)
    (key : Option String) :
    produce rt agentId request key =
      (invokeTracked rt agentId request key true).handle produceTail := by
  unfold produce
  rw [bind_eq, tryCatch_eq, bind_eq, handle_handle, handle_handle]
  congr 1
  funext r
  unfold produceTail
  rw [handle_handle]
  rfl

/-- How `asyncio.timeout` is left. -/
def leaveScope {α : Type} (r : Except Exn α) : P (Except Exn α × Bool) := do
  perform .disarm
  match r with
  | .error (.cancelled true) => pure (.error .timeout, true)
  | r => do
    let expired ← perform .expired
    pure (r, expired)

theorem timeoutScope_eq {α : Type} (body : P α) :
    timeoutScope body = perform .arm >>= fun _ => body.handle leaveScope := by
  unfold timeoutScope
  congr 1
  funext u
  rw [attempt_bind]
  rfl

section Text

variable {rt : Runtime} {agentId : String} {request : RuntimeRequest} {key : Option String}
  {emit : Bool}

/-- An invocation performs what `_execute` does, and enqueues nothing besides. -/
theorem invokeTracked_tame {allowed : Op → Prop} (hinner : ∀ o, o.isInner = true → allowed o)
    (hrest : ∀ o, (∀ item, o ≠ .put item) → allowed o) :
    Tame allowed Op.answers (fun _ => True) (fun _ => True)
      (invokeTracked rt agentId request key emit) := by
  have hthrow : ∀ {α : Type} (e : Exn),
      Tame allowed Op.answers (fun _ => True) (fun _ => True) (throw e : P α) := fun _ => trivial
  have hexecute : ∀ token, Tame allowed Op.answers (fun _ => True) (fun _ => True)
      (execute rt agentId request key emit token) := fun token =>
    ((execute_inner agentId request key token).allow hinner).mono fun _ _ => trivial
  have hscope : ∀ token, Tame allowed Op.answers (fun _ => True) (fun _ => True)
      (timeoutScope (execute rt agentId request key emit token)) := by
    intro token
    rw [timeoutScope_eq]
    refine Tame.performBind (hrest _ fun _ h => Op.noConfusion h) fun _ _ => ?_
    have hafter : ∀ r : Except Exn RuntimeResponse,
        Tame allowed Op.answers (fun _ => True) (fun _ => True) (leaveScope r) := by
      intro r
      unfold leaveScope
      refine Tame.performBind (hrest _ fun _ h => Op.noConfusion h) fun _ _ => ?_
      split
      · trivial
      · exact Tame.performBind (hrest _ fun _ h => Op.noConfusion h) fun _ _ => trivial
    exact (hexecute token).handle (fun a _ hseen _ => (hafter (.ok a)).mono hseen)
      fun e _ hseen _ => (hafter (.error e)).mono hseen
  have hrecord : ∀ runId token code status timeout,
      Tame allowed Op.answers (fun _ => True) (fun _ => True)
        (recordFailure runId token code status timeout) := by
    intro runId token code status timeout
    unfold recordFailure
    refine Tame.performBind (hrest _ fun _ h => Op.noConfusion h) fun s _ => ?_
    exact Tame.perform (hrest _ fun _ h => Op.noConfusion h)
  unfold invokeTracked
  refine Tame.performBind (hrest _ fun _ h => Op.noConfusion h) fun closing _ => ?_
  split
  · exact hthrow _
  · unfold invokeWithDeadline
    refine Tame.performBind (hrest _ fun _ h => Op.noConfusion h) fun token _ => ?_
    refine (hscope token).bind fun r _ => ?_
    split
    · trivial
    · next exc hexc =>
      unfold reconcile
      refine Tame.performBind (hrest _ fun _ h => Op.noConfusion h) fun runId _ => ?_
      split
      · exact hthrow _
      · exact (hrecord _ _ _ _ _).bind fun _ _ => hthrow _
      · exact hthrow _
      · refine (hrecord _ _ _ _ _).bind fun record _ => ?_
        split
        · trivial
        · exact hthrow _

end Text

-- ---------------------------------------------------------------------------
-- The completed event
-- ---------------------------------------------------------------------------

/-- Only the sentinel follows a completed event. -/
def CompletedLast : P Answer → Prop
  | .done _ => True
  | .op o k => (∀ response, o = .put (.event (.completed response)) →
      ∀ a, k (.ok a) = sentinelLast) ∧ ∀ r, o.answers r → CompletedLast (k r)

theorem CompletedLast.handle {α : Type} {m : P α} {f : Except Exn α → P Answer} {Q : α → Prop}
    {seen : Exn → Prop}
    (hm : Tame (fun o => ∀ response, o ≠ .put (.event (.completed response))) Op.answers Q seen m)
    (hf : ∀ r, CompletedLast (f r)) : CompletedLast (m.handle f) := by
  induction m generalizing seen with
  | done r => exact hf r
  | op o k ih => exact ⟨fun response ho => absurd ho (hm.1 response), fun r hr => ih r (hm.2 r hr)⟩

/-- No end mark follows another. -/
theorem sentinelLast_eq : ∃ k, sentinelLast = .op (.put .sentinel) k ∧
    ∀ r, ∃ r', k r = .done r' := by
  refine ⟨_, rfl, fun r => ?_⟩
  cases r with
  | ok a => exact ⟨_, rfl⟩
  | error e => exact ⟨_, rfl⟩

theorem sentinelLast_completedLast : CompletedLast sentinelLast := by
  obtain ⟨k, hk, hdone⟩ := sentinelLast_eq
  rw [hk]
  refine ⟨fun response h => absurd h (by simp), fun r _ => ?_⟩
  obtain ⟨r', hr'⟩ := hdone r
  rw [hr']
  trivial

theorem produceTail_completedLast (r : Except Exn RuntimeResponse) :
    CompletedLast (produceTail r) := by
  -- a failure, and then the sentinel
  have herror : ∀ exc : Exn, CompletedLast
      ((onError (fun exc => if exc.isException then perform (.put (.failure exc)) else throw exc)
        (.error exc)).handle (onOk fun _ => sentinelLast)) := by
    intro exc
    unfold onError
    dsimp only
    split
    · refine ⟨fun response h => absurd h (by simp), fun r _ => ?_⟩
      cases r with
      | ok a => exact sentinelLast_completedLast
      | error e => trivial
    · trivial
  cases r with
  | error exc => exact herror exc
  | ok response =>
    refine ⟨fun _ _ _ => rfl, fun r _ => ?_⟩
    cases r with
    | ok a => exact sentinelLast_completedLast
    | error exc => exact herror exc

theorem produce_completedLast (rt : Runtime) (agentId : String) (request : RuntimeRequest)
    (key : Option String) : CompletedLast (produce rt agentId request key) := by
  rw [produce_eq]
  refine CompletedLast.handle (invokeTracked_tame (fun o ho response heq => ?_)
    fun o ho response => ho _) produceTail_completedLast
  rw [heq] at ho
  exact Bool.noConfusion ho

/-- No completed event has been enqueued, or only the sentinel is left. -/
def Completing (m : P Answer) (s : Stream) (_ : Bool) : Prop :=
  ((∀ response, .event (.completed response) ∉ s.pushed) ∧ CompletedLast m) ∨
    m = sentinelLast ∨ ∃ r, m = .done r

theorem completing_kept : Producing.Kept Completing true where
  start rt agentId request key :=
    Or.inl ⟨fun _ h => absurd h List.not_mem_nil, produce_completedLast rt agentId request key⟩
  consumer m s s' armed h hpushed _ := by
    rcases h with ⟨hnone, hlast⟩ | h
    · refine Or.inl ⟨fun response hmem => hnone response ?_, hlast⟩
      rwa [← hpushed]
    · exact Or.inr h
  own o k s armed r h hr _ := by
    rcases h with ⟨hnone, hlast⟩ | hm | ⟨r', hm⟩
    · by_cases hput : ∃ response, o = .put (.event (.completed response))
      · obtain ⟨response, rfl⟩ := hput
        cases r with
        | ok a => exact Or.inr (Or.inl (hlast.1 response rfl a))
        | error e => exact Or.inl ⟨hnone, hlast.2 _ hr⟩
      · refine Or.inl ⟨fun response hmem => ?_, hlast.2 r hr⟩
        cases o with
        | put item =>
          cases r with
          | error e => exact hnone response hmem
          | ok a =>
            rcases List.mem_append.mp hmem with hmem | hmem
            · exact hnone response hmem
            · exact hput ⟨response, by rw [List.mem_singleton.mp hmem]⟩
        | _ => exact hnone response hmem
    · obtain ⟨k', hk', hdone⟩ := sentinelLast_eq
      rw [hk'] at hm
      cases hm
      exact Or.inr (Or.inr (hdone r))
    · exact absurd hm (by simp)

end AgentRuntimeKit
