import AgentRuntimeKit.Protocol.LoopRuns
import AgentRuntimeKit.Results.Runs

/-!
# Shutdown

Once `shutdown` has returned `True`, or the host has closed what its runtime uses, the runtime is
quiescent, and it stays so whatever the tasks on the loop still do: no invocation and no clean-up is
left, nobody is about to use a store, and a new invocation is turned away before its first operation
(`Quiescent`).

The host may have invoked the runtime inside of hooks and tools, cancelled callers during their
clean-ups, started more tasks, and shut down from several of them. One thing is asked of it: it
waits for a `shutdown` that returns `True`, or for the end of a `lifespan`, before it disposes of a
store. That `shutdown` returns at all is not part of the result; a hook may wait for ever.

`LoopInv` is the invariant of the event loop: the set of active tasks has all tasks inside an
invocation, and a task is in one place of its life at a time, which `lifetime` follows along its
program. A shutdown that has seen the set empty under `closing` is `drained`; from then on the set
stays empty, as `register` is the only way in and `closing` is never taken back.

## Results

* `Settled.silent`     — where nobody is inside, no operation of a turn or a clean-up is next.
* `step_rejected`      — an invocation is turned away.
* `Released.quiescent` — in every run, from then on.
-/

namespace AgentRuntimeKit

open Lib Prog Typestate

/-- No invocation and no clean-up is left, nobody is about to use a store, and an invocation is
turned away. -/
structure Quiescent (c : LoopCfg) : Prop where
  settled : Settled c.world
  silent : ∀ p o k, c.procs p ≠ some (.op (.inner o) k)
  rejects : ∀ p host rt agentId request key emit ch f,
    c.procs p = some ((invokeOn host rt agentId request key emit).handle f) →
      eventLoop.step c (.run p ch) = some ⟨c.world,
        Function.update c.procs p (some (f (.error (closingError "Runtime is shutting down"))))⟩

section Quiescence

variable {clock : Time} {c c' : LoopCfg}

/-- Where nobody is inside, nobody performs an operation of a turn or of a clean-up. -/
theorem Settled.silent {w : Loop} {p : Pid} {o : Op} {k : Except Exn (Res o) → L Unit}
    (h : Settled w) (hm : lifetime.Follows IsOver (w.place p) (.op (.inner o) k)) : False := by
  have hallowed : w.standing p = .inside ∨ w.standing p = .settling := hm.1
  rcases hallowed with hinside | hsettling
  · have hactive := (Loop.standing_inside hinside).2.2
    rw [h.active] at hactive
    exact absurd hactive (Finset.notMem_empty p)
  · obtain ⟨hopen, hkind⟩ := Loop.standing_settling hsettling
    exact Bool.false_ne_true (hopen.symm.trans (h.cleanups p hkind))

/-- A runtime that is closing turns an invocation away before its first operation. -/
theorem step_rejected (hclosing : c.world.closing = true) {p : Pid} {host : Op → L Unit}
    {rt : Runtime} {agentId : String} {request : RuntimeRequest} {key : Option String} {emit : Bool}
    {f : Except Exn RuntimeResponse → L Unit} (ch : LoopChoice)
    (hp : c.procs p = some ((invokeOn host rt agentId request key emit).handle f)) :
    eventLoop.step c (.run p ch) = some ⟨c.world,
      Function.update c.procs p (some (f (.error (closingError "Runtime is shutting down"))))⟩ := by
  obtain ⟨k, hk, hkf⟩ :
    ∃ k, (invokeOn host rt agentId request key emit).handle f = .op .register k ∧
      k (.error (closingError "Runtime is shutting down")) =
        f (.error (closingError "Runtime is shutting down")) := ⟨_, rfl, rfl⟩
  have hx : eventLoop.exec p c.world .register ch =
      some (.error (closingError "Runtime is shutting down"), c.world, []) := if_pos hclosing
  rw [hk] at hp
  rw [← hkf]
  simp only [Machine.step, hp, hx, startAll, Option.map_some]

/-- **Once released, quiescent**: after a shutdown that has returned `True`, or after the host has
closed what the runtime uses, in every later configuration. `LoopInv` is kept by every step, and
nobody takes the release back. -/
theorem Released.quiescent (hr : (LoopCfg.initial clock).Reaches c) (h : Released c.world)
    (hlater : c.Reaches c') : Quiescent c' := by
  obtain ⟨hi, hplace⟩ := LoopCfg.Reaches.sound (hr.trans hlater)
  have hsettled := (hlater.released h).settled hi
  exact ⟨hsettled, fun p o k hp => hsettled.silent (hplace p _ hp),
    fun p _ _ _ _ _ _ ch f hp => step_rejected hsettled.closing ch hp⟩

end Quiescence

-- ---------------------------------------------------------------------------
-- A sample run
-- ---------------------------------------------------------------------------

namespace Sample

/-- A host without hooks. -/
def unhooked (_ : Op) : L Unit := pure ()

theorem unhooked_valid (o : Op) : HostCode false (unhooked o) := .done _

theorem caller_valid : HostCode false
    ((invokeOn unhooked runtime "agent" request none false).handle fun _ => .done (.ok ())) :=
  .invoke unhooked_valid fun _ => .done _

/-- A task that invokes the runtime. -/
def caller : HostTask := ⟨_, caller_valid⟩

theorem closer_valid : HostCode false ((AgentRuntimeKit.shutdown 3 (some 1000)).handle fun r =>
    if r = .ok true then .op .dispose fun _ => .done (.ok ()) else .done (.ok ())) := by
  refine .shutdown ?_ fun r hr => ?_
  · rw [if_pos rfl]
    exact .dispose fun _ => .done _
  · rw [if_neg hr]
    exact .done _

/-- A task that shuts the runtime down, and closes its stores. -/
def closer : HostTask := ⟨_, closer_valid⟩

/-- A task that streams. -/
def streamer : HostTask :=
  ⟨producer unhooked runtime "agent" request none, HostCode.producer unhooked_valid _ _ _ _⟩

/-- Every wait is cancelled, but for those of `_record_failure` up to its clean-up, and of
`shutdown`. -/
def cancelling : LoopChoice
  | .inner .uuid4 => .ok 30
  | .inner .arm => .ok ()
  | .inner .disarm => .ok ()
  | .inner .expired => .ok false
  | .inner .getRunId => .ok (some 10)
  | .inner (.finish _) => .ok ()
  | .spawn _ _ _ _ => .ok 7
  | .wait _ _ => .ok ()
  | .host => .ok 0
  | _ => .error (.cancelled false)

/-- A task shuts the runtime down while a caller is cancelled. It waits for the caller, who is
cancelled once more, then for the clean-up that the caller has left behind, and closes the
stores. -/
def closing : List (Move LoopChoice LoopEnv) :=
  .env (.start 1 caller) :: List.replicate 8 (.run 1 cancelling) ++
    .env (.start 2 closer) :: List.replicate 4 (.run 2 cancelling) ++
    List.replicate 4 (.run 1 cancelling) ++ List.replicate 3 (.run 2 cancelling) ++
    List.replicate 5 (.run 7 cancelling) ++
    .env (.callback 7) :: List.replicate 3 (.run 2 cancelling)

/-- Where `closing` ends. -/
def drained : LoopCfg := (eventLoop.run (LoopCfg.initial 0) closing).get (by decide)

/-- Somebody streams all the same. -/
def late : List (Move LoopChoice LoopEnv) :=
  .env (.start 3 streamer) :: List.replicate 2 (.run 3 cancelling)

/-- Where `late` ends. -/
def quiet : LoopCfg := (eventLoop.run drained late).get (by decide)

theorem drained_reached : (LoopCfg.initial 0).Reaches drained :=
  Machine.Reaches.of_run (fun _ _ _ => trivial) (Option.some_get _).symm

theorem quiet_reached : drained.Reaches quiet :=
  Machine.Reaches.of_run (fun _ _ _ => trivial) (Option.some_get _).symm

end Sample

/-- The clean-up of the caller is done, and the stream has been turned away. -/
theorem Sample.quiescent_quiet : Sample.drained.world.disposed = true ∧
    Sample.drained.world.kind 7 = .cleanup ∧ Quiescent Sample.quiet :=
  ⟨by decide, by decide,
    Released.quiescent Sample.drained_reached (Or.inl (by decide)) Sample.quiet_reached⟩

end AgentRuntimeKit
