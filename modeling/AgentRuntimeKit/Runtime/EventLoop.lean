import AgentRuntimeKit.Machine.Exec
import AgentRuntimeKit.Runtime.Deadline

/-!
# One runtime on the event loop

`_invoke`, `_record_failure`, `shutdown` and `lifespan` (`runtime.py`), with the two task sets of
one `AgentRuntime` object. A task runs alone between two points where it waits, so an operation here
is what the source does between two such points.

The turn itself is the program of `_invoke_with_deadline`. Its statements, deadlines, invokers and
queues answer anything here; the code of hooks, invokers and tools, which may invoke the runtime
again, runs before they answer. Whoever waits may be cancelled at any time, by its caller or by
`shutdown`, so the calls of `task.cancel()` leave no trace.

`HostCode` is what the host, its hooks and its tools may do with a runtime. It disposes of what the
runtime uses only once `shutdown` has returned `True`, or a block of `lifespan` has ended normally.
-/

namespace AgentRuntimeKit

open Lib Prog

/-- The operations of tasks on the event loop. -/
inductive LoopOp
  /-- `_invoke` up to `self._active_invocations.add(task)`. -/
  | register
  /-- `self._active_invocations.discard(task)`. -/
  | unregister
  /-- An operation of the turn, or of a clean-up. -/
  | inner (o : Op)
  /-- `_record_failure` up to `asyncio.shield`. -/
  | spawn (runId ownerToken : Uuid) (errorCode : String) (status : RunStatus)
  /-- Host code waits for something. -/
  | host
  /-- `shutdown` up to its loop. -/
  | close
  /-- `loop.time()`. -/
  | time
  /-- The tasks that are not done, in the condition of the loop of `shutdown`. -/
  | pending
  /-- `asyncio.wait`. -/
  | wait (tasks : Finset Pid) (deadline : Time)
  /-- Past the number of turns that a program is written out for. -/
  | unrolled
  /-- `lifespan` up to its body. -/
  | enterLifespan
  /-- `self._lifespan_active = False`. -/
  | leaveLifespan
  /-- The host closes the stores and what else the runtime uses. -/
  | dispose
  /-- The task is done. -/
  | finish

@[reducible] def LoopRes : LoopOp → Type
  | .register => Bool
  | .inner o => Res o
  | .spawn _ _ _ _ => Pid
  | .host => Nat
  | .time => Time
  | .pending => Finset Pid
  | _ => Unit

/-- A program on the event loop. -/
abbrev L (α : Type) := Prog LoopOp LoopRes Exn α

/-- Perform one operation. -/
def act (o : LoopOp) : L (LoopRes o) := Prog.perform o

/-! ## Invocations and clean-ups -/

/-- The operations during which code of the host runs. -/
def Op.runsHost : Op → Bool
  | .hook _ _ | .awaitInvoker _ | .openSource _ | .pull | .closeSource => true
  | _ => false

/-- An operation of a turn, and what follows. -/
def issue {α : Type} : (o : Op) → (Except Exn (Res o) → L α) → L α
  | .spawnCleanup runId ownerToken errorCode status _, k =>
    .op (.spawn runId ownerToken errorCode status) k
  | o, k => .op (.inner o) k

/-- A program of a turn on the event loop, with the code that its hooks and its invoker run. -/
def onLoop {α : Type} (host : Op → L Unit) : P α → L α
  | .done r => .done r
  | .op o k =>
    if o.runsHost then (host o).handle fun _ => issue o fun r => onLoop host (k r)
    else issue o fun r => onLoop host (k r)

/-- `_invoke`. -/
def invokeOn (host : Op → L Unit) (rt : Runtime) (agentId : String) (request : RuntimeRequest)
    (key : Option String) (emit : Bool) : L RuntimeResponse := do
  let ownsRegistration ← act .register
  (onLoop host (invokeWithDeadline rt agentId request key emit)).finallyDo
    (if ownsRegistration then act .unregister else pure ())

/-- A task, whose last step marks it as done. -/
def asTask {α : Type} (m : L α) : L Unit :=
  m.handle fun r => .op .finish fun _ => .done (r.map fun _ => ())

/-- The clean-up task. -/
def settleTask (runId ownerToken : Uuid) (errorCode : String) (status : RunStatus) : L Unit :=
  asTask (onLoop (fun _ => pure ()) (cleanupTask runId ownerToken errorCode status))

/-! ## `shutdown` and `lifespan` -/

/-- The loop of `shutdown`, written out for `turns` of it. -/
def drain (deadline : Time) : Nat → L Bool
  | 0 => do
    act .unrolled
    pure false
  | turns + 1 => do
    let pending ← act .pending
    if pending = ∅ then pure true
    else do
      let now ← act .time
      if deadline ≤ now then pure false
      else do
        act (.wait pending deadline)
        drain deadline turns

/-- `shutdown`. `timeout` is `none` where it is not finite or not positive. -/
def shutdown (turns : Nat) (timeout : Option Time) : L Bool :=
  match timeout with
  | none => throw (.py .valueError "timeout_seconds must be finite and positive")
  | some timeout => do
    act .close
    let now ← act .time
    drain (now + timeout) turns

def shutdownTimeout : Exn := .kit .runtimeShutdownTimeout "Runtime shutdown exceeded its budget"

/-- The end of `lifespan`. -/
def endLifespan (turns : Nat) (timeout : Option Time) : L Unit :=
  (do
    let done ← shutdown turns timeout
    if done then pure ()
    else throw shutdownTimeout).finallyDo (act .leaveLifespan)

/-- `async with runtime.lifespan()` around a body. -/
def lifespan (turns : Nat) (timeout : Option Time) (body : L Unit) : L Unit :=
  match timeout with
  | none => throw (.py .valueError "shutdown_timeout_seconds must be finite and positive")
  | some _ => do
    act .enterLifespan
    body.finallyDo (endLifespan turns timeout)

/-! ## The code of the host -/

/-- What the code of a host does with the runtime. `released` is that a `shutdown` of this code has
returned `True`. -/
inductive HostCode : {α : Type} → Bool → L α → Prop
  | done {α : Type} {released : Bool} (r : Except Exn α) : HostCode released (.done r)
  | await {α : Type} {released : Bool} {k : Except Exn Nat → L α}
      (hk : ∀ r, HostCode released (k r)) : HostCode released (.op .host k)
  | invoke {α : Type} {released : Bool} {host : Op → L Unit} {rt : Runtime} {agentId : String}
      {request : RuntimeRequest} {key : Option String} {emit : Bool}
      {f : Except Exn RuntimeResponse → L α} (hhost : ∀ o, HostCode false (host o))
      (hf : ∀ r, HostCode released (f r)) :
      HostCode released ((invokeOn host rt agentId request key emit).handle f)
  | shutdown {α : Type} {released : Bool} {turns : Nat} {timeout : Option Time}
      {f : Except Exn Bool → L α} (hdone : HostCode true (f (.ok true)))
      (hf : ∀ r, r ≠ .ok true → HostCode released (f r)) :
      HostCode released ((AgentRuntimeKit.shutdown turns timeout).handle f)
  | lifespan {α : Type} {released : Bool} {turns : Nat} {timeout : Option Time} {body : L Unit}
      {f : Except Exn Unit → L α} (hbody : HostCode released body)
      (hdone : HostCode true (f (.ok ()))) (hf : ∀ e, HostCode released (f (.error e))) :
      HostCode released ((AgentRuntimeKit.lifespan turns timeout body).handle f)
  | dispose {α : Type} {k : Except Exn Unit → L α} (hk : ∀ r, HostCode true (k r)) :
      HostCode true (.op .dispose k)

/-- A task that the host starts. -/
structure HostTask where
  code : L Unit
  valid : HostCode false code

/-- The producer of `stream`. Its queue belongs to the host here. -/
def producer (host : Op → L Unit) (rt : Runtime) (agentId : String) (request : RuntimeRequest)
    (key : Option String) : L Unit := do
  tryCatch
    (do
      let _ ← invokeOn host rt agentId request key true
      let _ ← act .host)
    fun exc => if exc.isException then do let _ ← act .host else throw exc
  let _ ← act .host

/-! ## The machine -/

/-- What a process is on the event loop. -/
inductive LoopKind
  | idle
  | host
  | cleanup
deriving DecidableEq, Repr

/-- How far a task has come with shutting down: it has closed the runtime to new work, and it has
found nothing pending. -/
inductive Door
  | untouched
  | closed
  | drained
deriving DecidableEq, Repr

structure Loop where
  clock : Time
  kind : Pid → LoopKind
  /-- `task.done()`. -/
  finished : Pid → Bool
  /-- `_closing`. -/
  closing : Bool
  /-- `_lifespan_active`. -/
  lifespan : Bool
  /-- `_active_invocations`. -/
  active : Finset Pid
  /-- `_cleanup_tasks`. -/
  cleanups : Finset Pid
  /-- Ghost. -/
  door : Pid → Door
  /-- Ghost: the host has closed what the runtime uses. -/
  disposed : Bool

/-- How operations turn out that the runtime does not decide. -/
abbrev LoopChoice := (o : LoopOp) → Except Exn (LoopRes o)

inductive LoopEnv
  | tick (d : Time)
  | start (p : Pid) (t : HostTask)
  /-- `add_done_callback(self._cleanup_tasks.discard)`. -/
  | callback (p : Pid)

def closingError (message : String) : Exn := .kit .runtimeClosing message

abbrev LoopForks := List (Pid × L Unit)

/-- An answer without a fork. -/
def reply {o : LoopOp} (r : Except Exn (LoopRes o)) (w : Loop) :
    Option (Except Exn (LoopRes o) × Loop × LoopForks) := some (r, w, [])

namespace Loop

/-- The tasks of both sets that are not done. -/
def unfinished (w : Loop) : Finset Pid :=
  (w.active ∪ w.cleanups).filter fun p => w.finished p = false

/-- One operation of `p`. -/
def exec (p : Pid) (w : Loop) :
    (o : LoopOp) → LoopChoice → Option (Except Exn (LoopRes o) × Loop × LoopForks)
  | .register, _ =>
    if w.closing then reply (.error (closingError "Runtime is shutting down")) w
    else reply (.ok (decide (p ∉ w.active))) { w with active := insert p w.active }
  | .unregister, _ => reply (.ok ()) { w with active := w.active.erase p }
  | .inner (.awaitCleanup cleanup), ch =>
    match ch (.inner (.awaitCleanup cleanup)) with
    | .ok record => if w.finished cleanup then reply (.ok record) w else none
    | .error e => reply (.error e) w
  | .inner o, ch => reply (ch (.inner o)) w
  | .spawn runId ownerToken errorCode status, ch =>
    match ch (.spawn runId ownerToken errorCode status) with
    | .ok q =>
      if w.kind q = .idle then
        some (.ok q, { w with
          kind := Function.update w.kind q .cleanup
          cleanups := insert q w.cleanups }, [(q, settleTask runId ownerToken errorCode status)])
      else none
    | .error _ => none
  | .host, ch => reply (ch .host) w
  | .close, _ =>
    if p ∈ w.active then
      reply (.error (.py .runtimeError "Cannot shut down from inside an active invocation")) w
    else reply (.ok ()) { w with
      closing := true
      door := Function.update w.door p (if w.door p = .drained then .drained else .closed) }
  | .time, _ => reply (.ok w.clock) w
  | .pending, _ => reply (.ok w.unfinished) { w with
      door := if w.unfinished = ∅ then Function.update w.door p .drained else w.door }
  | .wait tasks deadline, ch =>
    match ch (.wait tasks deadline) with
    | .ok _ =>
      if (∀ q ∈ tasks, w.finished q = true) ∨ deadline ≤ w.clock then reply (.ok ()) w else none
    | .error e => reply (.error e) w
  | .unrolled, _ => none
  | .enterLifespan, _ =>
    if w.lifespan then reply (.error (.py .runtimeError "Runtime lifespan is already active")) w
    else if w.closing then reply (.error (closingError "Runtime is closing")) w
    else reply (.ok ()) { w with lifespan := true }
  | .leaveLifespan, _ => reply (.ok ()) { w with lifespan := false }
  | .dispose, _ => reply (.ok ()) { w with disposed := true }
  | .finish, _ => reply (.ok ()) { w with finished := Function.update w.finished p true }

/-- One move of the environment. -/
def env (w : Loop) : LoopEnv → Option (Loop × LoopForks)
  | .tick d => some ({ w with clock := w.clock + d }, [])
  | .start p t =>
    if w.kind p = .idle then
      some ({ w with kind := Function.update w.kind p .host }, [(p, asTask t.code)])
    else none
  | .callback p =>
    if w.finished p then some ({ w with cleanups := w.cleanups.erase p }, []) else none

/-- A new runtime. -/
def initial (clock : Time) : Loop where
  clock := clock
  kind := fun _ => .idle
  finished := fun _ => false
  closing := false
  lifespan := false
  active := ∅
  cleanups := ∅
  door := fun _ => .untouched
  disposed := false

end Loop

def eventLoop : Machine Loop LoopOp LoopRes Exn Unit LoopChoice LoopEnv := ⟨Loop.exec, Loop.env⟩

abbrev LoopCfg := Config Loop LoopOp LoopRes Exn Unit

def LoopCfg.initial (clock : Time) : LoopCfg := ⟨.initial clock, fun _ => none⟩

end AgentRuntimeKit
