import AgentRuntimeKit.Adapters.Native
import AgentRuntimeKit.Lib.GenLoop

/-!
# What the native loop records

The loop asks the model, records its result as an assistant message, executes the calls of that
message and records the results. This module says that what is dispatched is what is recorded, as
far as a run gets, and how far that is.

`Run` tells the runs of the native loop, for either way of asking the model (`ModelCall`): which
results pass `checked_result`, which tools are executed, and what is made of them. It has one
constructor for each way in which an iteration goes on or ends:

* `rejected` — the model call fails, or its result does not pass;
* `finished` — a result without calls, which becomes the output;
* `exceeded` — a result with calls, when no iteration is left: none of them is executed;
* `raised` — a tool raises, and the calls after it are not executed;
* `round`    — all calls succeed, and the loop goes on.

Nothing is assumed of the client and the registry. A result lists its calls twice, in its message
and beside it; the loop records the first list and executes the second. They are compared as
`validate_tool_calls` compares them (`ToolCall.matches`).

`Dispatch` has the ends of a run as constructors again, each with what that end says about the
executed calls: all of them, all but those of the last result, or all up to and including the one
that raised. `run_of_loopWith` reads the loop once; everything else is an induction on `Run`.

## Results

* `run_of_invoke`, `run_of_stream` — the two loops have no other runs.
* `Run.dispatch`  — the executed calls are those of the recorded messages, as far as the run gets.
* `Run.recorded`  — the output of a successful run lists the same executions.
* `Run.bounded`   — at most one model call more than iterations.
* `dispatch_is_history` — all of these, for `invoke` and for `stream`.
-/

namespace AgentRuntimeKit

open Lib

-- ---------------------------------------------------------------------------
-- Runs
-- ---------------------------------------------------------------------------

section Runs

variable {σ : Type} (tools : ToolRegistry σ) (context : RuntimeContext)

/-- Calls that all succeed, with their results and the states of the registry around them. -/
inductive Executes : σ → List ToolCall → List ToolResult → σ → Prop
  | nil (registry : σ) : Executes registry [] [] registry
  | cons {registry next last : σ} {call : ToolCall} {result : ToolResult} {calls : List ToolCall}
      {results : List ToolResult} :
    tools.invoke registry call context = (.ok result, next) →
      Executes next calls results last → Executes registry (call :: calls) (result :: results) last

/-- The tool messages of some calls; the `k`-th of a run gets `ids k`. -/
def toolMessages (ids : Nat → Uuid) : Nat → List ToolCall → List ToolResult → List Message
  | k, call :: calls, result :: results =>
    toolMessage (ids k) call result :: toolMessages ids (k + 1) calls results
  | _, _, _ => []

/-- The variables of the loop after the tools of one result. -/
def LoopState.addResults (ids : Nat → Uuid) (s : LoopState σ) (calls : List ToolCall)
    (results : List ToolResult) (registry : σ) : LoopState σ :=
  { s with
    working := s.working ++ toolMessages ids s.toolResults.length calls results
    generated := s.generated ++ toolMessages ids s.toolResults.length calls results
    toolResults := s.toolResults ++ results
    registry := registry }

end Runs

/-- How the loop asks the model. -/
abbrev ModelCall := ModelInput → Gen Exn LoopItem ModelResult

/-- A run of the loop with `n` iterations left after this one: its calls, and how it ends. -/
inductive Run {σ : Type} (inv : NativeAgentInvoker σ) (context : RuntimeContext)
    (model : ModelCall) :
    Nat → LoopState σ → List LoopItem → Except Exn InvocationOutput → Prop
  /-- The model call fails, or its result does not pass. -/
  | rejected {n : Nat} {s : LoopState σ} {e : Exn} :
    (model (inv.modelInput context s)).ending = .error e →
      Run inv context model n s [.modelCall (inv.modelInput context s)] (.error e)
  | finished {n : Nat} {s : LoopState σ} {r : ModelResult} :
    (model (inv.modelInput context s)).ending = .ok r → r.toolCalls = [] →
      Run inv context model n s [.modelCall (inv.modelInput context s)]
        (.ok (s.addResult r).output)
  | exceeded {s : LoopState σ} {r : ModelResult} :
    (model (inv.modelInput context s)).ending = .ok r → r.toolCalls ≠ [] →
      Run inv context model 0 s [.modelCall (inv.modelInput context s)]
        (.error (maxIterationsExceeded inv.maxToolIterations))
  /-- A tool raises. -/
  | raised {n : Nat} {s : LoopState σ} {r : ModelResult} {before after : List ToolCall}
      {call : ToolCall} {results : List ToolResult} {registry : σ} {e : Exn} :
    (model (inv.modelInput context s)).ending = .ok r →
      r.toolCalls = before ++ call :: after →
        Executes inv.tools context s.registry before results registry →
          (inv.tools.invoke registry call context).1 = .error e →
            Run inv context model (n + 1) s (.modelCall (inv.modelInput context s) ::
              (before ++ [call]).map .toolCall) (.error e)
  | round {n : Nat} {s : LoopState σ} {r : ModelResult} {results : List ToolResult} {registry : σ}
      {items : List LoopItem} {outcome : Except Exn InvocationOutput} :
    (model (inv.modelInput context s)).ending = .ok r → r.toolCalls ≠ [] →
      Executes inv.tools context s.registry r.toolCalls results registry →
        Run inv context model n ((s.addResult r).addResults inv.ids r.toolCalls results registry)
          items outcome →
          Run inv context model (n + 1) s (.modelCall (inv.modelInput context s) ::
            r.toolCalls.map .toolCall ++ items) outcome

-- ---------------------------------------------------------------------------
-- The loops run so
-- ---------------------------------------------------------------------------

namespace NativeAgentInvoker

variable {σ : Type} (inv : NativeAgentInvoker σ) (context : RuntimeContext)

theorem addResults_nil (ids : Nat → Uuid) (s : LoopState σ) :
    s.addResults ids [] [] s.registry = s := by
  have hnone : toolMessages ids s.toolResults.length [] [] = [] := rfl
  rw [LoopState.addResults, hnone, List.append_nil, List.append_nil, List.append_nil]

theorem addResults_cons (ids : Nat → Uuid) (s : LoopState σ) (call : ToolCall) (cs : List ToolCall)
    (result : ToolResult) (results : List ToolResult) (next last : σ) :
    (s.addResults ids [call] [result] next).addResults ids cs results last =
      s.addResults ids (call :: cs) (result :: results) last := by
  have hone (k : Nat) : toolMessages ids k [call] [result] = [toolMessage (ids k) call result] :=
    rfl
  have hcons (k : Nat) : toolMessages ids k (call :: cs) (result :: results) =
      toolMessage (ids k) call result :: toolMessages ids (k + 1) cs results := rfl
  simp only [LoopState.addResults, hone, hcons, List.length_append, List.length_singleton,
    List.append_assoc, List.singleton_append]

/-- One tool succeeds or raises. -/
theorem runTool_cases (emit : Bool) (s : LoopState σ) (call : ToolCall) :
    (∃ result registry, inv.tools.invoke s.registry call context = (.ok result, registry) ∧
      (inv.runTool context emit s call).ending =
        .ok (s.addResults inv.ids [call] [result] registry) ∧
      calls (inv.runTool context emit s call).yields = [.toolCall call]) ∨
    ∃ e, (inv.tools.invoke s.registry call context).1 = .error e ∧
      (inv.runTool context emit s call).ending = .error e ∧
      calls (inv.runTool context emit s call).yields = [.toolCall call] := by
  rw [runTool]
  obtain ⟨answer, registry⟩ := inv.tools.invoke s.registry call context
  cases answer with
  | error e => exact Or.inr ⟨e, rfl, rfl, rfl⟩
  | ok result =>
    refine Or.inl ⟨result, registry, rfl, ?_⟩
    cases emit with
    | true => exact ⟨rfl, rfl⟩
    | false => exact ⟨rfl, rfl⟩

/-- The tools of one result: they all succeed, or one raises. -/
theorem runTools_cases (emit : Bool) : ∀ (cs : List ToolCall) (s : LoopState σ),
    (∃ results registry, Executes inv.tools context s.registry cs results registry ∧
      (cs.foldlM (inv.runTool context emit) s).ending =
        .ok (s.addResults inv.ids cs results registry) ∧
      calls (cs.foldlM (inv.runTool context emit) s).yields = cs.map .toolCall) ∨
    ∃ before call after results registry e, cs = before ++ call :: after ∧
      Executes inv.tools context s.registry before results registry ∧
      (inv.tools.invoke registry call context).1 = .error e ∧
      (cs.foldlM (inv.runTool context emit) s).ending = .error e ∧
      calls (cs.foldlM (inv.runTool context emit) s).yields = (before ++ [call]).map .toolCall
  | [], s => by
    refine Or.inl ⟨[], s.registry, .nil s.registry, ?_, rfl⟩
    rw [addResults_nil]
    rfl
  | call :: cs, s => by
    have hyields {next : LoopState σ}
        (hend : (inv.runTool context emit s call).ending = .ok next)
        (hcall : calls (inv.runTool context emit s call).yields = [.toolCall call]) :
        calls ((call :: cs).foldlM (inv.runTool context emit) s).yields =
          .toolCall call :: calls (cs.foldlM (inv.runTool context emit) next).yields ∧
        ((call :: cs).foldlM (inv.runTool context emit) s).ending =
          (cs.foldlM (inv.runTool context emit) next).ending := by
      rw [List.foldlM_cons, Gen.bind_def, Gen.andThen, hend]
      refine ⟨?_, rfl⟩
      rw [calls_append, hcall]
      rfl
    rcases inv.runTool_cases context emit s call with
      ⟨result, next, hinvoke, hend, hcall⟩ | ⟨e, hinvoke, hend, hcall⟩
    · obtain ⟨hitems, hending⟩ := hyields hend hcall
      rw [hitems, hending]
      rcases runTools_cases emit cs (s.addResults inv.ids [call] [result] next) with
        ⟨results, last, hrest, hok, hcalls⟩ |
        ⟨before, failing, after, results, last, e, rfl, hrest, hfail, herror, hcalls⟩
      · refine Or.inl ⟨result :: results, last, .cons hinvoke hrest, ?_, ?_⟩
        · rw [hok, addResults_cons]
        · rw [hcalls]
          rfl
      · refine Or.inr ⟨call :: before, failing, after, result :: results, last, e, rfl,
          .cons hinvoke hrest, hfail, herror, ?_⟩
        rw [hcalls]
        rfl
    · refine Or.inr ⟨[], call, cs, [], s.registry, e, rfl, .nil s.registry, hinvoke, ?_, ?_⟩
      · rw [List.foldlM_cons]
        exact Gen.ending_bind_error hend _
      · rw [List.foldlM_cons, Gen.bind_def, Gen.andThen, hend]
        exact hcall

/-- The loop of `invoke` and of `stream`, but for how the model is asked and how a run ends. -/
def loopWith {β : Type} (model : ModelCall) (emit : Bool)
    (finish : InvocationOutput → Gen Exn LoopItem β) : Nat → LoopState σ → Gen Exn LoopItem β
  | n, s => do
    let result ← model (inv.modelInput context s)
    let s' := s.addResult result
    if result.toolCalls = [] then finish s'.output
    else
      match n with
      | 0 => .raise (maxIterationsExceeded inv.maxToolIterations)
      | n + 1 => do
        let s'' ← result.toolCalls.foldlM (inv.runTool context emit) s'
        loopWith model emit finish n s''

theorem invokeLoop_eq (n : Nat) (s : LoopState σ) :
    inv.invokeLoop context n s = inv.loopWith context inv.callModel false pure n s := by
  induction n generalizing s with
  | zero => rfl
  | succ n ih =>
    rw [invokeLoop, loopWith]
    simp only [ih]

theorem streamLoop_eq (n : Nat) (s : LoopState σ) : inv.streamLoop context n s =
    inv.loopWith context inv.streamModel true (fun output => .yield (.event (.completed output)))
      n s := by
  induction n generalizing s with
  | zero => rfl
  | succ n ih =>
    rw [streamLoop, loopWith]
    simp only [ih]

theorem loop_bind {β γ : Type} {m : Gen Exn LoopItem β} {b : β} (h : m.ending = .ok b)
    (f : β → Gen Exn LoopItem γ) :
    (m >>= f).yields = m.yields ++ (f b).yields ∧ (m >>= f).ending = (f b).ending := by
  rw [Gen.bind_def, Gen.andThen, h]
  exact ⟨rfl, rfl⟩

/-- How a generator ends that finishes with the output of a run. -/
structure EndsWith {β : Type} (finish : InvocationOutput → Gen Exn LoopItem β)
    (g : Gen Exn LoopItem β) (outcome : Except Exn InvocationOutput) : Prop where
  raised : ∀ e, outcome = .error e → g.ending = .error e
  finished : ∀ output, outcome = .ok output →
    (finish output).yields <:+ g.yields ∧ g.ending = (finish output).ending

theorem EndsWith.after {β : Type} {finish : InvocationOutput → Gen Exn LoopItem β}
    {g g' : Gen Exn LoopItem β} {outcome : Except Exn InvocationOutput} {ys : List LoopItem}
    (h : EndsWith finish g outcome) (hyields : g'.yields = ys ++ g.yields)
    (hending : g'.ending = g.ending) : EndsWith finish g' outcome where
  raised e he := hending.trans (h.raised e he)
  finished output ho := by
    obtain ⟨hsuffix, hend⟩ := h.finished output ho
    refine ⟨?_, hending.trans hend⟩
    rw [hyields]
    exact hsuffix.trans (List.suffix_append _ _)

section Loop

variable {inv context} {β : Type} {model : ModelCall} {emit : Bool}
  {finish : InvocationOutput → Gen Exn LoopItem β} {s : LoopState σ}

/-- The model call of an iteration fails. -/
theorem loopWith_error (n : Nat) {e : Exn}
    (h : (model (inv.modelInput context s)).ending = .error e) :
    (inv.loopWith context model emit finish n s).yields =
        (model (inv.modelInput context s)).yields ∧
      (inv.loopWith context model emit finish n s).ending = .error e := by
  rw [loopWith, Gen.bind_def, Gen.andThen, h]
  exact ⟨rfl, rfl⟩

/-- The model asks for no tools. -/
theorem loopWith_finished (n : Nat) {r : ModelResult}
    (h : (model (inv.modelInput context s)).ending = .ok r) (hcalls : r.toolCalls = []) :
    (inv.loopWith context model emit finish n s).yields =
        (model (inv.modelInput context s)).yields ++ (finish (s.addResult r).output).yields ∧
      (inv.loopWith context model emit finish n s).ending =
        (finish (s.addResult r).output).ending := by
  rw [loopWith, Gen.bind_def, Gen.andThen, h]
  simp only [if_pos hcalls, and_self]

/-- The model asks for tools. -/
theorem loopWith_tools (n : Nat) {r : ModelResult}
    (h : (model (inv.modelInput context s)).ending = .ok r) (hcalls : r.toolCalls ≠ []) :
    (inv.loopWith context model emit finish (n + 1) s).yields =
        (model (inv.modelInput context s)).yields ++
          (r.toolCalls.foldlM (inv.runTool context emit) (s.addResult r) >>=
            inv.loopWith context model emit finish n).yields ∧
      (inv.loopWith context model emit finish (n + 1) s).ending =
        (r.toolCalls.foldlM (inv.runTool context emit) (s.addResult r) >>=
          inv.loopWith context model emit finish n).ending := by
  rw [loopWith, Gen.bind_def, Gen.andThen, h]
  simp only [if_neg hcalls, and_self]

/-- The model asks for tools, and no iteration is left. -/
theorem loopWith_exceeded {r : ModelResult}
    (h : (model (inv.modelInput context s)).ending = .ok r) (hcalls : r.toolCalls ≠ []) :
    (inv.loopWith context model emit finish 0 s).yields =
        (model (inv.modelInput context s)).yields ∧
      (inv.loopWith context model emit finish 0 s).ending =
        .error (maxIterationsExceeded inv.maxToolIterations) := by
  rw [loopWith, Gen.bind_def, Gen.andThen, h]
  simp only [if_neg hcalls]
  exact ⟨List.append_nil _, rfl⟩

end Loop

/-- The loop has the runs of `Run` only. -/
theorem run_of_loopWith {β : Type} {model : ModelCall} {emit : Bool}
    {finish : InvocationOutput → Gen Exn LoopItem β}
    (hmodel : ∀ input, calls (model input).yields = [.modelCall input])
    (hfinish : ∀ output, calls (finish output).yields = []) (n : Nat) (s : LoopState σ) :
    ∃ outcome, Run inv context model n s
      (calls (inv.loopWith context model emit finish n s).yields) outcome ∧
        EndsWith finish (inv.loopWith context model emit finish n s) outcome := by
  have hraised {g : Gen Exn LoopItem β} {e : Exn} (h : g.ending = .error e) :
      EndsWith finish g (.error e) := by
    refine ⟨fun e' he' => ?_, fun output ho => by cases ho⟩
    rw [← Except.error.inj he']
    exact h
  -- the two ways to end with the model call, whether or not iterations are left
  have hrejected {n : Nat} {s : LoopState σ} {e : Exn}
      (hend : (model (inv.modelInput context s)).ending = .error e) :
      ∃ outcome, Run inv context model n s
        (calls (inv.loopWith context model emit finish n s).yields) outcome ∧
          EndsWith finish (inv.loopWith context model emit finish n s) outcome := by
    obtain ⟨hyields, hending⟩ := loopWith_error n hend
    rw [hyields, hmodel]
    exact ⟨.error e, .rejected hend, hraised hending⟩
  have hfinished {n : Nat} {s : LoopState σ} {r : ModelResult}
      (hend : (model (inv.modelInput context s)).ending = .ok r) (hcalls : r.toolCalls = []) :
      ∃ outcome, Run inv context model n s
        (calls (inv.loopWith context model emit finish n s).yields) outcome ∧
          EndsWith finish (inv.loopWith context model emit finish n s) outcome := by
    obtain ⟨hyields, hending⟩ := loopWith_finished n hend hcalls
    rw [hyields, calls_append, hmodel, hfinish]
    refine ⟨.ok (s.addResult r).output, .finished hend hcalls, ⟨fun e he => (by cases he), ?_⟩⟩
    intro output ho
    rw [← Except.ok.inj ho, hyields]
    exact ⟨List.suffix_append _ _, hending⟩
  induction n generalizing s with
  | zero =>
    cases hend : (model (inv.modelInput context s)).ending with
    | error e => exact hrejected hend
    | ok r =>
      by_cases hcalls : r.toolCalls = []
      · exact hfinished hend hcalls
      · -- the model asks for tools once more than it may
        obtain ⟨hyields, hending⟩ := loopWith_exceeded hend hcalls
        rw [hyields, hmodel]
        exact ⟨.error _, .exceeded hend hcalls, hraised hending⟩
  | succ n ih =>
    cases hend : (model (inv.modelInput context s)).ending with
    | error e => exact hrejected hend
    | ok r =>
      by_cases hcalls : r.toolCalls = []
      · exact hfinished hend hcalls
      · obtain ⟨hyields, hending⟩ := loopWith_tools n hend hcalls
        rw [hyields, calls_append, hmodel]
        rcases inv.runTools_cases context emit r.toolCalls (s.addResult r) with
          ⟨results, registry, hexecutes, hok, hitems⟩ |
          ⟨before, call, after, results, registry, e, hsplit, hexecutes, hfail, herror, hitems⟩
        · -- all calls of the round succeed, and the rest is a run with fewer iterations
          obtain ⟨outcome, hrun, hends⟩ :=
            ih ((s.addResult r).addResults inv.ids r.toolCalls results registry)
          obtain ⟨hrest, hrestEnd⟩ := loop_bind hok (inv.loopWith context model emit finish n)
          rw [hrest, calls_append, hitems]
          refine ⟨outcome, .round hend hcalls hexecutes hrun, ?_⟩
          rw [hrest, ← List.append_assoc] at hyields
          exact hends.after hyields (hending.trans hrestEnd)
        · -- a call raises: those after it are not executed, and the loop is left
          have hrest : calls (r.toolCalls.foldlM (inv.runTool context emit) (s.addResult r) >>=
              inv.loopWith context model emit finish n).yields =
                (before ++ [call]).map .toolCall := by
            rw [Gen.bind_def, Gen.andThen, herror]
            exact hitems
          rw [hrest]
          refine ⟨.error e, .raised hend hsplit hexecutes hfail, hraised ?_⟩
          exact hending.trans (Gen.ending_bind_error herror _)

end NativeAgentInvoker

-- ---------------------------------------------------------------------------
-- Dispatch and history
-- ---------------------------------------------------------------------------

/-- The result of a model call that passes `checked_result`. -/
def ModelCall.checked? (model : ModelCall) : LoopItem → Option ModelResult
  | .modelCall input => (model input).ending.toOption
  | _ => none

def LoopItem.toolCall? : LoopItem → Option ToolCall
  | .toolCall call => some call
  | _ => none

def ModelCall.checkedResults (model : ModelCall) (items : List LoopItem) : List ModelResult :=
  items.filterMap model.checked?

def executedCalls (items : List LoopItem) : List ToolCall := items.filterMap LoopItem.toolCall?

def countModelCalls (items : List LoopItem) : Nat :=
  items.countP fun
    | .modelCall _ => true
    | _ => false

/-- The first tool call after a model call. -/
def startsRound : LoopItem → LoopItem → Bool
  | .modelCall _, .toolCall _ => true
  | _, _ => false

/-- The rounds in which tools are executed. -/
def countRounds : List LoopItem → Nat
  | a :: b :: rest => (if startsRound a b then 1 else 0) + countRounds (b :: rest)
  | _ => 0

/-- The calls of the recorded messages. -/
def recordedCalls (results : List ModelResult) : List ToolCall :=
  results.flatMap fun r => r.message.toolCalls

/-- The executed calls are the recorded ones: id, name, and arguments of one JSON text. -/
def Dispatches (recorded executed : List ToolCall) : Prop :=
  List.Forall₂ (fun r e => r.matches e = true) recorded executed

/-- How far the recorded calls are executed in a run with `n` iterations left after the first, from
the registry state `registry`, and why no further. Whatever is executed before the run ends has
succeeded; the executed calls are written `done`. -/
inductive Dispatch {σ : Type} (inv : NativeAgentInvoker σ) (context : RuntimeContext)
    (model : ModelCall) (n : Nat) (registry : σ) (items : List LoopItem) :
    Except Exn InvocationOutput → Prop
  /-- The run succeeds: all calls. -/
  | succeeded {outputs : List ToolResult} {next : σ} {output : InvocationOutput} :
    Executes inv.tools context registry (executedCalls items) outputs next →
      Dispatches (recordedCalls (model.checkedResults items)) (executedCalls items) →
        Dispatch inv context model n registry items (.ok output)
  /-- The last item is a model call that fails, or whose result does not pass: all calls. -/
  | rejected {outputs : List ToolResult} {next : σ} {earlier : List LoopItem} {input : ModelInput}
      {e : Exn} :
    items = earlier ++ [.modelCall input] → (model input).ending = .error e →
      Executes inv.tools context registry (executedCalls items) outputs next →
        Dispatches (recordedCalls (model.checkedResults items)) (executedCalls items) →
          Dispatch inv context model n registry items (.error e)
  /-- A tool of the last result raises: the calls up to it, and it. -/
  | raised {earlier : List ModelResult} {last : ModelResult} {before after done : List ToolCall}
      {call failing : ToolCall} {outputs : List ToolResult} {next : σ} {e : Exn} :
    model.checkedResults items = earlier ++ [last] →
      last.message.toolCalls = before ++ call :: after → executedCalls items = done ++ [failing] →
        Executes inv.tools context registry done outputs next →
          (inv.tools.invoke next failing context).1 = .error e →
            Dispatches (recordedCalls earlier ++ before) done → call.matches failing = true →
              Dispatch inv context model n registry items (.error e)
  /-- The last result asks for tools after the last iteration: all calls but its own. -/
  | exceeded {earlier : List ModelResult} {last : ModelResult} {outputs : List ToolResult}
      {next : σ} :
    model.checkedResults items = earlier ++ [last] → last.message.toolCalls ≠ [] →
      earlier.length = n →
        Executes inv.tools context registry (executedCalls items) outputs next →
          Dispatches (recordedCalls earlier) (executedCalls items) →
            Dispatch inv context model n registry items
              (.error (maxIterationsExceeded inv.maxToolIterations))

/-- A tool message that answers a call with the output of its execution. -/
def IsAnswer (call : ToolCall) (result : ToolResult) (m : Message) : Prop :=
  m.role = .tool ∧ ∃ part : ToolResultContent, m.content = [.toolResult part] ∧
    part.toolCallId = call.id ∧ part.result = result.output

inductive ToolAnswers : List ToolCall → List ToolResult → List Message → Prop
  | nil : ToolAnswers [] [] []
  | cons {call : ToolCall} {result : ToolResult} {m : Message} {cs : List ToolCall}
      {results : List ToolResult} {ms : List Message} :
    IsAnswer call result m → ToolAnswers cs results ms →
      ToolAnswers (call :: cs) (result :: results) (m :: ms)

/-- The messages and tool results of a successful run, from its results and executed calls. -/
inductive Recorded {σ : Type} (tools : ToolRegistry σ) (context : RuntimeContext) :
    σ → List ModelResult → List ToolCall → List Message → List ToolResult → Prop
  | last {registry : σ} {r : ModelResult} :
    r.message.toolCalls = [] → Recorded tools context registry [r] [] [r.message] []
  | round {registry next : σ} {r : ModelResult} {outputs : List ToolResult}
      {answers : List Message} {results : List ModelResult} {executed : List ToolCall}
      {messages : List Message} {toolResults : List ToolResult} :
    r.message.toolCalls ≠ [] → Executes tools context registry r.toolCalls outputs next →
      ToolAnswers r.message.toolCalls outputs answers →
        Recorded tools context next results executed messages toolResults →
          Recorded tools context registry (r :: results) (r.toolCalls ++ executed)
            (r.message :: answers ++ messages) (outputs ++ toolResults)

/-- The sum of what is used, or `none` where it is not always known. -/
def totalUsage (usages : List (Option Usage)) : Option Usage :=
  if usages.all Option.isSome then
    some ⟨(usages.map fun u => u.elim 0 Usage.inputTokens).sum,
      (usages.map fun u => u.elim 0 Usage.outputTokens).sum⟩
  else none

/-- The output of a run against its executions. -/
structure History {σ : Type} (tools : ToolRegistry σ) (context : RuntimeContext) (registry : σ)
    (results : List ModelResult) (executed : List ToolCall) (output : InvocationOutput) : Prop where
  recorded : Recorded tools context registry results executed output.messages output.toolResults
  last : ∃ m, output.messages.getLast? = some m ∧ m.role = .assistant ∧ m.toolCalls = []
  usage : output.usage = totalUsage (results.map ModelResult.usage)

/-! ## One round -/

theorem dispatches_of_callsMatch : ∀ {recorded executable : List ToolCall},
    callsMatch recorded executable = true → Dispatches recorded executable
  | [], [], _ => .nil
  | r :: rs, e :: es, h => by
    rw [callsMatch, Bool.and_eq_true] at h
    exact .cons h.1 (dispatches_of_callsMatch h.2)

theorem ModelResult.dispatches (r : ModelResult) : Dispatches r.message.toolCalls r.toolCalls := by
  have h := r.valid
  rw [validToolCalls, Bool.and_eq_true] at h
  exact dispatches_of_callsMatch h.2

theorem Dispatches.append {as bs cs ds : List ToolCall} (h : Dispatches as bs)
    (h' : Dispatches cs ds) : Dispatches (as ++ cs) (bs ++ ds) := List.rel_append h h'

theorem ModelResult.toolCalls_eq_nil (r : ModelResult) :
    r.message.toolCalls = [] ↔ r.toolCalls = [] := by
  have hlength := r.dispatches.length_eq
  rw [← List.length_eq_zero_iff, ← List.length_eq_zero_iff, hlength]

/-- What is split off the executable calls is split off the recorded ones. -/
theorem Dispatches.split {recorded before after : List ToolCall} {call : ToolCall}
    (h : Dispatches recorded (before ++ call :: after)) :
    ∃ before' call' after', recorded = before' ++ call' :: after' ∧
      Dispatches before' before ∧ call'.matches call = true := by
  induction before generalizing recorded with
  | nil =>
    cases h with
    | @cons call' _ after' _ hcall _ => exact ⟨[], call', after', rfl, .nil, hcall⟩
  | cons b before ih =>
    cases h with
    | @cons b' _ recorded' _ hb hrest =>
      obtain ⟨before', call', after', rfl, hbefore, hcall⟩ := ih hrest
      exact ⟨b' :: before', call', after', rfl, .cons hb hbefore, hcall⟩

/-- The tool messages answer the recorded calls. -/
theorem answers_toolMessages {σ : Type} {tools : ToolRegistry σ} {context : RuntimeContext}
    (ids : Nat → Uuid) {registry next : σ} {recorded executed : List ToolCall}
    {outputs : List ToolResult} (hexecutes : Executes tools context registry executed outputs next)
    (h : Dispatches recorded executed) (k : Nat) :
    ToolAnswers recorded outputs (toolMessages ids k executed outputs) := by
  induction hexecutes generalizing recorded k with
  | nil registry =>
    cases h
    exact .nil
  | @cons registry next last call result calls results _ _ ih =>
    cases h with
    | @cons call' _ recorded' _ hcall hrest =>
      have hid : call'.id = call.id := by
        rw [ToolCall.matches, Bool.and_eq_true, Bool.and_eq_true] at hcall
        exact of_decide_eq_true hcall.1.1
      exact .cons ⟨rfl, _, rfl, hid.symm, rfl⟩ (ih hrest (k + 1))

theorem executedCalls_map (cs : List ToolCall) (items : List LoopItem) :
    executedCalls (cs.map .toolCall ++ items) = cs ++ executedCalls items := by
  rw [executedCalls, List.filterMap_append, List.filterMap_map]
  congr 1
  exact List.filterMap_some

theorem checkedResults_map (model : ModelCall) (cs : List ToolCall) (items : List LoopItem) :
    model.checkedResults (cs.map .toolCall ++ items) = model.checkedResults items := by
  have hnone : (cs.map LoopItem.toolCall).filterMap model.checked? = [] := by
    rw [List.filterMap_map]
    exact List.filterMap_eq_nil_iff.mpr fun _ _ => rfl
  rw [ModelCall.checkedResults, List.filterMap_append, hnone]
  rfl

theorem checkedResults_ok {model : ModelCall} {input : ModelInput} {r : ModelResult}
    (h : (model input).ending = .ok r) (items : List LoopItem) :
    model.checkedResults (.modelCall input :: items) = r :: model.checkedResults items := by
  have hsome : model.checked? (.modelCall input) = some r := by rw [ModelCall.checked?, h]; rfl
  exact List.filterMap_cons_some hsome

theorem checkedResults_error {model : ModelCall} {input : ModelInput} {e : Exn}
    (h : (model input).ending = .error e) (items : List LoopItem) :
    model.checkedResults (.modelCall input :: items) = model.checkedResults items := by
  have hnone : model.checked? (.modelCall input) = none := by rw [ModelCall.checked?, h]; rfl
  exact List.filterMap_cons_none hnone

theorem Executes.append {σ : Type} {tools : ToolRegistry σ} {context : RuntimeContext}
    {registry next last : σ} {cs ds : List ToolCall} {results results' : List ToolResult}
    (h : Executes tools context registry cs results next)
    (h' : Executes tools context next ds results' last) :
    Executes tools context registry (cs ++ ds) (results ++ results') last := by
  induction h with
  | nil registry => exact h'
  | cons hinvoke _ ih => exact .cons hinvoke (ih h')

/-- A round of calls that succeed goes before a run. -/
theorem Dispatch.cons {σ : Type} {inv : NativeAgentInvoker σ} {context : RuntimeContext}
    {model : ModelCall} {n : Nat} {registry next : σ} {items : List LoopItem}
    {outcome : Except Exn InvocationOutput} {input : ModelInput} {r : ModelResult}
    {results : List ToolResult} (hmodel : (model input).ending = .ok r)
    (hround : Executes inv.tools context registry r.toolCalls results next)
    (h : Dispatch inv context model n next items outcome) :
    Dispatch inv context model (n + 1) registry
      (.modelCall input :: r.toolCalls.map .toolCall ++ items) outcome := by
  have hexecuted : executedCalls (.modelCall input :: r.toolCalls.map .toolCall ++ items) =
      r.toolCalls ++ executedCalls items := executedCalls_map r.toolCalls items
  have hchecked : model.checkedResults (.modelCall input :: r.toolCalls.map .toolCall ++ items) =
      r :: model.checkedResults items := by
    rw [List.cons_append, checkedResults_ok hmodel, checkedResults_map]
  have hcons (rs : List ModelResult) : recordedCalls (r :: rs) =
      r.message.toolCalls ++ recordedCalls rs := List.flatMap_cons
  -- in every case the round executes all of its calls, so that only the end of the run matters
  cases h with
  | succeeded hexecutes hall =>
    refine .succeeded (hexecuted ▸ hround.append hexecutes) ?_
    rw [hchecked, hexecuted, hcons]
    exact r.dispatches.append hall
  | @rejected outputs last earlier failing e hlast hfails hexecutes hall =>
    have hitems : LoopItem.modelCall input :: r.toolCalls.map .toolCall ++ items =
        (.modelCall input :: r.toolCalls.map .toolCall ++ earlier) ++ [.modelCall failing] := by
      rw [hlast, List.append_assoc]
    refine .rejected hitems hfails (hexecuted ▸ hround.append hexecutes) ?_
    rw [hchecked, hexecuted, hcons]
    exact r.dispatches.append hall
  | @raised earlier last before after done call failing outputs final e hresults hsplit hdone
      hexecutes hraises hbefore hmatches =>
    have hsame : model.checkedResults
        (.modelCall input :: r.toolCalls.map .toolCall ++ items) = (r :: earlier) ++ [last] := by
      rw [hchecked, hresults, List.cons_append]
    have hdone' : executedCalls (.modelCall input :: r.toolCalls.map .toolCall ++ items) =
        (r.toolCalls ++ done) ++ [failing] := by
      rw [hexecuted, hdone, List.append_assoc]
    refine .raised hsame hsplit hdone' (hround.append hexecutes) hraises ?_ hmatches
    rw [hcons, List.append_assoc]
    exact r.dispatches.append hbefore
  | @exceeded earlier last outputs final hresults hcalls hlength hexecutes hearlier =>
    have hsame : model.checkedResults
        (.modelCall input :: r.toolCalls.map .toolCall ++ items) = (r :: earlier) ++ [last] := by
      rw [hchecked, hresults, List.cons_append]
    have hlength' : (r :: earlier).length = n + 1 := by
      rw [List.length_cons, hlength]
    refine .exceeded hsame hcalls hlength' (hexecuted ▸ hround.append hexecutes) ?_
    rw [hexecuted, hcons]
    exact r.dispatches.append hearlier

-- ---------------------------------------------------------------------------
-- Whole runs
-- ---------------------------------------------------------------------------

namespace Run

variable {σ : Type} {inv : NativeAgentInvoker σ} {context : RuntimeContext} {model : ModelCall}
  {n : Nat} {s : LoopState σ} {items : List LoopItem} {outcome : Except Exn InvocationOutput}

theorem executed_round (input : ModelInput) (cs : List ToolCall) (items : List LoopItem) :
    executedCalls (.modelCall input :: cs.map .toolCall ++ items) = cs ++ executedCalls items :=
  executedCalls_map cs items

/-- What is dispatched is what is recorded, as far as the run gets. -/
theorem dispatch (h : Run inv context model n s items outcome) :
    Dispatch inv context model n s.registry items outcome := by
  induction h with
  | @rejected n s e hmodel =>
    refine .rejected (List.nil_append _).symm hmodel (.nil s.registry) ?_
    rw [checkedResults_error hmodel]
    exact .nil
  | @finished n s r hmodel hcalls =>
    refine .succeeded (.nil s.registry) ?_
    have hnone : recordedCalls [r] = [] := by
      rw [recordedCalls, List.flatMap_singleton, r.toolCalls_eq_nil.mpr hcalls]
    rw [checkedResults_ok hmodel]
    show Dispatches (recordedCalls [r]) []
    rw [hnone]
    exact .nil
  | @exceeded s r hmodel hcalls =>
    have hrecorded : r.message.toolCalls ≠ [] := fun hnone =>
      hcalls (r.toolCalls_eq_nil.mp hnone)
    have hresults : model.checkedResults [.modelCall (inv.modelInput context s)] = [] ++ [r] :=
      checkedResults_ok hmodel []
    exact .exceeded hresults hrecorded rfl (.nil s.registry) .nil
  | @raised n s r before after call results registry e hmodel hsplit hexecutes hraises =>
    -- the recorded calls split where the executed ones do
    have hdispatch := r.dispatches
    rw [hsplit] at hdispatch
    obtain ⟨before', call', after', hrecorded, hbefore, hcall⟩ := hdispatch.split
    have hexecuted := executed_round (inv.modelInput context s) (before ++ [call]) []
    have hresults := checkedResults_map model (before ++ [call]) []
    rw [List.append_nil] at hexecuted hresults
    have hnone : executedCalls [] = [] := rfl
    rw [hnone, List.append_nil] at hexecuted
    have hlast : model.checkedResults (.modelCall (inv.modelInput context s) ::
        (before ++ [call]).map .toolCall) = [] ++ [r] := by
      rw [checkedResults_ok hmodel, hresults]
      rfl
    exact .raised hlast hrecorded hexecuted hexecutes hraises hbefore hcall
  | round hmodel _ hexecutes _ ih => exact ih.cons hmodel hexecutes

theorem combinedUsage_foldl (usages : List (Option Usage)) (total : Usage) :
    usages.foldl combinedUsage (some total) = (totalUsage usages).map fun u =>
      ⟨total.inputTokens + u.inputTokens, total.outputTokens + u.outputTokens⟩ := by
  have hnone (us : List (Option Usage)) : us.foldl combinedUsage none = none := by
    induction us with
    | nil => rfl
    | cons u us ih => exact ih
  induction usages generalizing total with
  | nil => rfl
  | cons usage usages ih =>
    cases usage with
    | none => exact hnone usages
    | some u =>
      rw [List.foldl_cons, combinedUsage, ih, totalUsage, totalUsage, List.all_cons,
        Option.isSome_some, Bool.true_and]
      split
      · rw [Option.map_some, Option.map_some, List.map_cons, List.map_cons, List.sum_cons,
          List.sum_cons]
        simp only [Option.elim_some, Nat.add_assoc]
      · rfl

/-- The output of a successful run. -/
theorem recorded (h : Run inv context model n s items outcome) {output : InvocationOutput}
    (hok : outcome = .ok output) : ∃ messages toolResults,
      Recorded inv.tools context s.registry (model.checkedResults items) (executedCalls items)
        messages toolResults ∧ output.messages = s.generated ++ messages ∧
      output.toolResults = s.toolResults ++ toolResults ∧
      output.usage =
        ((model.checkedResults items).map ModelResult.usage).foldl combinedUsage s.usage := by
  induction h with
  | rejected _ => cases hok
  | @finished n s r hmodel hcalls =>
    cases hok
    rw [checkedResults_ok hmodel]
    exact ⟨[r.message], [], .last (r.toolCalls_eq_nil.mpr hcalls), rfl, (List.append_nil _).symm,
      rfl⟩
  | exceeded _ _ => cases hok
  | raised _ _ _ _ => cases hok
  | @round n s r results registry items outcome hmodel hcalls hexecutes _ ih =>
    obtain ⟨messages, toolResults, hrecorded, hmessages, hresults, husage⟩ := ih hok
    rw [List.cons_append, checkedResults_ok hmodel, checkedResults_map, ← List.cons_append,
      executed_round]
    have hanswers := answers_toolMessages inv.ids hexecutes r.dispatches
      (s.addResult r).toolResults.length
    refine ⟨_, _, .round (fun hnone => hcalls (r.toolCalls_eq_nil.mp hnone)) hexecutes hanswers
      hrecorded, ?_, ?_, husage⟩
    · rw [hmessages, LoopState.addResults, LoopState.addResult, List.append_assoc,
        List.append_assoc]
      rfl
    · rw [hresults, LoopState.addResults, List.append_assoc]
      rfl

/-- A run of the bounded loop. -/
theorem bounded (h : Run inv context model n s items outcome) :
    countModelCalls items ≤ n + 1 ∧ countRounds items ≤ n := by
  have htools (cs : List ToolCall) (items : List LoopItem) :
      countModelCalls (cs.map .toolCall ++ items) = countModelCalls items ∧
        countRounds (cs.map .toolCall ++ items) = countRounds items := by
    induction cs with
    | nil => exact ⟨rfl, rfl⟩
    | cons c cs ih =>
      refine ⟨ih.1, ?_⟩
      rw [← ih.2, List.map_cons, List.cons_append]
      cases cs.map LoopItem.toolCall ++ items with
      | nil => rfl
      | cons item rest => exact Nat.zero_add _
  have hmodel (input : ModelInput) (items : List LoopItem) :
      countModelCalls (.modelCall input :: items) = countModelCalls items + 1 ∧
        countRounds (.modelCall input :: items) ≤ countRounds items + 1 := by
    refine ⟨List.countP_cons_of_pos rfl, ?_⟩
    cases items with
    | nil => exact Nat.zero_le 1
    | cons item rest =>
      rw [countRounds]
      split
      · exact Nat.le_of_eq (Nat.add_comm 1 _)
      · exact Nat.le_trans (Nat.le_of_eq (Nat.zero_add _)) (Nat.le_succ _)
  induction h with
  | rejected _ => exact ⟨Nat.succ_le_succ (Nat.zero_le _), Nat.zero_le _⟩
  | finished _ _ => exact ⟨Nat.succ_le_succ (Nat.zero_le _), Nat.zero_le _⟩
  | exceeded _ _ => exact ⟨Nat.le_refl 1, Nat.le_refl 0⟩
  | @raised n s r before after call results registry e _ _ _ _ =>
    obtain ⟨hcalls, hrounds⟩ := hmodel (inv.modelInput context s) ((before ++ [call]).map .toolCall)
    obtain ⟨hcalls', hrounds'⟩ := htools (before ++ [call]) []
    rw [List.append_nil] at hcalls' hrounds'
    have hnone : countModelCalls [] = 0 := rfl
    have hnone' : countRounds [] = 0 := rfl
    omega
  | @round n s r results registry items outcome _ _ _ _ ih =>
    obtain ⟨hcalls, hrounds⟩ :=
      hmodel (inv.modelInput context s) (r.toolCalls.map .toolCall ++ items)
    obtain ⟨hcalls', hrounds'⟩ := htools r.toolCalls items
    rw [List.cons_append]
    omega

end Run

-- ---------------------------------------------------------------------------
-- The two loops
-- ---------------------------------------------------------------------------

/-- The last message of a successful run asks for no tools. -/
theorem Recorded.last_message {σ : Type} {tools : ToolRegistry σ} {context : RuntimeContext}
    {registry : σ} {results : List ModelResult} {executed : List ToolCall}
    {messages : List Message} {toolResults : List ToolResult}
    (h : Recorded tools context registry results executed messages toolResults) :
    ∃ m, messages.getLast? = some m ∧ m.role = .assistant ∧ m.toolCalls = [] := by
  induction h with
  | @last registry r hcalls => exact ⟨r.message, rfl, r.assistant, hcalls⟩
  | @round registry next r outputs answers results executed messages toolResults _ _ _ _ ih =>
    obtain ⟨m, hlast, hrole, hcalls⟩ := ih
    refine ⟨m, ?_, hrole, hcalls⟩
    rw [List.getLast?_append, hlast]
    rfl

/-- Dispatch, history and bounds of a run with these calls and this outcome. -/
structure Faithful {σ : Type} (inv : NativeAgentInvoker σ) (model : ModelCall) (registry : σ)
    (request : InvocationInput) (items : List LoopItem)
    (outcome : Except Exn InvocationOutput) : Prop where
  dispatch : Dispatch inv request.context model inv.maxToolIterations registry items outcome
  history : ∀ output, outcome = .ok output → Dispatches
      (recordedCalls (model.checkedResults items)) (executedCalls items) ∧
    History inv.tools request.context registry (model.checkedResults items) (executedCalls items)
      output
  modelCalls : countModelCalls items ≤ inv.maxToolIterations + 1
  rounds : countRounds items ≤ inv.maxToolIterations

theorem Run.faithful {σ : Type} {inv : NativeAgentInvoker σ} {model : ModelCall} {registry : σ}
    {request : InvocationInput} {items : List LoopItem} {outcome : Except Exn InvocationOutput}
    (h : Run inv request.context model inv.maxToolIterations (.start request registry) items
      outcome) : Faithful inv model registry request items outcome where
  dispatch := h.dispatch
  history output hok := by
    obtain ⟨messages, toolResults, hrecorded, hmessages, hresults, husage⟩ := h.recorded hok
    have hmessages' : output.messages = messages := hmessages
    have hresults' : output.toolResults = toolResults := hresults
    have hdispatch := h.dispatch
    rw [hok] at hdispatch
    refine ⟨?_, ?_⟩
    · cases hdispatch with
      | succeeded _ h => exact h
    · refine ⟨?_, ?_, ?_⟩
      · rw [hmessages', hresults']
        exact hrecorded
      · rw [hmessages']
        exact hrecorded.last_message
      · rw [husage, LoopState.start, combinedUsage_foldl]
        simp only [Nat.zero_add, Option.map_id']
  modelCalls := h.bounded.1
  rounds := h.bounded.2

namespace NativeAgentInvoker

variable {σ : Type} (inv : NativeAgentInvoker σ)

theorem calls_forwardText (shown : List ModelStreamEvent) (result : Option ResultObject) :
    calls (forwardText shown result).yields = [] := by
  induction shown generalizing result with
  | nil => rfl
  | cons event rest ih =>
    cases event with
    | textDelta delta => exact ih result
    | completed r => exact ih (some r)

/-- `streamModel` records the call, and beside it only yields text. -/
theorem calls_streamModel (input : ModelInput) :
    calls (inv.streamModel input).yields = [.modelCall input] := by
  have hbind {β γ : Type} {m : Gen Exn LoopItem β} {f : β → Gen Exn LoopItem γ}
      (hm : calls m.yields = []) (hf : ∀ b, calls (f b).yields = []) :
      calls (m >>= f).yields = [] := by
    obtain ⟨ys, r⟩ := m
    cases r with
    | error e => exact hm
    | ok b =>
      rw [Gen.ok_bind, calls_append, hf b, List.append_nil]
      exact hm
  rw [streamModel, Gen.yield_bind]
  show LoopItem.modelCall input :: calls _ = _
  refine congrArg (LoopItem.modelCall input :: ·) (hbind ?_ fun result => ?_)
  · rw [withModelFailure]
    cases inv.modelClient.stream with
    | some stream => exact hbind (calls_forwardText _ none) fun result => hbind rfl fun _ => rfl
    | none => exact hbind rfl fun result => rfl
  · cases result with
    | none => rfl
    | some result => rfl

/-- The native loop, with either way of asking the model: what it dispatches is what it records, as
far as the run gets, and the output of a successful run is the history of what was executed. No
hypothesis: any client, any registry, any request and any bound on the iterations. -/
theorem dispatch_is_history (registry : σ) (request : InvocationInput) :
    Faithful inv inv.callModel registry request (calls (inv.invoke registry request).yields)
        (inv.invoke registry request).ending ∧
      ∃ outcome, Faithful inv inv.streamModel registry request
          (calls (inv.stream registry request).yields) outcome ∧
        EndsWith (fun output => .yield (.event (.completed output))) (inv.stream registry request)
          outcome := by
  constructor
  · have hmodel (input : ModelInput) : calls (inv.callModel input).yields = [.modelCall input] := by
      rw [callModel_yields]
      rfl
    obtain ⟨outcome, hrun, hends⟩ : ∃ outcome, Run inv request.context inv.callModel
        inv.maxToolIterations (.start request registry)
          (calls (inv.invoke registry request).yields) outcome ∧
        EndsWith pure (inv.invoke registry request) outcome := by
      rw [invoke, invokeLoop_eq]
      exact inv.run_of_loopWith _ hmodel (fun _ => rfl) _ _
    have hending : (inv.invoke registry request).ending = outcome := by
      cases outcome with
      | error e => exact hends.raised e rfl
      | ok output => exact (hends.finished output rfl).2
    rw [hending]
    exact hrun.faithful
  · obtain ⟨outcome, hrun, hends⟩ : ∃ outcome, Run inv request.context inv.streamModel
        inv.maxToolIterations (.start request registry)
          (calls (inv.stream registry request).yields) outcome ∧
        EndsWith (fun output => .yield (.event (.completed output)))
          (inv.stream registry request) outcome := by
      rw [stream, streamLoop_eq]
      exact inv.run_of_loopWith _ inv.calls_streamModel (fun _ => rfl) _ _
    exact ⟨outcome, hrun.faithful, hends⟩

end NativeAgentInvoker

namespace Sample

/-- A message that asks for one tool. -/
def asking : Message where
  id := 1
  role := .assistant
  content := [.toolCall ⟨[97], [97], [], isStrField_a, isToolName_a, isJson_empty⟩]
  size := one_part
  validContent := rfl

/-- An agent with one iteration, whose model always asks for the tool. -/
def insistent : NativeAgentInvoker Unit where
  modelClient := .generateOnly fun _ => .ok (.fields asking asking.toolCalls none)
  tools := ⟨fun _ => [],
    fun _ call _ => (.ok ⟨0, call.id, call.name, .succeeded, .none, none, isJson_none⟩, ())⟩
  maxToolIterations := 1
  ids k := .ofNat 128 k
  validIterations := Nat.le_refl 1

def plainRequest : InvocationInput := ⟨⟨0, 0, none⟩, [.user 2 default], []⟩

end Sample

theorem insistent_not_all : ¬∀ (σ : Type) (inv : NativeAgentInvoker σ) (registry : σ)
    (request : InvocationInput), Dispatches
      (recordedCalls (ModelCall.checkedResults inv.callModel
        (calls (inv.invoke registry request).yields)))
      (executedCalls (calls (inv.invoke registry request).yields)) := by
  intro h
  have hlength := (h Unit Sample.insistent () Sample.plainRequest).length_eq
  have hrecorded : (recordedCalls (ModelCall.checkedResults Sample.insistent.callModel
      (calls (Sample.insistent.invoke () Sample.plainRequest).yields))).length = 2 := by decide
  have hexecuted : (executedCalls
      (calls (Sample.insistent.invoke () Sample.plainRequest).yields)).length = 1 := by decide
  omega

end AgentRuntimeKit
