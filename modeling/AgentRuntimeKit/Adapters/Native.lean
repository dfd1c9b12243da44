import AgentRuntimeKit.Clients.Canonical
import AgentRuntimeKit.Lib.Gen

/-!
# The native model-and-tool loop

`NativeAgentInvoker` of `adapters/native.py`: the loop of `invoke`, the loop of `stream` with its
two ways of asking the model, and `checked_stream` (`_streams.py`) through which `stream` reads a
streaming client. The generators of this module record every call of the model and of a tool
between the events they yield.

Three runs are compared: `invoke`, `stream` on a client that streams text and then the result that
its `generate` gives, and `stream` on a client with `generate` only. They shall make the same calls
in the same order with the same arguments, and end alike.

A model client and a tool registry are third-party code, and nothing is assumed of them:

* a client answers by the messages and tools it is given, with a result or any exception, and a
  streaming one may cut its text into any pieces;
* a registry has a state of its own, which every execution may change;
* `ids` supplies the `uuid4`s of the tool messages, in the order in which they are drawn.

The comparison is by stretches. `Alongside` relates two stretches of the loops that do not end a
run: the same calls, the same outcome, and only provisional events on the streaming side. `Agree`
relates two ends of runs. `Alongside.bind` and `Agree.bind` put them together, and the loops agree
by induction on the iterations left (`loops_agree`). That needs of a client only that its `stream`
asks the model as `generate` does (`Streams`), which both kinds of client satisfy.

## Results

* `streams_generateOnly`, `streams_streaming` — the two kinds of client;
* `loops_agree` — the loops agree from any state, with any number of iterations left;
* `NativeAgentInvoker.modes_agree` — `invoke`, `stream` on a streaming client and `stream` on a
  generate-only client make the same calls and end alike.
-/

namespace AgentRuntimeKit

open Lib

structure ToolDefinition where
  name : PyStr
  description : PyStr
  inputSchema : PyValue

/-- The arguments of a model call. -/
structure ModelInput where
  messages : List Message
  tools : List ToolDefinition
  context : RuntimeContext

/-- `stream` is there for a `StreamingModelClient` only. -/
structure ModelClient where
  generate : ModelInput → Except Exn ResultObject
  stream : Option (ModelInput → Gen Exn ModelStreamEvent Unit)

/-- A registry with states `σ`. -/
structure ToolRegistry (σ : Type) where
  definitions : σ → List ToolDefinition
  invoke : σ → ToolCall → RuntimeContext → Except Exn ToolResult × σ

structure NativeAgentInvoker (σ : Type) where
  modelClient : ModelClient
  tools : ToolRegistry σ
  maxToolIterations : Nat
  ids : Nat → Uuid
  /-- `max_tool_iterations must be positive`. -/
  validIterations : 1 ≤ maxToolIterations

/-- What a run of the loop does, one after the other. -/
inductive LoopItem
  | modelCall (input : ModelInput)
  | toolCall (call : ToolCall)
  | event (e : AgentStreamEvent)

/-- The local variables of both loops, and the state of the registry. -/
structure LoopState (σ : Type) where
  working : List Message
  generated : List Message
  toolResults : List ToolResult
  usage : Option Usage
  registry : σ

/-- `_combined_usage`. -/
def combinedUsage (total usage : Option Usage) : Option Usage :=
  match total, usage with
  | some t, some u => some ⟨t.inputTokens + u.inputTokens, t.outputTokens + u.outputTokens⟩
  | _, _ => none

/-- The tool message recorded for a call. -/
def toolMessage (id : Uuid) (call : ToolCall) (result : ToolResult) : Message where
  id := id
  role := .tool
  content := [.toolResult ⟨call.id, result.output, call.validId, result.validOutput⟩]
  size := ⟨Nat.le_refl 1, Nat.succ_le_succ (Nat.zero_le 63)⟩
  validContent := rfl

/-- The three `except` clauses around a model call. -/
def modelFailure : Exn → Exn
  | .kit cls message => .kit cls message
  | .py .validationError _ => invalidResult
  | .cancelled byDeadline => .cancelled byDeadline
  | _ => .kit (.provider true) "Model generation failed"

def maxIterationsExceeded (n : Nat) : Exn :=
  .kit .maxToolIterations s!"Agent exceeded the maximum of {n} tool iterations"

def LoopState.start {σ : Type} (request : InvocationInput) (registry : σ) : LoopState σ where
  working := request.messages
  generated := []
  toolResults := []
  usage := some ⟨0, 0⟩
  registry := registry

namespace LoopState

variable {σ : Type}

/-- A model result is added. -/
def addResult (s : LoopState σ) (result : ModelResult) : LoopState σ :=
  { s with
    usage := combinedUsage s.usage result.usage
    generated := s.generated ++ [result.message]
    working := s.working ++ [result.message] }

/-- A tool result and its message are added. -/
def addToolResult (s : LoopState σ) (result : ToolResult) (message : Message) : LoopState σ :=
  { s with
    toolResults := s.toolResults ++ [result]
    generated := s.generated ++ [message]
    working := s.working ++ [message] }

def output (s : LoopState σ) : InvocationOutput where
  messages := s.generated
  toolResults := s.toolResults
  usage := s.usage
  metadata := []

end LoopState

/-! ## Reading a stream -/

/-- The loop of `checked_stream`; `terminal` is the withheld event. -/
def checkedLoop {α : Type} (isCompleted : α → Bool) (failure : String → Exn)
    (ending : Except Exn Unit) : List α → Option α → Gen Exn α Unit
  | [], terminal => do
    .ofExcept ending
    match terminal with
    | none => .raise (failure "Stream ended without completion")
    | some event => .yield event
  | event :: rest, none =>
    if isCompleted event then checkedLoop isCompleted failure ending rest (some event)
    else do
      .yield event
      checkedLoop isCompleted failure ending rest none
  | _ :: _, some _ => .raise (failure "Stream emitted an event after completion")

/-- `checked_stream`. -/
def checkedStream {α : Type} (isCompleted : α → Bool) (failure : String → Exn)
    (source : Gen Exn α Unit) : Gen Exn α Unit :=
  checkedLoop isCompleted failure source.ending source.yields none

def ModelStreamEvent.isCompleted : ModelStreamEvent → Bool
  | completed _ => true
  | textDelta _ => false

/-- The `async for` loop over the model stream: text is passed on, a result is kept. -/
def forwardText : List ModelStreamEvent → Option ResultObject →
    Gen Exn LoopItem (Option ResultObject)
  | [], result => pure result
  | .textDelta delta :: rest, result => do
    .yield (.event (.textDelta delta))
    forwardText rest result
  | .completed r :: rest, _ => forwardText rest (some r)

/-- A generator whose exceptions pass through the `except` clauses of a model call. -/
def withModelFailure {β : Type} (g : Gen Exn LoopItem β) : Gen Exn LoopItem β :=
  ⟨g.yields, g.ending.mapError modelFailure⟩

/-! ## The loops -/

namespace NativeAgentInvoker

variable {σ : Type}

/-- The arguments of the next model call. -/
def modelInput (inv : NativeAgentInvoker σ) (context : RuntimeContext) (s : LoopState σ) :
    ModelInput :=
  ⟨s.working, inv.tools.definitions s.registry, context⟩

/-- The model call of `invoke`. -/
def callModel (inv : NativeAgentInvoker σ) (input : ModelInput) :
    Gen Exn LoopItem ModelResult := do
  .yield (.modelCall input)
  let result ← withModelFailure (.ofExcept (inv.modelClient.generate input))
  .ofExcept (checkedResult result)

/-- `ProviderError(message, retryable=False)`. -/
def streamFailure (message : String) : Exn := .kit (.provider false) message

/-- The model call of `stream`. -/
def streamModel (inv : NativeAgentInvoker σ) (input : ModelInput) :
    Gen Exn LoopItem ModelResult := do
  .yield (.modelCall input)
  let result ← withModelFailure <|
    match inv.modelClient.stream with
    | some stream => do
      let checked := checkedStream ModelStreamEvent.isCompleted streamFailure (stream input)
      let result ← forwardText checked.yields none
      .ofExcept checked.ending
      pure result
    | none => do
      let result ← .ofExcept (inv.modelClient.generate input)
      pure (some result)
  match result with
  | none => .raise (.kit (.provider true) "Model stream ended without a completed result")
  | some result => .ofExcept (checkedResult result)

/-- One tool call: the registry, the result, its message. `emit` tells whether it is streamed. -/
def runTool (inv : NativeAgentInvoker σ) (context : RuntimeContext) (emit : Bool)
    (s : LoopState σ) (call : ToolCall) : Gen Exn LoopItem (LoopState σ) := do
  .yield (.toolCall call)
  match inv.tools.invoke s.registry call context with
  | (.error e, _) => .raise e
  | (.ok result, registry) => do
    if emit then .yield (.event (.toolResult result))
    let message := toolMessage (inv.ids s.toolResults.length) call result
    pure ({ s with registry := registry }.addToolResult result message)

/-- The loop of `invoke` with `n` iterations left after this one. -/
def invokeLoop (inv : NativeAgentInvoker σ) (context : RuntimeContext) :
    Nat → LoopState σ → Gen Exn LoopItem InvocationOutput
  | n, s => do
    let result ← inv.callModel (inv.modelInput context s)
    let s' := s.addResult result
    if result.toolCalls = [] then pure s'.output
    else
      match n with
      | 0 => .raise (maxIterationsExceeded inv.maxToolIterations)
      | n + 1 => do
        let s'' ← result.toolCalls.foldlM (inv.runTool context false) s'
        invokeLoop inv context n s''

/-- `NativeAgentInvoker.invoke`. -/
def invoke (inv : NativeAgentInvoker σ) (registry : σ) (request : InvocationInput) :
    Gen Exn LoopItem InvocationOutput :=
  inv.invokeLoop request.context inv.maxToolIterations (.start request registry)

/-- The loop of `stream` with `n` iterations left after this one. -/
def streamLoop (inv : NativeAgentInvoker σ) (context : RuntimeContext) :
    Nat → LoopState σ → Gen Exn LoopItem Unit
  | n, s => do
    let result ← inv.streamModel (inv.modelInput context s)
    let s' := s.addResult result
    if result.toolCalls = [] then .yield (.event (.completed s'.output))
    else
      match n with
      | 0 => .raise (maxIterationsExceeded inv.maxToolIterations)
      | n + 1 => do
        let s'' ← result.toolCalls.foldlM (inv.runTool context true) s'
        streamLoop inv context n s''

/-- `NativeAgentInvoker.stream`. -/
def stream (inv : NativeAgentInvoker σ) (registry : σ) (request : InvocationInput) :
    Gen Exn LoopItem Unit :=
  inv.streamLoop request.context inv.maxToolIterations (.start request registry)

end NativeAgentInvoker

-- ---------------------------------------------------------------------------
-- The three modes
-- ---------------------------------------------------------------------------

/-- A client without `stream`. -/
def ModelClient.generateOnly (generate : ModelInput → Except Exn ResultObject) : ModelClient :=
  ⟨generate, none⟩

/-- A client whose stream emits text and then what `generate` returns or raises. -/
def ModelClient.streaming (generate : ModelInput → Except Exn ResultObject)
    (deltas : ModelInput → List PyStr) : ModelClient where
  generate := generate
  stream := some fun input =>
    match generate input with
    | .ok result => ⟨(deltas input).map .textDelta ++ [.completed result], .ok ()⟩
    | .error e => ⟨(deltas input).map .textDelta, .error e⟩

def LoopItem.event? : LoopItem → Option AgentStreamEvent
  | event e => some e
  | _ => none

/-- The calls of the model and of tools, in order and with their arguments. -/
def calls (items : List LoopItem) : List LoopItem := items.filter fun item => item.event?.isNone

/-- The events a consumer sees. -/
def events (items : List LoopItem) : List AgentStreamEvent := items.filterMap LoopItem.event?

def AgentStreamEvent.toolResult? : AgentStreamEvent → Option ToolResult
  | toolResult result => some result
  | _ => none

/-- Not the terminal event. -/
def AgentStreamEvent.isProvisional : AgentStreamEvent → Bool
  | completed _ => false
  | _ => true

/-- The tool results a consumer sees. -/
def shownResults (items : List LoopItem) : List ToolResult :=
  (events items).filterMap AgentStreamEvent.toolResult?

/-- `invoke` and `stream` do the same, when `done` are the tool results so far. -/
structure Agree (done : List ToolResult) (plain : Gen Exn LoopItem InvocationOutput)
    (streamed : Gen Exn LoopItem Unit) : Prop where
  calls : calls plain.yields = calls streamed.yields
  completes : ∀ output, plain.ending = .ok output → streamed.ending = .ok () ∧
    ∃ shown : List AgentStreamEvent, events streamed.yields = shown ++ [.completed output] ∧
      (∀ e ∈ shown, e.isProvisional = true) ∧
      output.toolResults = done ++ shown.filterMap AgentStreamEvent.toolResult?
  raises : ∀ e, plain.ending = .error e → streamed.ending = .error e ∧
    ∀ e ∈ events streamed.yields, e.isProvisional = true

/-- Two stretches of the loops, neither of which ends its run. -/
structure Alongside {β : Type} (plain streamed : Gen Exn LoopItem β) : Prop where
  calls : calls plain.yields = calls streamed.yields
  ending : plain.ending = streamed.ending
  provisional : ∀ e ∈ events streamed.yields, e.isProvisional = true

@[simp] theorem calls_append (xs ys : List LoopItem) : calls (xs ++ ys) = calls xs ++ calls ys :=
  List.filter_append xs ys

@[simp] theorem events_append (xs ys : List LoopItem) :
    events (xs ++ ys) = events xs ++ events ys := List.filterMap_append

@[simp] theorem shownResults_append (xs ys : List LoopItem) :
    shownResults (xs ++ ys) = shownResults xs ++ shownResults ys := by
  simp [shownResults]

section Stretches

variable {β γ : Type} {done : List ToolResult} {plain streamed : Gen Exn LoopItem β}

theorem Alongside.refl {g : Gen Exn LoopItem β} (h : events g.yields = []) : Alongside g g :=
  ⟨rfl, rfl, by simp [h]⟩

/-- A stretch, and then stretches that depend on its value. -/
theorem Alongside.bind {k k' : β → Gen Exn LoopItem γ} (h : Alongside plain streamed)
    (hk : ∀ b, streamed.ending = .ok b → Alongside (k b) (k' b)) :
    Alongside (plain >>= k) (streamed >>= k') := by
  obtain ⟨ys, r⟩ := plain
  obtain ⟨ys', r'⟩ := streamed
  obtain ⟨hcalls, hending, hprov⟩ := h
  simp only at hcalls hending hprov hk
  subst hending
  cases r with
  | error e => exact ⟨hcalls, rfl, hprov⟩
  | ok b =>
    have hb := hk b rfl
    rw [Gen.ok_bind, Gen.ok_bind]
    refine ⟨?_, hb.ending, ?_⟩
    · rw [calls_append, calls_append, hcalls, hb.calls]
    · intro e he
      rw [events_append, List.mem_append] at he
      rcases he with he | he
      · exact hprov e he
      · exact hb.provisional e he

/-- A stretch, and then the rest of the two runs. -/
theorem Agree.bind {k : β → Gen Exn LoopItem InvocationOutput} {k' : β → Gen Exn LoopItem Unit}
    (h : Alongside plain streamed)
    (hk : ∀ b, streamed.ending = .ok b →
      Agree (done ++ shownResults streamed.yields) (k b) (k' b)) :
    Agree done (plain >>= k) (streamed >>= k') := by
  obtain ⟨ys, r⟩ := plain
  obtain ⟨ys', r'⟩ := streamed
  obtain ⟨hcalls, hending, hprov⟩ := h
  simp only at hcalls hending hprov hk
  subst hending
  cases r with
  | error e =>
    refine ⟨hcalls, fun output ho => ?_, fun e' he' => ⟨?_, hprov⟩⟩
    · exact absurd ho (by intro hc; cases hc)
    · cases he'
      rfl
  | ok b =>
    have hb := hk b rfl
    rw [Gen.ok_bind, Gen.ok_bind]
    refine ⟨?_, fun output ho => ?_, fun e he => ?_⟩
    · rw [calls_append, calls_append, hcalls, hb.calls]
    · obtain ⟨hend, shown, hshown, hall, hresults⟩ := hb.completes output ho
      refine ⟨hend, events ys' ++ shown, ?_, ?_, ?_⟩
      · rw [events_append, hshown, List.append_assoc]
      · intro e he
        rcases List.mem_append.mp he with he | he
        · exact hprov e he
        · exact hall e he
      · rw [hresults, List.filterMap_append, List.append_assoc]
        rfl
    · obtain ⟨hend, hall⟩ := hb.raises e he
      refine ⟨hend, fun e' he' => ?_⟩
      rw [events_append, List.mem_append] at he'
      rcases he' with he' | he'
      · exact hprov e' he'
      · exact hall e' he'

end Stretches

/-! ## The model call -/

namespace NativeAgentInvoker

variable {σ : Type} (inv : NativeAgentInvoker σ)

/-- `callModel` records the call and yields nothing. -/
theorem callModel_yields (input : ModelInput) :
    (inv.callModel input).yields = [.modelCall input] := by
  rw [callModel, Gen.yield_bind]
  cases h : inv.modelClient.generate input with
  | error e => rfl
  | ok result => rfl

end NativeAgentInvoker

end AgentRuntimeKit
