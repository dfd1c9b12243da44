import AgentRuntimeKit.Adapters.NativeHistory
import AgentRuntimeKit.Tools.Registry

/-!
# Tools behind hooks

A native agent runs no tool, and uses no output of a tool, around the tool hooks of its registry:
whatever its model asks for, each handler that runs has its call passed by the hooks directly before
it, and each result that the model, the consumer of a stream or the caller gets to see has been
passed by the hooks after it.

The registry is that of `tools.py`: it validates the arguments, runs the hooks before the tool, then
the handler, then the hooks after it, and validates the result again. Nothing is assumed of the
hooks and handlers, which share a state of the host and may fail in any way, nor of the model
client. The one thing left out is that hooks may change the arguments or the result of the event
they are given, or what is nested in them: an event is a value here.

A journal records what runs on the host. Each call of a tool is one `Exchange`, in which hooks and
handler stand in order and as far as they get; the loop of the agent adds nothing to the journal in
between. So a run is the exchanges of its executed calls one after the other (`Mediated`), and what
the model sees are the results of these, by the history of the loop (`Adapters/NativeHistory`).

## Results

* `Run.inputs`, `loopWith_shows` — what the model and the consumer of a stream see of the tools.
* `gated_of_run`         — what a run does on the host.
* `Registry.mediates`    — a native agent on such a registry.
-/

namespace AgentRuntimeKit

open Lib

-- ---------------------------------------------------------------------------
-- Calls made one after the other
-- ---------------------------------------------------------------------------

section Answers

variable {σ : Type}

/-- The results of calls made one after the other, up to the first one that raises, and the registry
after that. -/
def ToolRegistry.answers (tools : ToolRegistry σ) (context : RuntimeContext) :
    σ → List ToolCall → List ToolResult × σ
  | registry, [] => ([], registry)
  | registry, call :: calls =>
    match tools.invoke registry call context with
    | (.ok result, next) =>
      (result :: (tools.answers context next calls).1, (tools.answers context next calls).2)
    | (.error _, next) => ([], next)

variable {tools : ToolRegistry σ} {context : RuntimeContext} {registry next : σ}

theorem ToolRegistry.answers_of_executes {calls : List ToolCall} {results : List ToolResult}
    (h : Executes tools context registry calls results next) (rest : List ToolCall) :
    tools.answers context registry (calls ++ rest) =
      (results ++ (tools.answers context next rest).1, (tools.answers context next rest).2) := by
  induction h with
  | nil registry => rfl
  | cons hinvoke _ ih =>
    rw [List.cons_append, answers, hinvoke]
    simp only [ih, List.cons_append]

theorem ToolRegistry.answers_of_error {call : ToolCall} {e : Exn}
    (h : (tools.invoke registry call context).1 = .error e) (rest : List ToolCall) :
    tools.answers context registry (call :: rest) =
      ([], (tools.invoke registry call context).2) := by
  rw [answers]
  cases hinvoke : tools.invoke registry call context with
  | mk answer next =>
    rw [hinvoke] at h
    rw [show answer = .error e from h]

theorem Executes.length_eq {calls : List ToolCall} {results : List ToolResult}
    (h : Executes tools context registry calls results next) : calls.length = results.length := by
  induction h with
  | nil => rfl
  | cons _ _ ih => rw [List.length_cons, List.length_cons, ih]

theorem mem_toolMessages {ids : Nat → Uuid} {m : Message} : ∀ {k : Nat} {calls : List ToolCall}
    {results : List ToolResult}, m ∈ toolMessages ids k calls results →
      ∃ p ∈ calls.zip results, IsAnswer p.1 p.2 m
  | k, call :: calls, result :: results, h => by
    rw [toolMessages, List.mem_cons] at h
    rcases h with rfl | h
    · refine ⟨(call, result), List.mem_cons_self, rfl, ?_⟩
      exact ⟨_, rfl, rfl, rfl⟩
    · obtain ⟨p, hp, hanswer⟩ := mem_toolMessages h
      exact ⟨p, List.mem_cons_of_mem _ hp, hanswer⟩
  | _, [], _, h => absurd h List.not_mem_nil
  | _, _ :: _, [], h => absurd h List.not_mem_nil

/-- What the model is given in a run: what was there before, its own messages, and the answers to
the calls of the run. -/
theorem Run.inputs {inv : NativeAgentInvoker σ} {model : ModelCall} {n : Nat} {s : LoopState σ}
    {items : List LoopItem} {outcome : Except Exn InvocationOutput}
    (h : Run inv context model n s items outcome) {input : ModelInput}
    (hinput : .modelCall input ∈ items) {m : Message} (hm : m ∈ input.messages) :
    m ∈ s.working ∨ m.role = .assistant ∨
      ∃ p ∈ (executedCalls items).zip
          (inv.tools.answers context s.registry (executedCalls items)).1,
        IsAnswer p.1 p.2 m := by
  have hfirst {input input' : ModelInput} (cs : List ToolCall)
      (h : LoopItem.modelCall input ∈ .modelCall input' :: cs.map .toolCall) : input = input' := by
    rcases List.mem_cons.mp h with heq | hcall
    · exact LoopItem.modelCall.inj heq
    · obtain ⟨call, -, heq⟩ := List.mem_map.mp hcall
      exact LoopItem.noConfusion heq
  induction h generalizing m with
  | rejected _ =>
    rw [hfirst [] hinput] at hm
    exact Or.inl hm
  | finished _ _ =>
    rw [hfirst [] hinput] at hm
    exact Or.inl hm
  | exceeded _ _ =>
    rw [hfirst [] hinput] at hm
    exact Or.inl hm
  | raised _ _ _ _ =>
    rw [hfirst _ hinput] at hm
    exact Or.inl hm
  | @round n s r results registry items outcome _ _ hexecutes _ ih =>
    rcases List.mem_append.mp hinput with hinput | hinput
    · rw [hfirst _ hinput] at hm
      exact Or.inl hm
    · rw [executed_round, ToolRegistry.answers_of_executes hexecutes,
        List.zip_append hexecutes.length_eq]
      rcases ih hinput hm with hm | hm | ⟨p, hp, hanswer⟩
      · rcases List.mem_append.mp hm with hm | hm
        · rcases List.mem_append.mp hm with hm | hm
          · exact Or.inl hm
          · rw [List.mem_singleton.mp hm]
            exact Or.inr (Or.inl r.assistant)
        · obtain ⟨p, hp, hanswer⟩ := mem_toolMessages hm
          exact Or.inr (Or.inr ⟨p, List.mem_append_left _ hp, hanswer⟩)
      · exact Or.inr (Or.inl hm)
      · exact Or.inr (Or.inr ⟨p, List.mem_append_right _ hp, hanswer⟩)

/-- The results of a run are those of its calls. -/
theorem Run.results {inv : NativeAgentInvoker σ} {model : ModelCall} {n : Nat} {s : LoopState σ}
    {items : List LoopItem} {outcome : Except Exn InvocationOutput}
    (h : Run inv context model n s items outcome) {output : InvocationOutput}
    (hok : outcome = .ok output) : output.toolResults = s.toolResults ++
      (inv.tools.answers context s.registry (executedCalls items)).1 := by
  induction h with
  | rejected _ => cases hok
  | @finished n s r _ _ =>
    cases hok
    exact (List.append_nil _).symm
  | exceeded _ _ => cases hok
  | raised _ _ _ _ => cases hok
  | @round n s r results registry items outcome _ _ hexecutes _ ih =>
    rw [ih hok, executed_round, ToolRegistry.answers_of_executes hexecutes]
    exact List.append_assoc _ _ _

end Answers

-- ---------------------------------------------------------------------------
-- What a stream shows
-- ---------------------------------------------------------------------------

section Shown

namespace NativeAgentInvoker

variable {σ : Type} (inv : NativeAgentInvoker σ) (context : RuntimeContext)

/-- These items show the results of their calls, from this state of the registry on. -/
def Shows (tools : ToolRegistry σ) (context : RuntimeContext) (registry : σ)
    (items : List LoopItem) : Prop :=
  shownResults items = (tools.answers context registry (executedCalls (calls items))).1

/-- A model call that shows nothing. -/
theorem shows_modelCall {tools : ToolRegistry σ} {registry : σ} {items : List LoopItem}
    {input : ModelInput} (hcalls : calls items = [.modelCall input])
    (hshown : shownResults items = []) : Shows tools context registry items := by
  rw [Shows, hcalls, hshown]
  rfl

/-- The tools of one result, and what comes after them. -/
theorem runTools_shows {β : Type} {f : LoopState σ → Gen Exn LoopItem β}
    (hf : ∀ s, Shows inv.tools context s.registry (f s).yields) (cs : List ToolCall)
    (s : LoopState σ) : Shows inv.tools context s.registry
      (cs.foldlM (inv.runTool context true) s >>= f).yields := by
  induction cs generalizing s with
  | nil => exact hf s
  | cons call cs ih =>
    rw [List.foldlM_cons, bind_assoc]
    cases hinvoke : inv.tools.invoke s.registry call context with
    | mk answer registry =>
      cases answer with
      | error e =>
        have hrun : inv.runTool context true s call = ⟨[.toolCall call], .error e⟩ := by
          rw [runTool, hinvoke]
          rfl
        rw [hrun]
        show [] = (inv.tools.answers context s.registry [call]).1
        rw [ToolRegistry.answers, hinvoke]
      | ok result =>
        have hrun : inv.runTool context true s call =
            ⟨[.toolCall call, .event (.toolResult result)],
              .ok ({ s with registry := registry }.addToolResult result
                (toolMessage (inv.ids s.toolResults.length) call result))⟩ := by
          rw [runTool, hinvoke]
          rfl
        have hrest := ih ({ s with registry := registry }.addToolResult result
          (toolMessage (inv.ids s.toolResults.length) call result))
        rw [hrun, Gen.ok_bind]
        show result :: shownResults _ = (inv.tools.answers context s.registry (call :: _)).1
        rw [ToolRegistry.answers, hinvoke]
        exact congrArg (result :: ·) hrest

variable {inv context} {β : Type} {model : ModelCall}
  {finish : InvocationOutput → Gen Exn LoopItem β}

/-- A loop that streams its tool results shows those of its calls, however it ends. -/
theorem loopWith_shows (hmodel : ∀ input, calls (model input).yields = [.modelCall input])
    (hquiet : ∀ input, shownResults (model input).yields = [])
    (hfinish : ∀ output, calls (finish output).yields = [] ∧
      shownResults (finish output).yields = [])
    (n : Nat) (s : LoopState σ) : Shows inv.tools context s.registry
      (inv.loopWith context model true finish n s).yields := by
  have hrejected {n : Nat} {s : LoopState σ} {e : Exn}
      (hend : (model (inv.modelInput context s)).ending = .error e) :
      Shows inv.tools context s.registry (inv.loopWith context model true finish n s).yields := by
    rw [(loopWith_error n hend).1]
    exact shows_modelCall context (hmodel _) (hquiet _)
  have hfinished {n : Nat} {s : LoopState σ} {r : ModelResult}
      (hend : (model (inv.modelInput context s)).ending = .ok r) (hcalls : r.toolCalls = []) :
      Shows inv.tools context s.registry (inv.loopWith context model true finish n s).yields := by
    rw [(loopWith_finished n hend hcalls).1]
    have hcalls' : calls ((model (inv.modelInput context s)).yields ++
        (finish (s.addResult r).output).yields) = [.modelCall (inv.modelInput context s)] := by
      rw [calls_append, hmodel, (hfinish _).1, List.append_nil]
    refine shows_modelCall context hcalls' ?_
    rw [shownResults_append, hquiet, (hfinish _).2, List.append_nil]
  induction n generalizing s with
  | zero =>
    cases hend : (model (inv.modelInput context s)).ending with
    | error e => exact hrejected hend
    | ok r =>
      by_cases hcalls : r.toolCalls = []
      · exact hfinished hend hcalls
      · rw [(loopWith_exceeded hend hcalls).1]
        exact shows_modelCall context (hmodel _) (hquiet _)
  | succ n ih =>
    cases hend : (model (inv.modelInput context s)).ending with
    | error e => exact hrejected hend
    | ok r =>
      by_cases hcalls : r.toolCalls = []
      · exact hfinished hend hcalls
      · have htools := inv.runTools_shows context ih r.toolCalls (s.addResult r)
        rw [(loopWith_tools n hend hcalls).1, Shows, calls_append, shownResults_append, hmodel,
          hquiet]
        exact htools

end NativeAgentInvoker

end Shown

-- ---------------------------------------------------------------------------
-- The gate
-- ---------------------------------------------------------------------------

namespace Tools

variable {α σ : Type}

/-- The calls of a run, what they run on the host, and their results. Only the last call may
raise. -/
inductive Exchanges (registry : Registry α σ) (manager : HookManager σ) (context : RuntimeContext) :
    List ToolCall → List (ToolEffect α) → List ToolResult → Prop
  | nil : Exchanges registry manager context [] [] []
  | raised {call : ToolCall} {effects : List (ToolEffect α)} {e : Exn} :
    Exchange registry manager context call effects (.error e) →
      Exchanges registry manager context [call] effects []
  | returned {call : ToolCall} {effects rest : List (ToolEffect α)} {result : ToolResult}
      {calls : List ToolCall} {results : List ToolResult} :
    Exchange registry manager context call effects (.ok result) →
      Exchanges registry manager context calls rest results →
        Exchanges registry manager context (call :: calls) (effects ++ rest) (result :: results)

/-- Calls from this journal on. -/
def Gated (registry : Registry α σ) (manager : HookManager σ) (context : RuntimeContext)
    (j : Journal α σ) (calls : List ToolCall) : Prop :=
  ∃ effects, (registry.tools.answers context j calls).2.effects = j.effects ++ effects ∧
    Exchanges registry manager context calls effects (registry.tools.answers context j calls).1

variable {registry : Registry α σ} {manager : HookManager σ} {context : RuntimeContext}
  {j j' : Journal α σ}

theorem Gated.nil : Gated registry manager context j [] := ⟨[], (List.append_nil _).symm, .nil⟩

theorem Gated.raised (hhooks : registry.hooks = some manager) {call : ToolCall} {e : Exn}
    (h : (registry.tools.invoke j call context).1 = .error e) :
    Gated registry manager context j [call] := by
  cases hinvoke : registry.tools.invoke j call context with
  | mk answer j' =>
    obtain ⟨effects, heffects, hexchange⟩ := Registry.invoke_exchange hhooks hinvoke
    rw [hinvoke] at h
    rw [show answer = .error e from h] at hexchange
    refine ⟨effects, ?_, ?_⟩
    · rw [ToolRegistry.answers_of_error (by rw [hinvoke]; exact h), hinvoke]
      exact heffects
    · rw [ToolRegistry.answers_of_error (by rw [hinvoke]; exact h)]
      exact .raised hexchange

theorem Gated.executes (hhooks : registry.hooks = some manager) {calls rest : List ToolCall}
    {results : List ToolResult} (h : Executes registry.tools context j calls results j')
    (hrest : Gated registry manager context j' rest) :
    Gated registry manager context j (calls ++ rest) := by
  induction h with
  | nil => exact hrest
  | @cons j next last call result calls results hinvoke _ ih =>
    obtain ⟨effects, heffects, hexchange⟩ := Registry.invoke_exchange hhooks hinvoke
    obtain ⟨effects', heffects', hexchanges⟩ := ih hrest
    refine ⟨effects ++ effects', ?_, ?_⟩
    · rw [List.cons_append, ToolRegistry.answers, hinvoke]
      simp only [heffects', heffects, List.append_assoc]
    · rw [List.cons_append, ToolRegistry.answers, hinvoke]
      exact .returned hexchange hexchanges

/-- The calls of a run go through the gate. -/
theorem gated_of_run (hhooks : registry.hooks = some manager)
    {inv : NativeAgentInvoker (Journal α σ)} (htools : inv.tools = registry.tools)
    {model : ModelCall} {n : Nat} {s : LoopState (Journal α σ)} {items : List LoopItem}
    {outcome : Except Exn InvocationOutput} (h : Run inv context model n s items outcome) :
    Gated registry manager context s.registry (executedCalls items) := by
  induction h with
  | rejected _ => exact .nil
  | finished _ _ => exact .nil
  | exceeded _ _ => exact .nil
  | @raised n s r before after call results j e _ _ hexecutes hfail =>
    rw [htools] at hexecutes hfail
    have hexecuted := Run.executed_round (inv.modelInput context s) (before ++ [call]) []
    rw [List.append_nil, show executedCalls [] = [] from rfl, List.append_nil] at hexecuted
    rw [hexecuted]
    exact (Gated.raised hhooks hfail).executes hhooks hexecutes
  | round _ _ hexecutes _ ih =>
    rw [htools] at hexecutes
    rw [Run.executed_round]
    exact ih.executes hhooks hexecutes

section Exchanges

variable {calls : List ToolCall} {effects : List (ToolEffect α)} {results : List ToolResult}

/-- A handler that has run. -/
theorem Exchange.handled {call : ToolCall} {answer : Except Exn ToolResult}
    (h : Exchange registry manager context call effects answer) {name : PyStr} {values : α}
    (hmem : .handler name values ∈ effects) : name = call.name ∧
      Passes manager (before call context) ∧ Called registry call values := by
  cases h with
  | refused _ => exact absurd hmem List.not_mem_nil
  | blocked _ => exact absurd hmem (by simp)
  | failed hpass hcalled _ =>
    obtain ⟨rfl, rfl⟩ : name = call.name ∧ values = _ := by simpa using hmem
    exact ⟨rfl, hpass, hcalled⟩
  | withheld hpass hcalled _ _ =>
    obtain ⟨rfl, rfl⟩ : name = call.name ∧ values = _ := by simpa using hmem
    exact ⟨rfl, hpass, hcalled⟩
  | returned hpass hcalled _ _ =>
    obtain ⟨rfl, rfl⟩ : name = call.name ∧ values = _ := by simpa using hmem
    exact ⟨rfl, hpass, hcalled⟩

/-- A result that is what the hooks have left of one that they passed. -/
def Released (registry : Registry α σ) (manager : HookManager σ) (context : RuntimeContext)
    (call : ToolCall) (result : ToolResult) : Prop :=
  ∃ s original, IsResultOf call original ∧ Passes manager (after call original context) ∧
    snapshot call.name (registry.fields s original) = .ok result

theorem Exchange.released {call : ToolCall} {result : ToolResult}
    (h : Exchange registry manager context call effects (.ok result)) :
    Released registry manager context call result := by
  obtain ⟨answer, hanswer⟩ : ∃ answer : Except Exn ToolResult, answer = .ok result := ⟨_, rfl⟩
  rw [← hanswer] at h
  cases h with
  | returned _ _ hresult hpassed => exact ⟨_, _, hresult, hpassed, hanswer⟩
  | _ => exact absurd hanswer (by simp)

theorem Exchanges.handled (h : Exchanges registry manager context calls effects results)
    {name : PyStr} {values : α} (hmem : .handler name values ∈ effects) :
    ∃ call ∈ calls, name = call.name ∧ Passes manager (before call context) ∧
      Called registry call values := by
  induction h with
  | nil => exact absurd hmem List.not_mem_nil
  | raised hexchange => exact ⟨_, List.mem_cons_self, hexchange.handled hmem⟩
  | returned hexchange _ ih =>
    rcases List.mem_append.mp hmem with hmem | hmem
    · exact ⟨_, List.mem_cons_self, hexchange.handled hmem⟩
    · obtain ⟨call, hcall, hhandled⟩ := ih hmem
      exact ⟨call, List.mem_cons_of_mem _ hcall, hhandled⟩

theorem Exchanges.released (h : Exchanges registry manager context calls effects results) :
    ∀ p ∈ calls.zip results, Released registry manager context p.1 p.2 := by
  induction h with
  | nil => exact fun p hp => absurd hp List.not_mem_nil
  | raised _ => exact fun p hp => absurd hp List.not_mem_nil
  | returned hexchange _ ih =>
    intro p hp
    rcases List.mem_cons.mp hp with rfl | hp
    · exact hexchange.released
    · exact ih p hp

end Exchanges

/-- What the calls of a run have run on the host. -/
def Registry.effects (registry : Registry α σ) (context : RuntimeContext) (host : σ)
    (items : List LoopItem) : List (ToolEffect α) :=
  (registry.tools.answers context ⟨host, []⟩ (executedCalls items)).2.effects

/-- A run with these items, and with these results for those who see them. -/
structure Mediated (registry : Registry α σ) (manager : HookManager σ) (host : σ)
    (request : InvocationInput) (items : List LoopItem) (results : List ToolResult) : Prop where
  exchanges : Exchanges registry manager request.context (executedCalls items)
    (registry.effects request.context host items) results
  /-- A handler runs for a call that the hooks have passed, with its valid arguments. -/
  handled : ∀ name values, .handler name values ∈ registry.effects request.context host items →
    ∃ call ∈ executedCalls items, name = call.name ∧
      Passes manager (before call request.context) ∧ Called registry call values
  /-- A result has been passed by the hooks. -/
  released : ∀ p ∈ (executedCalls items).zip results,
    Released registry manager request.context p.1 p.2
  /-- The model sees the request, its own messages, and such results. -/
  inputs : ∀ input, .modelCall input ∈ items → ∀ m ∈ input.messages, m ∈ request.messages ∨
    m.role = .assistant ∨ ∃ p ∈ (executedCalls items).zip results, IsAnswer p.1 p.2 m

theorem mediated_of_run (hhooks : registry.hooks = some manager)
    {inv : NativeAgentInvoker (Journal α σ)} (htools : inv.tools = registry.tools)
    {model : ModelCall} {host : σ} {request : InvocationInput} {items : List LoopItem}
    {outcome : Except Exn InvocationOutput}
    (h : Run inv request.context model inv.maxToolIterations (.start request ⟨host, []⟩) items
      outcome) :
    Mediated registry manager host request items
      (registry.tools.answers request.context ⟨host, []⟩ (executedCalls items)).1 := by
  obtain ⟨effects, heffects, hexchanges⟩ := gated_of_run hhooks htools h
  have hall : registry.effects request.context host items = effects := heffects
  exact {
    exchanges := by
      rw [hall]
      exact hexchanges
    handled := fun name values hmem => by
      rw [hall] at hmem
      exact hexchanges.handled hmem
    released := hexchanges.released
    inputs := fun input hinput m hm => by
      rw [← htools]
      exact h.inputs hinput hm }

end Tools

namespace NativeAgentInvoker

variable {σ : Type} (inv : NativeAgentInvoker σ)

theorem run_of_invoke (registry : σ) (request : InvocationInput) :
    Run inv request.context inv.callModel inv.maxToolIterations (.start request registry)
      (calls (inv.invoke registry request).yields) (inv.invoke registry request).ending := by
  have hmodel (input : ModelInput) : calls (inv.callModel input).yields = [.modelCall input] := by
    rw [callModel_yields]
    rfl
  obtain ⟨outcome, hrun, hends⟩ : ∃ outcome, Run inv request.context inv.callModel
      inv.maxToolIterations (.start request registry) (calls (inv.invoke registry request).yields)
        outcome ∧ EndsWith pure (inv.invoke registry request) outcome := by
    rw [invoke, invokeLoop_eq]
    exact inv.run_of_loopWith _ hmodel (fun _ => rfl) _ _
  have hending : (inv.invoke registry request).ending = outcome := by
    cases outcome with
    | error e => exact hends.raised e rfl
    | ok output => exact (hends.finished output rfl).2
  rw [hending]
  exact hrun

theorem run_of_stream (registry : σ) (request : InvocationInput) : ∃ outcome,
    Run inv request.context inv.streamModel inv.maxToolIterations (.start request registry)
        (calls (inv.stream registry request).yields) outcome ∧
      EndsWith (fun output => .yield (.event (.completed output))) (inv.stream registry request)
        outcome := by
  rw [stream, streamLoop_eq]
  exact inv.run_of_loopWith _ inv.calls_streamModel (fun _ => rfl) _ _

theorem shown_forwardText (shown : List ModelStreamEvent) (result : Option ResultObject) :
    shownResults (forwardText shown result).yields = [] := by
  induction shown generalizing result with
  | nil => rfl
  | cons event rest ih =>
    cases event with
    | textDelta delta => exact ih result
    | completed r => exact ih (some r)

/-- The model call of a stream shows no tool results. -/
theorem shown_streamModel (input : ModelInput) :
    shownResults (inv.streamModel input).yields = [] := by
  have hbind {β γ : Type} {m : Gen Exn LoopItem β} {f : β → Gen Exn LoopItem γ}
      (hm : shownResults m.yields = []) (hf : ∀ b, shownResults (f b).yields = []) :
      shownResults (m >>= f).yields = [] := by
    obtain ⟨ys, r⟩ := m
    cases r with
    | error e => exact hm
    | ok b =>
      rw [Gen.ok_bind, shownResults_append, hf b, List.append_nil]
      exact hm
  rw [streamModel]
  refine hbind rfl fun _ => hbind ?_ fun result => ?_
  · rw [withModelFailure]
    cases inv.modelClient.stream with
    | some stream => exact hbind (shown_forwardText _ none) fun result => hbind rfl fun _ => rfl
    | none => exact hbind rfl fun result => rfl
  · cases result with
    | none => rfl
    | some result => rfl

/-- A stream shows the results of its calls. -/
theorem shown_stream (registry : σ) (request : InvocationInput) :
    shownResults (inv.stream registry request).yields =
      (inv.tools.answers request.context registry
        (executedCalls (calls (inv.stream registry request).yields))).1 := by
  rw [stream, streamLoop_eq]
  exact loopWith_shows inv.calls_streamModel inv.shown_streamModel (fun _ => ⟨rfl, rfl⟩) _ _

end NativeAgentInvoker

namespace Tools

variable {α σ : Type}

/-- A native agent whose tools are behind hooks: the runs of `invoke` and of `stream`, with any
model client and from any state of the host. Hooks observe their event and pass or raise; hooks that
change the arguments or the result in it, at any depth, are left out. -/
theorem Registry.mediates {registry : Registry α σ} {manager : HookManager σ}
    (hhooks : registry.hooks = some manager) {inv : NativeAgentInvoker (Journal α σ)}
    (htools : inv.tools = registry.tools) (host : σ) (request : InvocationInput) :
    (∃ results, Mediated registry manager host request
        (calls (inv.invoke ⟨host, []⟩ request).yields) results ∧
      ∀ output, (inv.invoke ⟨host, []⟩ request).ending = .ok output →
        output.toolResults = results) ∧
    Mediated registry manager host request (calls (inv.stream ⟨host, []⟩ request).yields)
        (shownResults (inv.stream ⟨host, []⟩ request).yields) ∧
      ((inv.stream ⟨host, []⟩ request).ending = .ok () → ∃ output,
        [.event (.completed output)] <:+ (inv.stream ⟨host, []⟩ request).yields ∧
          output.toolResults = shownResults (inv.stream ⟨host, []⟩ request).yields) := by
  have hinvoke := inv.run_of_invoke ⟨host, []⟩ request
  obtain ⟨outcome, hstream, hends⟩ := inv.run_of_stream ⟨host, []⟩ request
  have hshown := inv.shown_stream ⟨host, []⟩ request
  refine ⟨⟨_, mediated_of_run hhooks htools hinvoke, fun output hok => ?_⟩, ?_, fun hok => ?_⟩
  · rw [hinvoke.results hok, ← htools]
    rfl
  · rw [hshown, htools]
    exact mediated_of_run hhooks htools hstream
  · cases houtcome : outcome with
    | error e =>
      rw [hends.raised e houtcome] at hok
      exact absurd hok (by simp)
    | ok output =>
      refine ⟨output, (hends.finished output houtcome).1, ?_⟩
      rw [hstream.results houtcome, hshown]
      rfl

end Tools

namespace Sample

open Tools

/-- A tool that counts its runs. -/
def counter : RegisteredTool Unit Nat where
  definition := ⟨[97], [97], .none⟩
  inputModel _ := .ok ()
  handler _ n := (.ok (.value (.int n)), n + 1)
  timeout := 1

def counters : ToolTable Unit Nat := ⟨[counter], List.nodup_singleton _⟩

/-- A hook that blocks the tool after its first run. -/
def once : LifecycleHook Nat where
  name := "once"
  handle event n :=
    if event.phase = .beforeTool ∧ 1 ≤ n then (.error (.py .runtimeError "once"), n)
    else (.ok (), n)

def counting : Registry Unit Nat where
  table _ := counters
  hooks := some ⟨[once]⟩
  draw n := (0, n)
  fields _ result := .fields result.id result.toolCallId result.toolName result.status result.output
    result.errorCode

theorem two_iterations : 1 ≤ 2 := Nat.le_succ 1

/-- An agent whose model always asks for the tool. -/
def persistent : NativeAgentInvoker (Journal Unit Nat) where
  modelClient := .generateOnly fun _ => .ok (.fields asking asking.toolCalls none)
  tools := counting.tools
  maxToolIterations := 2
  ids k := .ofNat 128 k
  validIterations := two_iterations

end Sample

/-- The tool runs once, and its second call is blocked. -/
theorem Sample.mediates_persistent :
    (shownResults (Sample.persistent.stream ⟨0, []⟩ Sample.plainRequest).yields).length = 1 ∧
    (Sample.counting.effects Sample.plainRequest.context 0
      (calls (Sample.persistent.stream ⟨0, []⟩ Sample.plainRequest).yields)).length = 4 ∧
    Tools.Mediated Sample.counting ⟨[Sample.once]⟩ 0 Sample.plainRequest
      (calls (Sample.persistent.stream ⟨0, []⟩ Sample.plainRequest).yields)
      (shownResults (Sample.persistent.stream ⟨0, []⟩ Sample.plainRequest).yields) := by
  have hmediated := (Tools.Registry.mediates
    (show Sample.counting.hooks = some ⟨[Sample.once]⟩ from rfl)
    (show Sample.persistent.tools = Sample.counting.tools from rfl) 0 Sample.plainRequest).2.1
  exact ⟨rfl, rfl, hmediated⟩

end AgentRuntimeKit
