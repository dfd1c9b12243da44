import AgentRuntimeKit.Adapters.Native
import AgentRuntimeKit.Hooks.Base
import AgentRuntimeKit.Lib.Except
import Mathlib.Data.List.Sort

/-!
# The tool registry

`tools/registry.py` and `tools/models.py`. Input models, handlers and hooks are code of the host,
whose state they change; `α` stands for the arguments that a validated input model hands to its
handler. A journal keeps the host's state and what the registry has run on it so far.

A handler that raises `TimeoutError`, or is still running when its time is up, ends in
`Exn.timeout`. Hooks hold the result object itself; `fields` reads what they have left in it.

## Results

* `ToolTable.definitions_perm` — the definitions do not depend on the order of registration.
* `Registry.invoke_exchange`   — the ways a call may go.
-/

namespace AgentRuntimeKit.Tools

open Lib

/-- What a handler returns: a value of JSON shape, or any other Python object. -/
inductive HandlerOutput
  | value (v : PyValue)
  | object

/-- `RegisteredTool`. -/
structure RegisteredTool (α σ : Type) where
  definition : ToolDefinition
  inputModel : JsonObject → Except Exn α
  handler : α → σ → Except Exn HandlerOutput × σ
  timeout : Int

/-- `_tools`. -/
structure ToolTable (α σ : Type) where
  tools : List (RegisteredTool α σ)
  unique : (tools.map fun tool => tool.definition.name).Nodup

/-- A name in a message. A lone surrogate cannot be shown. -/
def shown (name : PyStr) : String := name.toString?.getD "?"

namespace ToolTable

variable {α σ : Type}

def empty : ToolTable α σ := ⟨[], List.nodup_nil⟩

/-- `self._tools[name]`. -/
def find (table : ToolTable α σ) (name : PyStr) : Option (RegisteredTool α σ) :=
  table.tools.find? fun tool => tool.definition.name = name

/-- `register`. -/
def register (table : ToolTable α σ) (tool : RegisteredTool α σ) : Except Exn (ToolTable α σ) :=
  let name := tool.definition.name
  if h : name ∈ table.tools.map fun tool => tool.definition.name then
    .error (.kit .duplicateRegistration s!"Tool '{shown name}' is already registered")
  else if tool.timeout ≤ 0 then .error (.py .valueError "timeout_seconds must be positive")
  else if isToolName name && isStrField 1 2000 tool.definition.description then
    .ok ⟨table.tools ++ [tool], by
      rw [List.map_append]
      exact table.unique.append (List.nodup_singleton _) (by simpa using h)⟩
  else .error (invalid "ToolDefinition")

/-- `definitions`, in the order of their names. -/
def definitions (table : ToolTable α σ) : List ToolDefinition :=
  (table.tools.map RegisteredTool.definition).insertionSort fun a b => a.name ≤ b.name

end ToolTable

/-- The fields of a result object. Those of a `malformed` one are not of their types. -/
inductive ResultFields
  | fields (id : Uuid) (toolCallId toolName : PyStr) (status : ToolStatus) (output : PyValue)
      (errorCode : Option String)
  | malformed

/-- What the registry runs on its host. -/
inductive ToolEffect (α : Type)
  | hooks (event : HookEvent) (passed : Bool)
  | handler (toolName : PyStr) (arguments : α)

structure Journal (α σ : Type) where
  host : σ
  effects : List (ToolEffect α)

/-- `ToolRegistry`. Tools may be registered as the host goes on, and `draw` is its `uuid4`. -/
structure Registry (α σ : Type) where
  table : σ → ToolTable α σ
  hooks : Option (HookManager σ)
  draw : σ → Uuid × σ
  fields : σ → ToolResult → ResultFields

abbrev Hosted (α σ β : Type) := ExceptT Exn (StateM (Journal α σ)) β

/-! ## The steps of a call -/

def toolNotFound (name : PyStr) : Exn :=
  .kit .toolNotFound s!"Tool '{shown name}' is not registered"

def invalidArguments (name : PyStr) : Exn :=
  .kit .toolValidation s!"Arguments for tool '{shown name}' are invalid"

def invalidOutput (name : PyStr) : Exn :=
  .kit .toolExecution s!"Tool '{shown name}' returned an invalid JSON result"

/-- The two `except` clauses around the handler. -/
def executionFailure (name : PyStr) : Exn → Exn
  | .timeout => .kit .toolTimeout s!"Tool '{shown name}' timed out"
  | .kit .toolTimeout message => .kit .toolTimeout message
  | .cancelled byDeadline => .cancelled byDeadline
  | _ => .kit .toolExecution s!"Tool '{shown name}' failed"

section Steps

variable {α σ : Type}

/-- `validate_json_value(arguments)` and `input_model.model_validate(arguments)`. -/
def RegisteredTool.validate (tool : RegisteredTool α σ) (arguments : JsonObject) : Except Exn α :=
  if (PyValue.dict arguments).isJson then
    (tool.inputModel arguments).mapError fun e =>
      if e.isOneOf [.valueError] then invalidArguments tool.definition.name else e
  else .error (invalidArguments tool.definition.name)

/-- The event before a tool. -/
def beforeTool (name : PyStr) (arguments : JsonObject) (toolCallId : PyStr)
    (context : RuntimeContext) : HookEvent where
  phase := .beforeTool
  context := context
  messages := []
  toolName := some name
  toolCallId := some toolCallId
  toolArguments := some arguments
  toolResult := none

/-- The event after a tool. -/
def afterTool (name toolCallId : PyStr) (result : ToolResult) (context : RuntimeContext) :
    HookEvent where
  phase := .afterTool
  context := context
  messages := []
  toolName := some name
  toolCallId := some toolCallId
  toolArguments := none
  toolResult := some result

/-- `self._hooks.run(event)`, where there are hooks and a context. -/
def Registry.runHooks (registry : Registry α σ) (event : RuntimeContext → HookEvent) :
    Option RuntimeContext → Hosted α σ Unit
  | some context => fun j =>
    match registry.hooks with
    | some manager =>
      let (answer, host) := manager.run (event context) j.host
      (answer, ⟨host, j.effects ++ [.hooks (event context) answer.isOk]⟩)
    | none => (.ok (), j)
  | none => pure ()

/-- `asyncio.wait_for(execute(), timeout=tool.timeout_seconds)`. -/
def RegisteredTool.execute (tool : RegisteredTool α σ) (values : α) :
    Hosted α σ HandlerOutput := fun j =>
  let (answer, host) := tool.handler values j.host
  (answer.mapError (executionFailure tool.definition.name),
    ⟨host, j.effects ++ [.handler tool.definition.name values]⟩)

/-- `ToolResult(tool_call_id=…, tool_name=…, status="succeeded", output=…)`. -/
def Registry.newResult (registry : Registry α σ) (name toolCallId : PyStr)
    (output : HandlerOutput) : Hosted α σ ToolResult := fun j =>
  let (id, host) := registry.draw j.host
  match output with
  | .value v =>
    if h : v.isJson = true then
      (.ok ⟨id, toolCallId, name, .succeeded, v, none, h⟩, { j with host := host })
    else (.error (invalidOutput name), { j with host := host })
  | .object => (.error (invalidOutput name), { j with host := host })

/-- A result of these fields, if they are valid. -/
def snapshot (name : PyStr) : ResultFields → Except Exn ToolResult
  | .fields id toolCallId toolName status output errorCode =>
    if h : output.isJson = true then .ok ⟨id, toolCallId, toolName, status, output, errorCode, h⟩
    else .error (invalidOutput name)
  | .malformed => .error (invalidOutput name)

/-- The copy that is returned. -/
def Registry.copy (registry : Registry α σ) (name : PyStr) (result : ToolResult) :
    Hosted α σ ToolResult := fun j => (snapshot name (registry.fields j.host result), j)

/-- `self._tools[name]`. -/
def Registry.find (registry : Registry α σ) (name : PyStr) : Hosted α σ (RegisteredTool α σ) :=
  fun j =>
    match (registry.table j.host).find name with
    | some tool => (.ok tool, j)
    | none => (.error (toolNotFound name), j)

/-- `invoke`. -/
def Registry.invoke (registry : Registry α σ) (name : PyStr) (arguments : JsonObject)
    (toolCallId : PyStr) (context : Option RuntimeContext) : Hosted α σ ToolResult := do
  let tool ← registry.find name
  let values ← ExceptT.mk (pure (tool.validate arguments))
  registry.runHooks (beforeTool name arguments toolCallId) context
  let output ← tool.execute values
  let result ← registry.newResult name toolCallId output
  registry.runHooks (afterTool name toolCallId result) context
  registry.copy name result

/-- The registry that a native agent is given. It calls every tool with a context. -/
def Registry.tools (registry : Registry α σ) : ToolRegistry (Journal α σ) where
  definitions j := (registry.table j.host).definitions
  invoke j call context :=
    (registry.invoke call.name call.arguments call.id (some context)).run j

end Steps

-- ---------------------------------------------------------------------------
-- Definitions
-- ---------------------------------------------------------------------------

/-- The model sees the same definitions, in whatever order the tools were registered. -/
theorem ToolTable.definitions_perm {α σ : Type} {t t' : ToolTable α σ}
    (h : t.tools.Perm t'.tools) : t.definitions = t'.definitions := by
  have htotal : Std.Total fun a b : ToolDefinition => a.name ≤ b.name :=
    ⟨fun a b => le_total a.name b.name⟩
  have htrans : IsTrans ToolDefinition fun a b => a.name ≤ b.name :=
    ⟨fun _ _ _ hab hbc => le_trans hab hbc⟩
  have hsorted (u : ToolTable α σ) : u.definitions.Pairwise fun a b => a.name ≤ b.name :=
    List.pairwise_insertionSort _ _
  have hperm (u : ToolTable α σ) : u.definitions.Perm (u.tools.map RegisteredTool.definition) :=
    List.perm_insertionSort _ _
  have hboth : t.definitions.Perm t'.definitions :=
    (hperm t).trans ((h.map RegisteredTool.definition).trans (hperm t').symm)
  refine hboth.eq_of_pairwise (fun a b ha hb hab hba => ?_) (hsorted t) (hsorted t')
  -- two tools of one name are one tool
  have hname : a.name = b.name := le_antisymm hab hba
  obtain ⟨tool, htool, rfl⟩ := List.mem_map.mp ((hperm t).mem_iff.mp ha)
  obtain ⟨tool', htool', rfl⟩ := List.mem_map.mp ((hperm t').mem_iff.mp hb)
  rw [List.inj_on_of_nodup_map t.unique htool (h.mem_iff.mpr htool') hname]

-- ---------------------------------------------------------------------------
-- The ways of a call
-- ---------------------------------------------------------------------------

section Exchange

variable {α σ : Type}

/-- The hooks let the event pass, in some state of the host. -/
def Passes (manager : HookManager σ) (event : HookEvent) : Prop :=
  ∃ s s', manager.run event s = (.ok (), s')

/-- The arguments of the call are valid for its tool, and these are their values. -/
def Called (registry : Registry α σ) (call : ToolCall) (values : α) : Prop :=
  ∃ s tool, (registry.table s).find call.name = some tool ∧
    tool.validate call.arguments = .ok values

/-- A fresh result of the call. -/
structure IsResultOf (call : ToolCall) (result : ToolResult) : Prop where
  id : result.toolCallId = call.id
  name : result.toolName = call.name
  status : result.status = .succeeded

def before (call : ToolCall) (context : RuntimeContext) : HookEvent :=
  beforeTool call.name call.arguments call.id context

def after (call : ToolCall) (result : ToolResult) (context : RuntimeContext) : HookEvent :=
  afterTool call.name call.id result context

/-- What a call runs on the host, and how it ends. -/
inductive Exchange (registry : Registry α σ) (manager : HookManager σ) (context : RuntimeContext)
    (call : ToolCall) : List (ToolEffect α) → Except Exn ToolResult → Prop
  /-- There is no such tool, or the arguments are not valid for it. -/
  | refused {e : Exn} (hcause : e = toolNotFound call.name ∨
      ∃ tool : RegisteredTool α σ, tool.validate call.arguments = .error e) :
    Exchange registry manager context call [] (.error e)
  | blocked {e : Exn} {s s' : σ} (hblocked : manager.run (before call context) s = (.error e, s')) :
    Exchange registry manager context call [.hooks (before call context) false] (.error e)
  /-- The handler raises, or returns what is not JSON. -/
  | failed {e : Exn} {values : α} (hpass : Passes manager (before call context))
      (hcalled : Called registry call values)
      (hcause : e = invalidOutput call.name ∨ ∃ e', e = executionFailure call.name e') :
    Exchange registry manager context call
      [.hooks (before call context) true, .handler call.name values] (.error e)
  | withheld {e : Exn} {values : α} {s s' : σ} {result : ToolResult}
      (hpass : Passes manager (before call context)) (hcalled : Called registry call values)
      (hresult : IsResultOf call result)
      (hblocked : manager.run (after call result context) s = (.error e, s')) :
    Exchange registry manager context call
      [.hooks (before call context) true, .handler call.name values,
        .hooks (after call result context) false] (.error e)
  | returned {values : α} {s : σ} {result : ToolResult}
      (hpass : Passes manager (before call context)) (hcalled : Called registry call values)
      (hresult : IsResultOf call result) (hpassed : Passes manager (after call result context)) :
    Exchange registry manager context call
      [.hooks (before call context) true, .handler call.name values,
        .hooks (after call result context) true] (snapshot call.name (registry.fields s result))

variable {registry : Registry α σ} {manager : HookManager σ} {j j' : Journal α σ}

theorem ToolTable.name_of_find {table : ToolTable α σ} {name : PyStr} {tool : RegisteredTool α σ}
    (h : table.find name = some tool) : tool.definition.name = name := by
  unfold ToolTable.find at h
  have hname := List.find?_some h
  exact of_decide_eq_true hname

theorem Registry.runHooks_cases (hhooks : registry.hooks = some manager)
    {event : RuntimeContext → HookEvent} {context : RuntimeContext} {answer : Except Exn Unit}
    (h : (registry.runHooks event (some context)).run j = (answer, j')) :
    j'.effects = j.effects ++ [.hooks (event context) answer.isOk] ∧
      manager.run (event context) j.host = (answer, j'.host) := by
  have hrun : (registry.runHooks event (some context)).run j =
      ((manager.run (event context) j.host).1, ⟨(manager.run (event context) j.host).2,
        j.effects ++ [.hooks (event context) (manager.run (event context) j.host).1.isOk]⟩) := by
    show registry.runHooks event (some context) j = _
    rw [runHooks]
    simp only [hhooks]
  rw [hrun, Prod.mk.injEq] at h
  rw [← h.2, ← h.1]
  exact ⟨rfl, rfl⟩

theorem RegisteredTool.execute_cases {tool : RegisteredTool α σ} {values : α}
    {answer : Except Exn HandlerOutput} (h : (tool.execute values).run j = (answer, j')) :
    j'.effects = j.effects ++ [.handler tool.definition.name values] ∧
      ∀ e, answer = .error e → ∃ e', e = executionFailure tool.definition.name e' := by
  have hrun : (tool.execute values).run j =
      ((tool.handler values j.host).1.mapError (executionFailure tool.definition.name),
        ⟨(tool.handler values j.host).2,
          j.effects ++ [.handler tool.definition.name values]⟩) := rfl
  rw [hrun, Prod.mk.injEq] at h
  rw [← h.2, ← h.1]
  refine ⟨rfl, fun e he => ?_⟩
  cases hhandler : (tool.handler values j.host).1 with
  | ok output =>
    rw [hhandler] at he
    exact absurd he (by simp [Except.mapError])
  | error e' =>
    rw [hhandler] at he
    exact ⟨e', (Except.error.inj he).symm⟩

theorem Registry.newResult_cases {call : ToolCall} {output : HandlerOutput}
    {answer : Except Exn ToolResult}
    (h : (registry.newResult call.name call.id output).run j = (answer, j')) :
    j'.effects = j.effects ∧ ((answer = .error (invalidOutput call.name)) ∨
      ∃ result, answer = .ok result ∧ IsResultOf call result) := by
  have hrun : (registry.newResult call.name call.id output).run j =
      registry.newResult call.name call.id output j := rfl
  rw [hrun, newResult] at h
  cases output with
  | object =>
    rw [Prod.mk.injEq] at h
    rw [← h.2]
    exact ⟨rfl, Or.inl h.1.symm⟩
  | value v =>
    simp only at h
    split at h
    · rw [Prod.mk.injEq] at h
      rw [← h.2]
      exact ⟨rfl, Or.inr ⟨_, h.1.symm, rfl, rfl, rfl⟩⟩
    · rw [Prod.mk.injEq] at h
      rw [← h.2]
      exact ⟨rfl, Or.inl h.1.symm⟩

theorem Registry.find_cases {name : PyStr} {answer : Except Exn (RegisteredTool α σ)}
    (h : (registry.find name).run j = (answer, j')) : j' = j ∧
      (answer = .error (toolNotFound name) ∨
        ∃ tool, answer = .ok tool ∧ (registry.table j.host).find name = some tool) := by
  have hrun : (registry.find name).run j = registry.find name j := rfl
  rw [hrun, Registry.find] at h
  split at h
  · next tool hfind =>
    rw [Prod.mk.injEq] at h
    exact ⟨h.2.symm, Or.inr ⟨tool, h.1.symm, hfind⟩⟩
  · rw [Prod.mk.injEq] at h
    exact ⟨h.2.symm, Or.inl h.1.symm⟩

/-- Every call goes in one of these ways. -/
theorem Registry.invoke_exchange (hhooks : registry.hooks = some manager) {call : ToolCall}
    {context : RuntimeContext} {answer : Except Exn ToolResult}
    (h : registry.tools.invoke j call context = (answer, j')) :
    ∃ effects, j'.effects = j.effects ++ effects ∧
      Exchange registry manager context call effects answer := by
  have hinvoke : (registry.invoke call.name call.arguments call.id (some context)).run j =
      (answer, j') := h
  rw [invoke] at hinvoke
  rcases bind_run_cases hinvoke with ⟨e, hfind, rfl⟩ | ⟨tool, j₀, hfind, hcalled⟩
  · obtain ⟨rfl, hcause⟩ := find_cases hfind
    rcases hcause with hcause | ⟨tool, htool, -⟩
    · exact ⟨[], (List.append_nil _).symm, .refused (Or.inl (Except.error.inj hcause))⟩
    · exact absurd htool (by simp)
  obtain ⟨rfl, hcause⟩ := find_cases hfind
  obtain ⟨tool', htool, hfound⟩ := hcause.resolve_left (by simp)
  obtain rfl : tool = tool' := Except.ok.inj htool
  rcases bind_run_cases hcalled with ⟨e, hvalid, rfl⟩ | ⟨values, j₁, hvalid, hchecked⟩
  · obtain ⟨hcause, rfl⟩ := Prod.mk.inj hvalid
    exact ⟨[], (List.append_nil _).symm, .refused (Or.inr ⟨tool, hcause⟩)⟩
  obtain ⟨hvalues, rfl⟩ := Prod.mk.inj hvalid
  have hname := ToolTable.name_of_find hfound
  have hargs : Called registry call values := ⟨_, tool, hfound, hvalues⟩
  rcases bind_run_cases hchecked with ⟨e, hbefore, rfl⟩ | ⟨_, j₂, hbefore, hpassed⟩
  · obtain ⟨heffects, hrun⟩ := runHooks_cases hhooks hbefore
    exact ⟨_, heffects, .blocked hrun⟩
  obtain ⟨heffects, hrun⟩ := runHooks_cases hhooks hbefore
  have hpass : Passes manager (before call context) := ⟨_, _, hrun⟩
  rcases bind_run_cases hpassed with ⟨e, hexecute, rfl⟩ | ⟨output, j₃, hexecute, hdone⟩
  · obtain ⟨heffects', hcause⟩ := RegisteredTool.execute_cases hexecute
    rw [heffects, hname, List.append_assoc] at heffects'
    rw [hname] at hcause
    exact ⟨_, heffects', .failed hpass hargs (Or.inr (hcause e rfl))⟩
  obtain ⟨heffects', -⟩ := RegisteredTool.execute_cases hexecute
  rw [heffects, hname, List.append_assoc] at heffects'
  rcases bind_run_cases hdone with ⟨e, hnew, rfl⟩ | ⟨result, j₄, hnew, hmade⟩
  · obtain ⟨hsame, hcause⟩ := newResult_cases hnew
    rw [heffects'] at hsame
    rcases hcause with hcause | ⟨result, hresult, -⟩
    · exact ⟨_, hsame, .failed hpass hargs (Or.inl (Except.error.inj hcause))⟩
    · exact absurd hresult (by simp)
  obtain ⟨hsame, hcause⟩ := newResult_cases hnew
  obtain ⟨result', hok, hresult⟩ := hcause.resolve_left (by simp)
  obtain rfl : result = result' := Except.ok.inj hok
  rw [heffects'] at hsame
  rcases bind_run_cases hmade with ⟨e, hafter, rfl⟩ | ⟨_, j₅, hafter, hcopy⟩
  · obtain ⟨heffects'', hrun'⟩ := runHooks_cases hhooks hafter
    rw [hsame, List.append_assoc] at heffects''
    exact ⟨_, heffects'', .withheld hpass hargs hresult hrun'⟩
  obtain ⟨heffects'', hrun'⟩ := runHooks_cases hhooks hafter
  rw [hsame, List.append_assoc] at heffects''
  obtain ⟨rfl, rfl⟩ := Prod.mk.inj hcopy
  exact ⟨_, heffects'', .returned hpass hargs hresult ⟨_, _, hrun'⟩⟩

end Exchange

end AgentRuntimeKit.Tools
