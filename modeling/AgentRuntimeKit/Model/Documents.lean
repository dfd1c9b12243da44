import AgentRuntimeKit.Lib.JsonObject
import AgentRuntimeKit.Lib.JsonText
import AgentRuntimeKit.Lib.Lossless
import AgentRuntimeKit.Lib.Utf8
import AgentRuntimeKit.Lib.UuidText
import AgentRuntimeKit.Model.Messages
import Mathlib.Data.Finset.Sort
import Mathlib.Data.String.Basic

/-!
# Stored documents

The JSON documents of the canonical models. `modelDump` is the document that
`model_dump(mode="json")` writes; it raises `ValueError` where a value of type `Any` (an argument
of a tool call, a result, an output, a value of the metadata) nests too deeply, and `modelDump?`
says so. `modelValidate` is `model_validate` of such a document, with its defaults and with
`extra="forbid"`. Two things that no dumped document needs are left out: the coercions of
pydantic's lax mode, and the identifier drawn where a document has none.

A response is accepted (`RuntimeResponse.Accepted`) if its constructors take it and `complete`
can dump it. Of such a response everything but the metadata is read back as it was: tool payloads
have been checked by `validate_json_value`, texts and identifiers are strings, the capabilities are
a set that is written in order. The metadata has been checked by `json.dumps` alone, which takes
tuples, non-finite floats and keys of other scalars, and `model_dump` rewrites exactly these. So
the proof of the main result goes through the fields one by one and ends at
`PyValue.jsonForm_eq_iff`: a value equals what it serializes to if and only if it is lossless.

## Results

* `RuntimeResponse.modelValidate_modelDump` — what is read back from the document of a response
  is `RuntimeResponse.jsonForm`, if its metadata is still accepted.
* `RuntimeResponse.stored_faithful` — it equals the response if and only if the metadata is
  lossless JSON.
-/

namespace AgentRuntimeKit

open Lib
open PyValue (object field fieldsOf asLiteral asOptional asText)

/-! ## Parts and messages -/

def ToolCall.modelDump (c : ToolCall) : PyValue :=
  object [("id", .str c.id), ("name", .str c.name),
    ("arguments", (PyValue.dict c.arguments).jsonForm)]

def ToolCall.modelValidate (v : PyValue) : Option ToolCall := do
  let fields ← fieldsOf ["id", "name", "arguments"] v
  let id ← (← field "id" fields).asStr
  let name ← (← field "name" fields).asStr
  let arguments ← ((field "arguments" fields).getD (.dict [])).asDict
  if h : isStrField 1 256 id = true ∧ isToolName name = true ∧
      (PyValue.dict arguments).isJson = true then
    some ⟨id, name, arguments, h.1, h.2.1, h.2.2⟩
  else none

def ContentPart.modelDump : ContentPart → PyValue
  | text part => object [("type", PyValue.text "text"), ("text", .str part.text)]
  | toolCall call => object [("type", PyValue.text "tool_call"), ("tool_call", call.modelDump)]
  | toolResult part => object [("type", PyValue.text "tool_result"),
      ("tool_call_id", .str part.toolCallId), ("result", part.result.jsonForm)]

def TextContent.modelValidate (v : PyValue) : Option TextContent := do
  let fields ← fieldsOf ["type", "text"] v
  let text ← (← field "text" fields).asStr
  if h : isStrField 1 32000 text = true then some ⟨text, h⟩ else none

def ToolCallContent.modelValidate (v : PyValue) : Option ToolCall := do
  let fields ← fieldsOf ["type", "tool_call"] v
  ToolCall.modelValidate (← field "tool_call" fields)

def ToolResultContent.modelValidate (v : PyValue) : Option ToolResultContent := do
  let fields ← fieldsOf ["type", "tool_call_id", "result"] v
  let id ← (← field "tool_call_id" fields).asStr
  let result ← field "result" fields
  if h : isStrField 1 256 id = true ∧ result.isJson = true then some ⟨id, result, h.1, h.2⟩
  else none

/-- The reader of a part, chosen by its discriminator. -/
def ContentPart.modelValidate (v : PyValue) : Option ContentPart := do
  let tag ← (← field "type" (← v.asDict)).asText
  match tag with
  | "text" => (TextContent.modelValidate v).map .text
  | "tool_call" => (ToolCallContent.modelValidate v).map .toolCall
  | "tool_result" => (ToolResultContent.modelValidate v).map .toolResult
  | _ => none

def Role.value : Role → String
  | system => "system"
  | user => "user"
  | assistant => "assistant"
  | tool => "tool"

def Role.literals : List (String × Role) :=
  [("system", .system), ("user", .user), ("assistant", .assistant), ("tool", .tool)]

def uuidValue (u : Uuid) : PyValue := .str (uuidText u)

def asUuid (v : PyValue) : Option Uuid := v.asStr.bind readUuid

def Message.modelDump (m : Message) : PyValue :=
  object [("id", uuidValue m.id), ("role", PyValue.text m.role.value),
    ("content", .list (m.content.map ContentPart.modelDump))]

/-- The values of type `Any` in a part. -/
def ContentPart.anyValues : ContentPart → List PyValue
  | text _ => []
  | toolCall call => call.arguments.map Prod.snd
  | toolResult part => [part.result]

def Message.dumpable (m : Message) : Bool :=
  m.content.all fun p => p.anyValues.all PyValue.dumpable

/-- `model_dump(mode="json")`, which raises on a message that is not dumpable. -/
def Message.modelDump? (m : Message) : Option PyValue :=
  if m.dumpable then some m.modelDump else none

def Message.modelValidate (v : PyValue) : Option Message := do
  let fields ← fieldsOf ["id", "role", "content"] v
  let id ← asUuid (← field "id" fields)
  let role ← asLiteral Role.literals (← field "role" fields)
  let content ← (← (← field "content" fields).asList).mapM ContentPart.modelValidate
  if hsize : 1 ≤ content.length ∧ content.length ≤ 64 then
    if hvalid : validToolContent role content = true then some ⟨id, role, content, hsize, hvalid⟩
    else none
  else none

/-! ## The response -/

def Usage.modelDump (u : Usage) : PyValue :=
  object [("input_tokens", .int u.inputTokens), ("output_tokens", .int u.outputTokens)]

def Usage.modelValidate (v : PyValue) : Option Usage := do
  let fields ← fieldsOf ["input_tokens", "output_tokens"] v
  let input ← (← field "input_tokens" fields).asCount
  let output ← (← field "output_tokens" fields).asCount
  some ⟨input, output⟩

/-- The value of an optional field. -/
def dumpOptional {α : Type} (write : α → PyValue) : Option α → PyValue
  | some x => write x
  | none => .none

def ToolStatus.value : ToolStatus → String
  | succeeded => "succeeded"
  | failed => "failed"

def ToolStatus.literals : List (String × ToolStatus) :=
  [("succeeded", .succeeded), ("failed", .failed)]

def ToolResult.modelDump (r : ToolResult) : PyValue :=
  object [("id", uuidValue r.id), ("tool_call_id", .str r.toolCallId),
    ("tool_name", .str r.toolName), ("status", PyValue.text r.status.value),
    ("output", r.output.jsonForm), ("error_code", dumpOptional PyValue.text r.errorCode)]

def ToolResult.modelValidate (v : PyValue) : Option ToolResult := do
  let fields ← fieldsOf ["id", "tool_call_id", "tool_name", "status", "output", "error_code"] v
  let id ← asUuid (← field "id" fields)
  let toolCallId ← (← field "tool_call_id" fields).asStr
  let toolName ← (← field "tool_name" fields).asStr
  let status ← asLiteral ToolStatus.literals (← field "status" fields)
  let output := (field "output" fields).getD .none
  let errorCode ← asOptional asText ((field "error_code" fields).getD .none)
  if h : output.isJson = true then some ⟨id, toolCallId, toolName, status, output, errorCode, h⟩
  else none

def Framework.value : Framework → String
  | native => "native"
  | langchain => "langchain"
  | langgraph => "langgraph"

def Framework.literals : List (String × Framework) :=
  [("native", .native), ("langchain", .langchain), ("langgraph", .langgraph)]

/-- The constraints of `agent_id` and `version`. -/
def AgentDescriptor.isValid (d : AgentDescriptor) : Bool :=
  isToolName (.ofString d.agentId) && isStrField 1 64 (.ofString d.version)

/-- `serialize_capabilities` sorts. -/
def AgentDescriptor.modelDump (d : AgentDescriptor) : PyValue :=
  object [("agent_id", PyValue.text d.agentId), ("version", PyValue.text d.version),
    ("framework", PyValue.text d.framework.value),
    ("capabilities", .list ((d.capabilities.sort (· ≤ ·)).map PyValue.text))]

def AgentDescriptor.modelValidate (v : PyValue) : Option AgentDescriptor := do
  let fields ← fieldsOf ["agent_id", "version", "framework", "capabilities"] v
  let agentId ← (← field "agent_id" fields).asText
  let version ← (← field "version" fields).asText
  let framework ← asLiteral Framework.literals (← field "framework" fields)
  let capabilities ← (← ((field "capabilities" fields).getD (.list [])).asList).mapM asText
  let d : AgentDescriptor := ⟨agentId, version, framework, capabilities.toFinset⟩
  if d.isValid then some d else none

/-- Metadata, as the dictionary it is. -/
def Metadata.dict (m : Metadata) : PyValue := .dict (m.map fun kv => (.str kv.1, kv.2))

def maxMetadataKeys : Nat := 64

def maxMetadataBytes : Nat := 16384

/-- `validate_metadata`. -/
def validateMetadata (m : Metadata) : Bool :=
  m.length ≤ maxMetadataKeys && m.all (fun kv => 1 ≤ kv.1.length && kv.1.length ≤ 128) &&
    match m.dict.dumps? .compact with
    | some t => t.encodable && (Utf8.encode t).length ≤ maxMetadataBytes
    | none => false

/-- A dictionary with string keys that `validate_metadata` accepts. -/
def Metadata.modelValidate (v : PyValue) : Option Metadata := do
  let kvs ← v.asDict
  let metadata ← kvs.mapM fun kv =>
    match kv.1 with
    | .str s => some (s, kv.2)
    | _ => none
  if validateMetadata metadata then some metadata else none

def RuntimeResponse.fieldNames : List String :=
  ["metadata", "contract_version", "run_id", "request_id", "thread_id", "agent", "message",
    "tool_results", "usage", "trace_id"]

def RuntimeResponse.fields (r : RuntimeResponse) : List (String × PyValue) :=
  [("metadata", r.metadata.dict.jsonForm), ("contract_version", PyValue.text "v1"),
    ("run_id", uuidValue r.runId), ("request_id", uuidValue r.requestId),
    ("thread_id", uuidValue r.threadId), ("agent", r.agent.modelDump),
    ("message", r.message.modelDump),
    ("tool_results", .list (r.toolResults.map ToolResult.modelDump)),
    ("usage", dumpOptional Usage.modelDump r.usage),
    ("trace_id", dumpOptional PyValue.text r.traceId)]

def RuntimeResponse.modelDump (r : RuntimeResponse) : PyValue := object r.fields

def Metadata.dumpable (m : Metadata) : Bool := m.all fun kv => kv.2.dumpable

def RuntimeResponse.dumpable (r : RuntimeResponse) : Bool :=
  r.metadata.dumpable && r.message.dumpable && r.toolResults.all fun t => t.output.dumpable

/-- `model_dump(mode="json")`, which raises on a response that is not dumpable. -/
def RuntimeResponse.modelDump? (r : RuntimeResponse) : Option PyValue :=
  if r.dumpable then some r.modelDump else none

def RuntimeResponse.modelValidate (v : PyValue) : Option RuntimeResponse := do
  let fields ← fieldsOf RuntimeResponse.fieldNames v
  let metadata ← Metadata.modelValidate ((field "metadata" fields).getD (.dict []))
  let _ ← asLiteral [("v1", ())] ((field "contract_version" fields).getD (PyValue.text "v1"))
  let runId ← asUuid (← field "run_id" fields)
  let requestId ← asUuid (← field "request_id" fields)
  let threadId ← asUuid (← field "thread_id" fields)
  let agent ← AgentDescriptor.modelValidate (← field "agent" fields)
  let message ← Message.modelValidate (← field "message" fields)
  let toolResults ←
    (← ((field "tool_results" fields).getD (.list [])).asList).mapM ToolResult.modelValidate
  let usage ← asOptional Usage.modelValidate ((field "usage" fields).getD .none)
  let traceId ← asOptional asText ((field "trace_id" fields).getD .none)
  some ⟨runId, requestId, threadId, agent, message, toolResults, usage, traceId, metadata⟩

/-! ## Equality -/

def ToolResult.eq (a b : ToolResult) : Bool :=
  a.id = b.id && a.toolCallId = b.toolCallId && a.toolName = b.toolName && a.status = b.status &&
    a.output.eq b.output && a.errorCode = b.errorCode

def toolResultsEq : List ToolResult → List ToolResult → Bool
  | [], [] => true
  | a :: as, b :: bs => a.eq b && toolResultsEq as bs
  | _, _ => false

/-- `==` on responses. -/
def RuntimeResponse.eq (a b : RuntimeResponse) : Bool :=
  a.runId = b.runId && a.requestId = b.requestId && a.threadId = b.threadId && a.agent = b.agent &&
    a.message.eq b.message && toolResultsEq a.toolResults b.toolResults && a.usage = b.usage &&
    a.traceId = b.traceId && a.metadata.dict.eq b.metadata.dict

-- ---------------------------------------------------------------------------
-- Documents are read back
-- ---------------------------------------------------------------------------

theorem ToolCall.modelValidate_modelDump (c : ToolCall) :
    ToolCall.modelValidate c.modelDump = some c := by
  have harguments := PyValue.jsonForm_of_isJson _ c.validArguments
  simp [ToolCall.modelValidate, ToolCall.modelDump, harguments, PyValue.asStr, PyValue.asDict,
    c.validId, c.validName, c.validArguments]

theorem ContentPart.modelValidate_modelDump (p : ContentPart) :
    ContentPart.modelValidate p.modelDump = some p := by
  cases p with
  | text part =>
    simp [ContentPart.modelValidate, ContentPart.modelDump, TextContent.modelValidate,
      PyValue.asStr, part.valid]
  | toolCall call =>
    simp [ContentPart.modelValidate, ContentPart.modelDump, ToolCallContent.modelValidate,
      call.modelValidate_modelDump]
  | toolResult part =>
    have hresult := PyValue.jsonForm_of_isJson _ part.validResult
    simp [ContentPart.modelValidate, ContentPart.modelDump, ToolResultContent.modelValidate,
      PyValue.asStr, hresult, part.validId, part.validResult]

@[simp] theorem asUuid_uuidValue (u : Uuid) : asUuid (uuidValue u) = some u := by
  rw [asUuid, uuidValue, PyValue.asStr, Option.bind_some, readUuid_uuidText]

@[simp] theorem Role.asLiteral_value (r : Role) :
    asLiteral Role.literals (PyValue.text r.value) = some r := by
  cases r <;> simp [asLiteral, Role.literals, Role.value, List.lookup_cons]

@[simp] theorem ToolStatus.asLiteral_value (s : ToolStatus) :
    asLiteral ToolStatus.literals (PyValue.text s.value) = some s := by
  cases s <;> simp [asLiteral, ToolStatus.literals, ToolStatus.value, List.lookup_cons]

@[simp] theorem Framework.asLiteral_value (f : Framework) :
    asLiteral Framework.literals (PyValue.text f.value) = some f := by
  cases f <;> simp [asLiteral, Framework.literals, Framework.value, List.lookup_cons]

theorem Message.modelValidate_modelDump (m : Message) :
    Message.modelValidate m.modelDump = some m := by
  have hcontent : (m.content.map ContentPart.modelDump).mapM ContentPart.modelValidate =
      some m.content := mapM_map_of_read fun p _ => p.modelValidate_modelDump
  simp [Message.modelValidate, Message.modelDump, PyValue.asList, hcontent, m.size.1, m.size.2,
    m.validContent]

theorem Usage.modelValidate_modelDump (u : Usage) : Usage.modelValidate u.modelDump = some u := by
  simp [Usage.modelValidate, Usage.modelDump]

/-- An optional field is read back, where no value is written as `null`. -/
theorem asOptional_dumpOptional {α : Type} {write : α → PyValue} {read : PyValue → Option α}
    (h : ∀ x, read (write x) = some x) (hnone : read .none = none) (o : Option α) :
    asOptional read (dumpOptional write o) = some o := by
  cases o with
  | none => rfl
  | some x =>
    rw [dumpOptional, asOptional, h, Option.map_some]
    intro hwrite
    have hx := h x
    rw [hwrite, hnone] at hx
    exact absurd hx (by simp)

theorem ToolResult.modelValidate_modelDump (r : ToolResult) :
    ToolResult.modelValidate r.modelDump = some r := by
  have houtput := PyValue.jsonForm_of_isJson _ r.validOutput
  have hcode : asOptional asText (dumpOptional PyValue.text r.errorCode) = some r.errorCode :=
    asOptional_dumpOptional PyValue.asText_text rfl _
  simp [ToolResult.modelValidate, ToolResult.modelDump, PyValue.asStr, houtput, hcode,
    r.validOutput]

theorem AgentDescriptor.modelValidate_modelDump {d : AgentDescriptor} (h : d.isValid = true) :
    AgentDescriptor.modelValidate d.modelDump = some d := by
  have hcapabilities : ((d.capabilities.sort (· ≤ ·)).map PyValue.text).mapM asText =
      some (d.capabilities.sort (· ≤ ·)) := mapM_map_of_read fun s _ => PyValue.asText_text s
  have hset : (d.capabilities.sort (· ≤ ·)).toFinset = d.capabilities := Finset.sort_toFinset _ _
  simp [AgentDescriptor.modelValidate, AgentDescriptor.modelDump, PyValue.asList, hcapabilities,
    hset, h]

/-- Distinct string keys. -/
def Metadata.IsDict (m : Metadata) : Prop := (m.map Prod.fst).Nodup

theorem Metadata.dict_jsonForm {m : Metadata} (h : m.IsDict) :
    m.dict.jsonForm = m.jsonForm.dict := by
  have hforms : (m.map fun kv => (PyKey.str kv.1, kv.2)).map PyValue.entryForm =
      m.jsonForm.map fun kv => (PyKey.str kv.1, kv.2) := by
    rw [Metadata.jsonForm, List.map_map, List.map_map]
    rfl
  have hkeys : (([] ++ (m.map fun kv : PyStr × PyValue =>
      (PyKey.str kv.1, kv.2)).map PyValue.entryForm).map Prod.fst).Nodup := by
    have hnodup : (m.map fun kv => PyKey.str kv.1).Nodup := by
      have hmap : (m.map fun kv => PyKey.str kv.1) = (m.map Prod.fst).map PyKey.str := by
        rw [List.map_map]
        rfl
      rw [hmap]
      exact h.map fun a b hab => PyKey.str.inj hab
    rw [List.nil_append, List.map_map, List.map_map]
    exact hnodup
  rw [Metadata.dict, PyValue.jsonForm, PyValue.jsonFormDict_of_nodup hkeys, List.nil_append, hforms]
  rfl

theorem Metadata.modelValidate_dict (m : Metadata) :
    Metadata.modelValidate m.dict = if validateMetadata m then some m else none := by
  have hread : (m.map fun kv => (PyKey.str kv.1, kv.2)).mapM (fun kv =>
      match kv.1 with
      | .str s => some (s, kv.2)
      | _ => none) = some m := mapM_map_of_read fun kv _ => rfl
  rw [Metadata.modelValidate, Metadata.dict]
  simp only [PyValue.asDict, Option.bind_eq_bind, Option.bind_some, hread]

/-- What is read back from the document of a response: its serialized form, if the metadata is
still accepted. -/
theorem RuntimeResponse.modelValidate_modelDump {r : RuntimeResponse}
    (hagent : r.agent.isValid = true) (hdict : r.metadata.IsDict) :
    RuntimeResponse.modelValidate r.modelDump =
      if validateMetadata r.metadata.jsonForm then some r.jsonForm else none := by
  have hresults : (r.toolResults.map ToolResult.modelDump).mapM ToolResult.modelValidate =
      some r.toolResults := mapM_map_of_read fun t _ => t.modelValidate_modelDump
  have husage : asOptional Usage.modelValidate (dumpOptional Usage.modelDump r.usage) =
      some r.usage := asOptional_dumpOptional Usage.modelValidate_modelDump rfl _
  have htrace : asOptional asText (dumpOptional PyValue.text r.traceId) = some r.traceId :=
    asOptional_dumpOptional PyValue.asText_text rfl _
  have hmetadata := Metadata.modelValidate_dict r.metadata.jsonForm
  have hversion : asLiteral [("v1", ())] (PyValue.text "v1") = some () := by
    simp [asLiteral, List.lookup_cons]
  have hnames : (r.fields.all fun f => RuntimeResponse.fieldNames.contains f.1) = true := by
    simp [RuntimeResponse.fields, RuntimeResponse.fieldNames]
  have hfield (name : String) : field name (r.fields.map fun f => (PyValue.key f.1, f.2)) =
      r.fields.lookup name := PyValue.field_map name r.fields
  have hgetD {name : String} {v default : PyValue} (h : r.fields.lookup name = some v) :
      (field name (r.fields.map fun f => (PyValue.key f.1, f.2))).getD default = v := by
    rw [hfield, h]
    rfl
  rw [RuntimeResponse.modelValidate, RuntimeResponse.modelDump, PyValue.fieldsOf_object,
    if_pos hnames, bind_of_read rfl, @hgetD "metadata" _ _ rfl, Metadata.dict_jsonForm hdict,
    hmetadata]
  by_cases hvalid : validateMetadata r.metadata.jsonForm = true
  · rw [if_pos hvalid, if_pos hvalid, bind_of_read rfl, @hgetD "contract_version" _ _ rfl,
      bind_of_read hversion, bind_of_read (hfield "run_id"),
      bind_of_read (asUuid_uuidValue r.runId), bind_of_read (hfield "request_id"),
      bind_of_read (asUuid_uuidValue r.requestId), bind_of_read (hfield "thread_id"),
      bind_of_read (asUuid_uuidValue r.threadId), bind_of_read (hfield "agent"),
      bind_of_read (AgentDescriptor.modelValidate_modelDump hagent),
      bind_of_read (hfield "message"), bind_of_read r.message.modelValidate_modelDump,
      @hgetD "tool_results" _ _ rfl, bind_of_read (PyValue.asList_list _), bind_of_read hresults,
      @hgetD "usage" _ _ rfl, bind_of_read husage, @hgetD "trace_id" _ _ rfl, bind_of_read htrace]
    rfl
  · rw [if_neg hvalid, if_neg hvalid]
    rfl

-- ---------------------------------------------------------------------------
-- Equality with what is read back
-- ---------------------------------------------------------------------------

theorem ToolCall.eq_self (c : ToolCall) : c.eq c = true := by
  simp [ToolCall.eq, PyValue.eq_of_isJson _ c.validArguments]

theorem ContentPart.eq_self (p : ContentPart) : p.eq p = true := by
  cases p with
  | text part => simp [ContentPart.eq]
  | toolCall call => exact call.eq_self
  | toolResult part => simp [ContentPart.eq, PyValue.eq_of_isJson _ part.validResult]

theorem partsEq_self (parts : List ContentPart) : partsEq parts parts = true := by
  induction parts with
  | nil => rfl
  | cons p parts ih => rw [partsEq, p.eq_self, ih]; rfl

theorem Message.eq_self (m : Message) : m.eq m = true := by
  simp [Message.eq, partsEq_self]

theorem toolResultsEq_self (results : List ToolResult) : toolResultsEq results results = true := by
  induction results with
  | nil => rfl
  | cons r results ih =>
    have hr : r.eq r = true := by simp [ToolResult.eq, PyValue.eq_of_isJson _ r.validOutput]
    rw [toolResultsEq, hr, ih]
    rfl

/-- Every value of the metadata is lossless JSON: at no depth a tuple, a key that is no string,
or a float that is not finite. -/
def Metadata.isLossless (m : Metadata) : Bool := m.all fun kv => kv.2.isJson

theorem Metadata.isJson_dict {m : Metadata} (h : m.IsDict) :
    m.dict.isJson = true ↔ m.isLossless = true := by
  rw [Metadata.dict, PyValue.isJson, Metadata.isLossless]
  induction m with
  | nil => simp [PyValue.isJsonDict]
  | cons kv m ih =>
    obtain ⟨hnotin, hrest⟩ := List.nodup_cons.mp h
    have hany : ((m.map fun kv => (PyKey.str kv.1, kv.2)).any fun x => x.1 = PyKey.str kv.1) =
        false := by
      rw [List.any_eq_false]
      intro x hx heq
      obtain ⟨kv', hkv', rfl⟩ := List.mem_map.mp hx
      have hkey : kv'.1 = kv.1 := PyKey.str.inj (of_decide_eq_true heq)
      exact hnotin (List.mem_map.mpr ⟨kv', hkv', hkey⟩)
    rw [List.map_cons, PyValue.isJsonDict, hany, List.all_cons, Bool.and_eq_true, Bool.and_eq_true,
      Bool.and_eq_true, ih hrest]
    simp

/-- Lossless metadata is stored as it is. -/
theorem Metadata.jsonForm_of_isLossless {m : Metadata} (h : m.isLossless = true) :
    m.jsonForm = m := by
  rw [Metadata.isLossless, List.all_eq_true] at h
  refine (List.map_congr_left fun kv hkv => ?_).trans (List.map_id m)
  rw [PyValue.jsonForm_of_isJson _ (h kv hkv)]
  rfl

/-- No other metadata is. -/
theorem Metadata.isLossless_of_jsonForm {m : Metadata} (h : m.jsonForm = m) :
    m.isLossless = true := by
  rw [Metadata.isLossless, List.all_eq_true]
  intro kv hkv
  have hsame : (kv.1, kv.2.jsonForm) = kv :=
    List.map_inj_left.mp (h.trans (List.map_id m).symm) kv hkv
  exact (PyValue.jsonForm_eq_self_iff kv.2).mp (congrArg Prod.snd hsame)

/-- A response is stored as it is if and only if its metadata is lossless JSON. -/
theorem RuntimeResponse.jsonForm_eq_self_iff {r : RuntimeResponse} :
    r.jsonForm = r ↔ r.metadata.isLossless = true := by
  constructor
  · exact fun h => Metadata.isLossless_of_jsonForm (congrArg RuntimeResponse.metadata h)
  · intro h
    rw [RuntimeResponse.jsonForm, Metadata.jsonForm_of_isLossless h]

/-- What is checked of a response before it is stored, beyond the types of its fields: the
constructors check the agent and the metadata, and `complete` dumps the whole. -/
structure RuntimeResponse.Accepted (r : RuntimeResponse) : Prop where
  agent : r.agent.isValid = true
  dict : r.metadata.IsDict
  metadata : validateMetadata r.metadata = true
  dumpable : r.dumpable = true

theorem RuntimeResponse.Accepted.modelDump? {r : RuntimeResponse} (h : r.Accepted) :
    r.modelDump? = some r.modelDump := if_pos h.dumpable

theorem RuntimeResponse.eq_jsonForm {r : RuntimeResponse} (hdict : r.metadata.IsDict) :
    r.jsonForm.eq r = true ↔ r.metadata.isLossless = true := by
  have hmetadata : r.metadata.jsonForm.dict.eq r.metadata.dict = true ↔
      r.metadata.isLossless = true := by
    rw [← Metadata.dict_jsonForm hdict, PyValue.jsonForm_eq_iff, Metadata.isJson_dict hdict]
  rw [← hmetadata, RuntimeResponse.eq, RuntimeResponse.jsonForm]
  simp [Message.eq_self, toolResultsEq_self]

/-- The stored document of a response is read back as an equal response if and only if the
metadata is lossless JSON. The response is one that the constructors and `complete` accept; that
the document is read back at all is part of the statement. Where the metadata is lossless it is its
own JSON form, so the check that reading repeats has been passed before; where it is not, reading
may also fail, and what it returns differs in the metadata. -/
theorem RuntimeResponse.stored_faithful {r : RuntimeResponse} (h : r.Accepted) :
    (∃ document r', r.modelDump? = some document ∧
      RuntimeResponse.modelValidate document = some r' ∧ r'.eq r = true) ↔
      r.metadata.isLossless = true := by
  constructor
  · rintro ⟨document, r', hdump, hread, heq⟩
    rw [h.modelDump?, Option.some.injEq] at hdump
    rw [← hdump, RuntimeResponse.modelValidate_modelDump h.agent h.dict] at hread
    split at hread
    · rw [← Option.some.inj hread] at heq
      exact (RuntimeResponse.eq_jsonForm h.dict).mp heq
    · exact absurd hread (by simp)
  · intro hlossless
    have hvalid : validateMetadata r.metadata.jsonForm = true := by
      rw [Metadata.jsonForm_of_isLossless hlossless]
      exact h.metadata
    have hread := RuntimeResponse.modelValidate_modelDump h.agent h.dict
    rw [if_pos hvalid] at hread
    exact ⟨r.modelDump, r.jsonForm, h.modelDump?, hread,
      (RuntimeResponse.eq_jsonForm h.dict).mpr hlossless⟩

/-! ## Two responses -/

/-- A response with the given metadata. -/
def Sample.stored (metadata : Metadata) : RuntimeResponse where
  runId := 1
  requestId := 2
  threadId := 3
  agent := ⟨"assistant", "1", .native, {"text"}⟩
  message := default
  toolResults := []
  usage := some ⟨3, 5⟩
  traceId := none
  metadata := metadata

/-- `{"pair": [1, 2]}`. -/
def Sample.listed : Metadata := [(PyStr.ofString "pair", .list [.int 1, .int 2])]

/-- `{"pair": (1, 2)}`. -/
def Sample.tupled : Metadata := [(PyStr.ofString "pair", .tuple [.int 1, .int 2])]

theorem Sample.accepted_listed : (Sample.stored Sample.listed).Accepted :=
  ⟨by decide, by unfold Metadata.IsDict; decide, by decide, by decide⟩

theorem Sample.accepted_tupled : (Sample.stored Sample.tupled).Accepted :=
  ⟨by decide, by unfold Metadata.IsDict; decide, by decide, by decide⟩

theorem Sample.stored_faithful_listed :
    ∃ document r', (Sample.stored Sample.listed).modelDump? = some document ∧
      RuntimeResponse.modelValidate document = some r' ∧
        r'.eq (Sample.stored Sample.listed) = true :=
  (RuntimeResponse.stored_faithful Sample.accepted_listed).mpr (by decide)

/-- A tuple in the metadata comes back as a list. -/
theorem Sample.tupled_differs : (Sample.stored Sample.tupled).Accepted ∧
    ¬ ∃ document r', (Sample.stored Sample.tupled).modelDump? = some document ∧
      RuntimeResponse.modelValidate document = some r' ∧
        r'.eq (Sample.stored Sample.tupled) = true := by
  have haccepted := Sample.accepted_tupled
  refine ⟨haccepted, ?_⟩
  rintro ⟨document, r', hdump, hread, heq⟩
  rw [haccepted.modelDump?, Option.some.injEq] at hdump
  rw [← hdump, RuntimeResponse.modelValidate_modelDump haccepted.agent haccepted.dict] at hread
  have hsame : r' = (Sample.stored Sample.tupled).jsonForm := by
    split at hread
    · exact (Option.some.inj hread).symm
    · exact absurd hread (by simp)
  rw [hsame, RuntimeResponse.eq_jsonForm haccepted.dict] at heq
  exact absurd heq (by decide)

end AgentRuntimeKit
