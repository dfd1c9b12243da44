import AgentRuntimeKit.Model.Errors
import AgentRuntimeKit.Lib.PyValue
import Mathlib.Data.Finset.Basic

/-!
# Canonical models

The provider-independent models of `models.py` and the stream events of
`adapters/base.py`. Constraints that pydantic checks at construction are
fields, so a value of these types has passed them:

* `TextContent` — 1 to 32,000 characters that encode to UTF-8;
* `ToolCall`, `ToolResultContent` — identifiers of 1 to 256 characters, a tool
  name of the documented pattern, payloads that are lossless JSON;
* `Message` — 1 to 64 parts, and the role/part rule of `validate_tool_content`.

`Message.eq` is the `==` of the models. `RuntimeResponse.jsonForm` is
`model_dump(mode="json")`: it changes only the metadata, whose Python values
serialize to JSON values.
-/

namespace AgentRuntimeKit

open Lib

/-- A `uuid.UUID`. -/
abbrev Uuid := BitVec 128

inductive Role
  | system
  | user
  | assistant
  | tool
deriving DecidableEq, Repr

/-- `[a-zA-Z]`. -/
def isLetter (c : CodePoint) : Bool :=
  (97 ≤ c.val && c.val ≤ 122) || (65 ≤ c.val && c.val ≤ 90)

/-- `[a-zA-Z0-9_.-]`. -/
def isNameChar (c : CodePoint) : Bool :=
  isLetter c || (48 ≤ c.val && c.val ≤ 57) || c.val = 95 || c.val = 46 || c.val = 45

/-- `^[a-zA-Z][a-zA-Z0-9_.-]{0,127}$`. -/
def isToolName : PyStr → Bool
  | [] => false
  | c :: cs => isLetter c && cs.all isNameChar && cs.length ≤ 127

/-- A constrained `str` field: its length is in range and it is valid Unicode. -/
def isStrField (lo hi : Nat) (s : PyStr) : Bool :=
  lo ≤ s.length && s.length ≤ hi && PyStr.encodable s

structure TextContent where
  text : PyStr
  valid : isStrField 1 32000 text = true

structure ToolCall where
  id : PyStr
  name : PyStr
  arguments : List (PyKey × PyValue)
  validId : isStrField 1 256 id = true
  validName : isToolName name = true
  validArguments : (PyValue.dict arguments).isJson = true

structure ToolResultContent where
  toolCallId : PyStr
  result : PyValue
  validId : isStrField 1 256 toolCallId = true
  validResult : result.isJson = true

inductive ContentPart
  | text (part : TextContent)
  | toolCall (call : ToolCall)
  | toolResult (part : ToolResultContent)

namespace ContentPart

def isToolCall : ContentPart → Bool
  | toolCall _ => true
  | _ => false

def isToolResult : ContentPart → Bool
  | toolResult _ => true
  | _ => false

end ContentPart

/-- `Message.validate_tool_content`. -/
def validToolContent (role : Role) (content : List ContentPart) : Bool :=
  if role = .tool then content.all ContentPart.isToolResult
  else !content.any ContentPart.isToolResult &&
    (role = .assistant || !content.any ContentPart.isToolCall)

structure Message where
  id : Uuid
  role : Role
  content : List ContentPart
  size : 1 ≤ content.length ∧ content.length ≤ 64
  validContent : validToolContent role content = true

/-- A user message with one text part. -/
def Message.user (id : Uuid) (text : TextContent) : Message where
  id := id
  role := .user
  content := [.text text]
  size := ⟨Nat.le_refl 1, Nat.succ_le_succ (Nat.zero_le 63)⟩
  validContent := rfl

instance : Inhabited TextContent := ⟨⟨[97], by decide⟩⟩

instance : Inhabited Message := ⟨.user 0 default⟩

def ToolCall.eq (a b : ToolCall) : Bool :=
  a.id = b.id && a.name = b.name && (PyValue.dict a.arguments).eq (.dict b.arguments)

def ContentPart.eq : ContentPart → ContentPart → Bool
  | text a, text b => a.text = b.text
  | toolCall a, toolCall b => a.eq b
  | toolResult a, toolResult b => a.toolCallId = b.toolCallId && a.result.eq b.result
  | _, _ => false

/-- `==` on the part lists. -/
def partsEq : List ContentPart → List ContentPart → Bool
  | [], [] => true
  | a :: as, b :: bs => a.eq b && partsEq as bs
  | _, _ => false

/-- `==` on messages. -/
def Message.eq (a b : Message) : Bool :=
  a.id = b.id && a.role = b.role && partsEq a.content b.content

structure Usage where
  inputTokens : Nat
  outputTokens : Nat
deriving DecidableEq, Repr

inductive ToolStatus
  | succeeded
  | failed
deriving DecidableEq, Repr

structure ToolResult where
  id : Uuid
  toolCallId : PyStr
  toolName : PyStr
  status : ToolStatus
  output : PyValue
  errorCode : Option String
  validOutput : output.isJson = true

inductive Framework
  | native
  | langchain
  | langgraph
deriving DecidableEq, Repr

structure AgentDescriptor where
  agentId : String
  version : String
  framework : Framework
  capabilities : Finset String
deriving DecidableEq

/-- Caller metadata: a dictionary with string keys. -/
abbrev Metadata := List (PyStr × PyValue)

/-- Metadata in serialized form. -/
def Metadata.jsonForm (m : Metadata) : Metadata := m.map fun kv => (kv.1, kv.2.jsonForm)

theorem Metadata.jsonForm_jsonForm (m : Metadata) : m.jsonForm.jsonForm = m.jsonForm := by
  simp [Metadata.jsonForm, PyValue.jsonForm_jsonForm]

structure RuntimeContext where
  runId : Uuid
  threadId : Uuid
  userId : Option String

structure RuntimeRequest where
  requestId : Uuid
  threadId : Option Uuid
  userId : Option String
  messages : List Message
  metadata : Metadata

structure InvocationInput where
  context : RuntimeContext
  messages : List Message
  metadata : Metadata

structure InvocationOutput where
  messages : List Message
  toolResults : List ToolResult
  usage : Option Usage
  metadata : Metadata

structure RuntimeResponse where
  runId : Uuid
  requestId : Uuid
  threadId : Uuid
  agent : AgentDescriptor
  message : Message
  toolResults : List ToolResult
  usage : Option Usage
  traceId : Option String
  metadata : Metadata

/-- `model_dump(mode="json")`, read back as a response. -/
def RuntimeResponse.jsonForm (r : RuntimeResponse) : RuntimeResponse :=
  { r with metadata := r.metadata.jsonForm }

theorem RuntimeResponse.jsonForm_jsonForm (r : RuntimeResponse) :
    r.jsonForm.jsonForm = r.jsonForm := by
  simp [RuntimeResponse.jsonForm, Metadata.jsonForm_jsonForm]

/-! ## Events -/

/-- What a streaming invoker emits. -/
inductive AgentStreamEvent
  | textDelta (delta : PyStr)
  | toolResult (result : ToolResult)
  | completed (output : InvocationOutput)

/-- What `AgentRuntime.stream` yields. -/
inductive RuntimeStreamEvent
  | started (runId requestId threadId : Uuid) (agent : AgentDescriptor)
  | textDelta (delta : PyStr)
  | toolResult (result : ToolResult)
  | completed (response : RuntimeResponse)

-- ---------------------------------------------------------------------------
-- Small values
-- ---------------------------------------------------------------------------

theorem isJson_none : PyValue.none.isJson = true := rfl

theorem isJson_empty : (PyValue.dict []).isJson = true := rfl

theorem one_part : 1 ≤ 1 ∧ 1 ≤ 64 := by decide

namespace Sample

theorem isStrField_a : isStrField 1 256 [97] = true := rfl

theorem isToolName_a : isToolName [97] = true := rfl

end Sample

end AgentRuntimeKit
