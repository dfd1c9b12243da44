import AgentRuntimeKit.Clients.Payloads

/-!
# Framework messages

`adapters/framework_messages.py` and the part of `messages_output` of `adapters/mapping.py` it
ends in. A `BaseMessage` has what the translation reads of a LangChain message; the constructors
keep what they are given.
-/

namespace AgentRuntimeKit

open Lib
open PyValue (object text field)

-- ---------------------------------------------------------------------------
-- Messages of the framework
-- ---------------------------------------------------------------------------

/-- A block of a message content. -/
inductive FrameworkBlock
  | str (s : PyStr)
  | dict (block : JsonObject)

inductive FrameworkContent
  | str (s : PyStr)
  | blocks (bs : List FrameworkBlock)

/-- An entry of `tool_calls`. -/
structure FrameworkCall where
  id : Option PyStr
  name : PyStr
  args : JsonObject

structure UsageMetadata where
  inputTokens : Int
  outputTokens : Int

inductive MessageKind
  | human
  | system
  | ai (toolCalls : List FrameworkCall) (invalidToolCalls : Bool) (usage : Option UsageMetadata)
  | tool (toolCallId : PyStr) (name : Option PyStr) (failed : Bool)
  /-- Any other class. -/
  | other

structure BaseMessage where
  id : Option PyStr
  /-- `isinstance(message, BaseMessageChunk)`. -/
  chunk : Bool
  content : FrameworkContent
  kind : MessageKind

/-- `json.dumps` with `ensure_ascii=False`, and `json.loads`: `none` is a `JSONDecodeError`. -/
structure FrameworkJson where
  dumps : PyValue → Except Exn PyStr
  loads : PyStr → Except Exn (Option PyValue)

/-- `uuid4`, by the number of the draw, and `uuid5`. -/
structure FrameworkIds where
  uuid4 : Nat → Uuid
  uuid5 : Uuid → PyStr → Uuid

/-- `uuid.NAMESPACE_URL`. -/
def namespaceUrl : Uuid := 0x6ba7b8119dad11d180b400c04fd430c8

/-- `_identity`. -/
def identity (ids : FrameworkIds) (draw : Nat) : Option PyStr → Uuid
  | none => ids.uuid4 draw
  | some value =>
    match parseUuid value with
    | some u => u
    | none => ids.uuid5 namespaceUrl
        (PyStr.ofString "agent-runtime-kit/framework-message/" ++ value)

-- ---------------------------------------------------------------------------
-- Translation
-- ---------------------------------------------------------------------------

def unsupportedBlock : Exn :=
  .py .valueError "Unsupported framework content block; provide an explicit mapper"

/-- The text of a block. -/
def blockText : FrameworkBlock → Except Exn PyStr
  | .str s => .ok s
  | .dict block =>
    match block.get "type", block.get "text" with
    | .str kind, .str s => if kind = PyStr.ofString "text" then .ok s else .error unsupportedBlock
    | _, _ => .error unsupportedBlock

def FrameworkContent.toBlocks : FrameworkContent → List FrameworkBlock
  | .str s => [.str s]
  | .blocks bs => bs

/-- `_text`: the parts of the blocks that are not empty. -/
def textParts : List FrameworkBlock → Except Exn (List TextContent)
  | [] => .ok []
  | block :: blocks => do
    let s ← blockText block
    if s = [] then textParts blocks
    else do
      let part ← TextContent.new s
      let parts ← textParts blocks
      return part :: parts

/-- `to_framework_message`. -/
def toFrameworkMessage (json : FrameworkJson) (message : Message) : Except Exn BaseMessage :=
  let id := some (uuidText message.id)
  let texts := message.texts.map fun s =>
    FrameworkBlock.dict [(PyValue.key "type", text "text"), (PyValue.key "text", .str s)]
  match message.role with
  | .tool =>
    match message.content with
    | [.toolResult part] => do
      let content ← json.dumps part.result
      return ⟨id, false, .str content, .tool part.toolCallId none false⟩
    | _ => .error (.py .valueError "A framework ToolMessage requires one tool result")
  | .assistant =>
    let calls := message.toolCalls.map fun call =>
      FrameworkCall.mk (some call.id) call.name call.arguments
    .ok ⟨id, false, .blocks texts, .ai calls false none⟩
  | .system => .ok ⟨id, false, .blocks texts, .system⟩
  | .user => .ok ⟨id, false, .blocks texts, .human⟩

def ToolResultContent.new (toolCallId : PyStr) (result : PyValue) :
    Except Exn ToolResultContent :=
  if hid : isStrField 1 256 toolCallId = true then
    if hjson : result.isJson = true then .ok ⟨toolCallId, result, hid, hjson⟩
    else .error (invalid "ToolResultContent")
  else .error (invalid "ToolResultContent")

theorem ToolResultContent.new_eq_ok {toolCallId : PyStr} {result : PyValue}
    {part : ToolResultContent} : ToolResultContent.new toolCallId result = .ok part ↔
      ∃ hid : isStrField 1 256 toolCallId = true, ∃ hjson : result.isJson = true,
        part = ⟨toolCallId, result, hid, hjson⟩ := by
  unfold ToolResultContent.new
  constructor
  · intro h
    split at h
    · next hid =>
      split at h
      · next hjson => exact ⟨hid, hjson, (Except.ok.inj h).symm⟩
      · cases h
    · cases h
  · rintro ⟨hid, hjson, rfl⟩
    rw [dif_pos hid, dif_pos hjson]

/-- A call of an `AIMessage`. -/
def fromFrameworkCall (call : FrameworkCall) : Except Exn ToolCall :=
  ToolCall.new (call.id.getD []) call.name call.args

/-- The result a tool message carries: what its text denotes, or the text itself. -/
def readResult (json : FrameworkJson) (s : PyStr) : Except Exn PyValue := do
  match ← json.loads s with
  | some v => return v
  | none => return .str s

/-- `from_framework_message`; `identity` draws a fresh UUID where the message has no id. -/
def fromFrameworkMessage (json : FrameworkJson) (ids : FrameworkIds) (draw : Nat)
    (message : BaseMessage) : Except Exn Message :=
  if message.chunk then
    .error (.py .valueError "Partial framework chunks require an explicit streaming adapter")
  else do
    let id := identity ids draw message.id
    let parts ← textParts message.content.toBlocks
    let texts := parts.map ContentPart.text
    match message.kind with
    | .tool toolCallId _ _ => do
      let result ← readResult json (parts.flatMap TextContent.text)
      let part ← ToolResultContent.new toolCallId result
      Message.new id .tool [.toolResult part]
    | .ai toolCalls invalidToolCalls _ =>
      if invalidToolCalls then
        .error (.py .valueError "Framework output contains invalid tool calls")
      else do
        let calls ← toolCalls.mapM fromFrameworkCall
        Message.new id .assistant (texts ++ calls.map .toolCall)
    | .human => Message.new id .user texts
    | .system => Message.new id .system texts
    | .other => .error (.py .valueError
        "Unsupported framework message type; provide an explicit mapper")

/-- The messages of `framework_input`. -/
def frameworkInput (json : FrameworkJson) (request : InvocationInput) :
    Except Exn (List BaseMessage) := request.messages.mapM (toFrameworkMessage json)

-- ---------------------------------------------------------------------------
-- Output
-- ---------------------------------------------------------------------------

/-- `==` on lists of messages. -/
def messagesEq : List Message → List Message → Bool
  | [], [] => true
  | a :: as, b :: bs => a.eq b && messagesEq as bs
  | _, _ => false

/-- `messages[: len(request.messages)] == request.messages`. -/
def repeatsRequest (request : InvocationInput) (messages : List Message) : Bool :=
  messagesEq (messages.take request.messages.length) request.messages

/-- An item of a message sequence: a native message, or what the validation of `Message` makes of
anything else. -/
inductive FrameworkItem
  | native (message : BaseMessage)
  | other (validated : Except Exn Message)

/-- A state of a graph; each entry but the messages as the validation of `InvocationOutput` takes
it. -/
structure FrameworkState where
  messages : Option (List FrameworkItem)
  metadata : Option (Except Exn Metadata)
  toolResults : Option (Except Exn (List ToolResult))
  usage : Option (Except Exn (Option Usage))

inductive FrameworkValue
  | message (m : BaseMessage)
  | state (s : FrameworkState)
  | sequence (items : List FrameworkItem)
  | other

def FrameworkValue.envelope : FrameworkValue → Except Exn FrameworkState
  | message m => .ok ⟨some [.native m], none, none, none⟩
  | state s => .ok s
  | sequence items => .ok ⟨some items, none, none, none⟩
  | other => .error (.py .typeError
      "Framework output must be a supported message, message list, or state")

/-- `from_framework_message`, or `Message.model_validate`. -/
def convert (json : FrameworkJson) (ids : FrameworkIds) (draw : Nat) :
    FrameworkItem → Except Exn Message
  | .native message => fromFrameworkMessage json ids draw message
  | .other validated => validated

/-- The items in their order, each with its own draw. -/
def convertAll (json : FrameworkJson) (ids : FrameworkIds) :
    Nat → List FrameworkItem → Except Exn (List Message)
  | _, [] => .ok []
  | draw, item :: items => do
    let message ← convert json ids draw item
    let messages ← convertAll json ids (draw + 1) items
    return message :: messages

/-- What the loop over the new messages has found. -/
structure Collected where
  results : List ToolResult
  usage : Option Usage

def Usage.new (m : UsageMetadata) : Except Exn Usage :=
  if 0 ≤ m.inputTokens ∧ 0 ≤ m.outputTokens then
    .ok ⟨m.inputTokens.toNat, m.outputTokens.toNat⟩
  else .error (invalid "Usage")

/-- `original.name or names.get(original.tool_call_id)`. -/
def toolName (names : PyStr → Option PyStr) (toolCallId : PyStr) : Option PyStr → Option PyStr
  | some (c :: cs) => some (c :: cs)
  | _ => names toolCallId

/-- The result of a tool message. -/
def toolResultOf (ids : FrameworkIds) (names : PyStr → Option PyStr) (toolCallId : PyStr)
    (name : Option PyStr) (failed : Bool) (canonical : Message) : Except Exn ToolResult :=
  match toolName names toolCallId name, canonical.content with
  | none, _ | some [], _ => .error (.py .valueError
      "Tool output needs a name or a matching tool call")
  | some toolName, .toolResult part :: _ =>
    if toolName.encodable then
      .ok {
        id := ids.uuid5 canonical.id (PyStr.ofString "tool-result")
        toolCallId := toolCallId
        toolName := toolName
        status := if failed then .failed else .succeeded
        output := part.result
        errorCode := if failed then some "tool_execution_failed" else none
        validOutput := part.validResult }
    else .error (invalid "ToolResult")
  | some _, _ => .error (.py .other "AssertionError")

/-- One round of the loop. -/
def collect (ids : FrameworkIds) (names : PyStr → Option PyStr) (acc : Collected)
    (pair : FrameworkItem × Message) : Except Exn Collected :=
  match pair.1 with
  | .native ⟨_, _, _, .ai _ _ (some m)⟩ => do
    let usage ← Usage.new m
    return { acc with usage := some usage }
  | .native ⟨_, _, _, .tool toolCallId name failed⟩ => do
    let result ← toolResultOf ids names toolCallId name failed pair.2
    return { acc with results := acc.results ++ [result] }
  | _ => .ok acc

/-- `InvocationOutput.model_validate`. -/
def InvocationOutput.new (messages : List Message) (toolResults : List ToolResult)
    (usage : Option Usage) (metadata : Metadata) : Except Exn InvocationOutput :=
  if messages = [] then .error (invalid "InvocationOutput")
  else .ok ⟨messages, toolResults, usage, metadata⟩

theorem InvocationOutput.new_eq_ok {messages : List Message} {toolResults : List ToolResult}
    {usage : Option Usage} {metadata : Metadata} {output : InvocationOutput} :
    InvocationOutput.new messages toolResults usage metadata = .ok output ↔
      messages ≠ [] ∧ output = ⟨messages, toolResults, usage, metadata⟩ := by
  rw [InvocationOutput.new]
  by_cases h : messages = []
  · rw [if_pos h]
    exact iff_of_false (fun h => by cases h) fun hne => hne.1 h
  · rw [if_neg h, Except.ok.injEq]
    exact ⟨fun heq => ⟨h, heq.symm⟩, fun heq => heq.2.symm⟩

/-- `messages_output`, on a mapping of canonical messages. -/
def messagesOutput (messages : List Message) (metadata : Except Exn Metadata)
    (toolResults : Except Exn (List ToolResult)) (usage : Except Exn (Option Usage))
    (request : InvocationInput) : Except Exn InvocationOutput := do
  let messages :=
    if repeatsRequest request messages then messages.drop request.messages.length else messages
  let metadata ← metadata
  let toolResults ← toolResults
  let usage ← usage
  InvocationOutput.new messages toolResults usage metadata

/-- The number of messages that repeat the request. -/
def prefixLength (request : InvocationInput) (converted : List Message) : Nat :=
  if repeatsRequest request converted then request.messages.length else 0

/-- `framework_output`. -/
def frameworkOutput (json : FrameworkJson) (ids : FrameworkIds) (value : FrameworkValue)
    (request : InvocationInput) : Except Exn InvocationOutput := do
  let envelope ← value.envelope
  match envelope.messages with
  | none => .error (.py .typeError "Framework output must contain a message sequence")
  | some originals => do
    let converted ← convertAll json ids 0 originals
    let skip := prefixLength request converted
    let names := Bindings.table (callNames (request.messages ++ converted))
    let collected ← ((originals.drop skip).zip (converted.drop skip)).foldlM (collect ids names)
      ⟨[], none⟩
    messagesOutput converted (envelope.metadata.getD (.ok []))
      (envelope.toolResults.getD (.ok collected.results))
      (envelope.usage.getD (.ok collected.usage)) request

end AgentRuntimeKit
