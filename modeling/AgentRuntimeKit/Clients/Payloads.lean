import AgentRuntimeKit.Adapters.Native
import AgentRuntimeKit.Clients.Sse
import AgentRuntimeKit.Lib.Bindings
import AgentRuntimeKit.Model.Documents

/-!
# Request payloads

What the three adapters send: `_message_payload` and the payloads of `openai_compatible.py`,
`_payload` of `anthropic.py` and of `gemini.py`.
-/

namespace AgentRuntimeKit

open Lib
open PyValue (text)

def ContentPart.toolResult? : ContentPart → Option ToolResultContent
  | toolResult part => some part
  | _ => none

/-- The texts of a message. -/
def Message.texts (m : Message) : List PyStr := m.content.filterMap ContentPart.text?

/-- The tool results among the parts of a message. -/
def Message.toolResults (m : Message) : List ToolResultContent :=
  m.content.filterMap ContentPart.toolResult?

/-- The calls of a conversation, as the comprehension of `call_names` passes them. -/
def callNames (messages : List Message) : List (PyStr × PyStr) :=
  (messages.flatMap Message.toolCalls).map fun call => (call.id, call.name)

-- ---------------------------------------------------------------------------
-- OpenAI-compatible
-- ---------------------------------------------------------------------------

namespace OpenAI

/-- An entry of `tool_calls`. -/
def callPayload (json : PyJson) (call : ToolCall) : Except Exn PyValue := do
  let arguments ← json.dumps (.dict call.arguments)
  return .object [("id", .str call.id), ("type", text "function"),
    ("function", .object [("name", .str call.name), ("arguments", .str arguments)])]

/-- The first tool result of a tool message. -/
def resultPart (message : Message) : Option ToolResultContent :=
  if message.role = .tool then message.toolResults.head? else none

/-- `_message_payload`. -/
def messagePayload (json : PyJson) (message : Message) : Except Exn PyValue :=
  match resultPart message with
  | some part => do
    let content ← json.dumps part.result
    return .object [("role", text "tool"), ("tool_call_id", .str part.toolCallId),
      ("content", .str content)]
  | none => do
    let content := joinLines message.texts
    let calls ← message.toolCalls.mapM (callPayload json)
    return .object ([("role", text message.role.value),
        ("content", if content = [] then .none else .str content)] ++
      if calls = [] then [] else [("tool_calls", .list calls)])

def toolPayload (tool : ToolDefinition) : PyValue :=
  .object [("type", text "function"), ("function", .object [("name", .str tool.name),
    ("description", .str tool.description), ("parameters", tool.inputSchema)])]

/-- The body of `generate`, or of `stream`. -/
def payload (json : PyJson) (model : PyStr) (messages : List Message) (tools : List ToolDefinition)
    (stream : Bool) : Except Exn PyValue := do
  let encoded ← messages.mapM (messagePayload json)
  return .object ([("model", .str model), ("messages", .list encoded)] ++
    (if stream then [("stream", .bool true),
      ("stream_options", .object [("include_usage", .bool true)])] else []) ++
    if tools = [] then [] else [("tools", .list (tools.map toolPayload))])

end OpenAI

-- ---------------------------------------------------------------------------
-- Anthropic
-- ---------------------------------------------------------------------------

namespace Anthropic

def partPayload (json : PyJson) : ContentPart → Except Exn PyValue
  | .text part => return .object [("type", text "text"), ("text", .str part.text)]
  | .toolCall call => return .object [("type", text "tool_use"), ("id", .str call.id),
      ("name", .str call.name), ("input", .dict call.arguments)]
  | .toolResult part => do
    let content ← json.dumps part.result
    return .object [("type", text "tool_result"), ("tool_use_id", .str part.toolCallId),
      ("content", .str content)]

def messagePayload (json : PyJson) (message : Message) : Except Exn PyValue := do
  let content ← message.content.mapM (partPayload json)
  let role := if message.role = .tool then "user" else message.role.value
  return .object [("role", text role), ("content", .list content)]

def toolPayload (tool : ToolDefinition) : PyValue :=
  .object [("name", .str tool.name), ("description", .str tool.description),
    ("input_schema", tool.inputSchema)]

/-- `system_parts`. -/
def systemParts (messages : List Message) : List PyStr :=
  (messages.filter fun m => m.role = .system).flatMap Message.texts

/-- The messages that are not of the system. -/
def spoken (messages : List Message) : List Message := messages.filter fun m => m.role ≠ .system

/-- `_payload`. -/
def payload (json : PyJson) (model : PyStr) (maxTokens : Nat) (messages : List Message)
    (tools : List ToolDefinition) (stream : Bool) : Except Exn PyValue := do
  let encoded ← (spoken messages).mapM (messagePayload json)
  return .object
    ([("model", .str model), ("max_tokens", .int maxTokens), ("messages", .list encoded),
      ("stream", .bool stream)] ++
    (if systemParts messages = [] then []
      else [("system", .str (joinLines (systemParts messages)))]) ++
    if tools = [] then [] else [("tools", .list (tools.map toolPayload))])

end Anthropic

-- ---------------------------------------------------------------------------
-- Gemini
-- ---------------------------------------------------------------------------

namespace Gemini

open Anthropic (systemParts spoken)

def noMatchingCall : Exn := .kit (.provider true) "Gemini tool result has no matching tool call"

/-- `raw_result` if it is a dictionary, under `result` otherwise. -/
def response : PyValue → PyValue
  | .dict entries => .dict entries
  | result => .object [("result", result)]

def partPayload (names : PyStr → Option PyStr) : ContentPart → Except Exn PyValue
  | .text part => return .object [("text", .str part.text)]
  | .toolCall call => return .object [("functionCall",
      .object [("name", .str call.name), ("args", .dict call.arguments)])]
  | .toolResult part =>
    match names part.toolCallId with
    | none => .error noMatchingCall
    | some name => return .object [("functionResponse",
        .object [("name", .str name), ("response", response part.result)])]

def messagePayload (names : PyStr → Option PyStr) (message : Message) : Except Exn PyValue := do
  let parts ← message.content.mapM (partPayload names)
  let role := if message.role = .assistant then "model" else "user"
  return .object [("role", text role), ("parts", .list parts)]

def toolPayload (tool : ToolDefinition) : PyValue :=
  .object [("name", .str tool.name), ("description", .str tool.description),
    ("parameters", tool.inputSchema)]

/-- `_payload`. -/
def payload (messages : List Message) (tools : List ToolDefinition) : Except Exn PyValue := do
  let names := Bindings.table (callNames messages)
  let contents ← (spoken messages).mapM (messagePayload names)
  return .object ([("contents", .list contents)] ++
    (if systemParts messages = [] then []
      else [("systemInstruction",
        .object [("parts",
          .list ((systemParts messages).map fun s => .object [("text", .str s)]))])]) ++
    if tools = [] then []
      else [("tools", .list [.object [("functionDeclarations", .list (tools.map toolPayload))]])])

end Gemini

end AgentRuntimeKit
