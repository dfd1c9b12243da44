import AgentRuntimeKit.Clients.Canonical

/-!
# The Anthropic adapter

How `AnthropicModelClient` (`models_clients/anthropic.py`) reads an answer: `generate` the body of
one message, `stream` the data of its events. Both collect the tool blocks as texts under their
indices and decode them in the end.
-/

namespace AgentRuntimeKit

open Lib Utf8

namespace Anthropic

/-- `_mapping`. -/
def object (label : String) : PyValue → Except Exn JsonObject :=
  mapping s!"Anthropic {label}"

/-- `_sequence`. -/
def sequence (label : String) : PyValue → Except Exn (List PyValue)
  | .list xs => .ok xs
  | _ => .error (.py .typeError s!"Anthropic {label} must be an array")

def stopReasons : List String := ["end_turn", "stop_sequence", "tool_use"]

/-- `object.get("type") == name`. -/
def hasType (o : JsonObject) (name : String) : Bool :=
  match o.get "type" with
  | .str s => s = PyStr.ofString name
  | _ => false

/-- `chunk["arguments"] or "{}"`. -/
def inputText (chunk : ToolChunk) : PyStr :=
  if chunk.arguments = [] then PyStr.ofString "\x7b\x7d" else chunk.arguments

/-- The call of a chunk with its decoded arguments. -/
def callOf (json : PyJson) (chunk : ToolChunk) : PyValue → Except Exn ToolCall
  | .dict kvs => ToolCall.decoded json chunk.id chunk.name kvs
  | _ => .error (.py .valueError "Tool input must be an object")

def closeChunk (json : PyJson) (chunk : ToolChunk) : Except Exn ToolCall := do
  callOf json chunk (← json.loads (inputText chunk))

/-- `_assembled_result`. -/
def assembled (json : PyJson) (id : Uuid) (textChunks : List PyStr)
    (toolChunks : IntDict ToolChunk) (usage : Option Usage) : Except Exn ModelResult := do
  let toolCalls ← Except.mapError
    (translate [.typeError, .valueError] (rejected "Anthropic returned an invalid tool call"))
    (toolChunks.sorted.mapM (closeChunk json))
  if textChunks = [] ∧ toolCalls = [] then
    .error (rejected "Anthropic returned an empty assistant message")
  else assembledResult json id textChunks toolCalls usage

def classes : List PyClass := [.keyError, .typeError, .valueError]

/-- `tool_string(block["id"])` and `tool_string(block["name"])`. -/
def readIdentity (block : JsonObject) : Except Exn (PyStr × PyStr) := do
  let id ← toolString (← block.item "id")
  let name ← toolString (← block.item "name")
  .ok (id, name)

/-! ## The whole body -/

structure Blocks where
  textChunks : List PyStr
  toolChunks : IntDict ToolChunk

/-- The loop of `_result` over the blocks. -/
def readBlocks (json : PyJson) : Nat → List PyValue → Blocks → Except Exn Blocks
  | _, [], acc => .ok acc
  | index, rawBlock :: rest, acc => do
    let block ← object "content block" rawBlock
    if hasType block "text" then
      readBlocks json (index + 1) rest
        { acc with textChunks := acc.textChunks ++ textOf (block.get "text") }
    else if hasType block "tool_use" then do
      let (id, name) ← readIdentity block
      let arguments ← json.dumps (block.getD "input" (.dict []))
      readBlocks json (index + 1) rest
        { acc with toolChunks := acc.toolChunks.insert index ⟨id, name, arguments⟩ }
    else readBlocks json (index + 1) rest acc

/-- `_result`. -/
def result (json : PyJson) (id : Uuid) (body : JsonObject) : Except Exn ModelResult :=
  if !isNoneOr stopReasons (body.get "stop_reason") then
    .error (rejected "Anthropic response did not finish successfully")
  else do
    let rawContent ← sequence "content" (body.get "content")
    let blocks ← readBlocks json 0 rawContent ⟨[], []⟩
    let usage ← tokenUsage (body.get "usage") "input_tokens" "output_tokens"
    assembled json id blocks.textChunks blocks.toolChunks usage

/-- `AnthropicModelClient.generate`, given the body of the response. -/
def generate (json : PyJson) (id : Uuid) (body : List Byte) : Except Exn ModelResult :=
  Except.mapError (translate classes (requestFailure "Anthropic model request failed")) (do
    let body ← object "response" (← json.loadsBytes body)
    result json id body)

/-! ## The stream -/

structure StreamState where
  textChunks : List PyStr
  toolChunks : IntDict ToolChunk
  inputTokens : Option Nat
  outputTokens : Option Nat

def StreamState.start : StreamState := ⟨[], [], none, none⟩

/-- `self._mapping({} if raw_usage is None else raw_usage, "stream usage")`. -/
def usageObject : PyValue → Except Exn JsonObject
  | .none => .ok []
  | v => object "stream usage" v

/-- `message_start`. -/
def readMessageStart (s : StreamState) (event : JsonObject) : Except Exn StreamState := do
  let message ← object "stream message" (event.get "message")
  let usage ← usageObject (message.get "usage")
  let input ← tokenCount (usage.get "input_tokens")
  let output ← tokenCount (usage.get "output_tokens")
  .ok { s with inputTokens := input, outputTokens := output }

/-- `json.dumps(initial_input) if initial_input else ""`. -/
def initialText (json : PyJson) (initial : JsonObject) : Except Exn PyStr :=
  if initial.isEmpty then .ok [] else json.dumps (.dict initial)

/-- The start of a `tool_use` block. -/
def readToolStart (json : PyJson) (s : StreamState) (index : Nat) (block : JsonObject) :
    Except Exn StreamState :=
  if (s.toolChunks.get? index).isSome then
    .error (rejected "Anthropic repeated a tool block index")
  else
    match block.getD "input" (.dict []) with
    | .dict initial => do
      let (id, name) ← readIdentity block
      let arguments ← initialText json initial
      .ok { s with toolChunks := s.toolChunks.insert index ⟨id, name, arguments⟩ }
    | _ => .error (rejected "Anthropic returned invalid tool input")

/-- `content_block_start`. -/
def readBlockStart (json : PyJson) (s : StreamState) (event : JsonObject) :
    Except Exn StreamState := do
  let index ← toolIndex (event.getD "index" (.int 0))
  let block ← object "content block" (event.get "content_block")
  if hasType block "tool_use" then readToolStart json s index block else .ok s

/-- `tool_chunks[index]["arguments"] += tool_string(partial)`. -/
def readPartial (s : StreamState) (index : Nat) (raw : PyValue) : Except Exn StreamState :=
  match s.toolChunks.get? index with
  | none => .error (.py .keyError "index")
  | some chunk => do
    let text ← toolString raw
    .ok { s with
      toolChunks := s.toolChunks.insert index { chunk with arguments := chunk.arguments ++ text } }

/-- `content_block_delta`. -/
def readBlockDelta (s : StreamState) (event : JsonObject) :
    Gen Exn ModelStreamEvent StreamState := do
  let index ← .ofExcept (toolIndex (event.getD "index" (.int 0)))
  let delta ← .ofExcept (object "content delta" (event.get "delta"))
  if hasType delta "text_delta" then do
    let texts := textOf (delta.get "text")
    texts.forM yieldText
    pure { s with textChunks := s.textChunks ++ texts }
  else if hasType delta "input_json_delta" then
    .ofExcept (readPartial s index (delta.get "partial_json"))
  else pure s

/-- A count of `message_delta`, which replaces the earlier one. -/
def replaceCount (usage : JsonObject) (name : String) (earlier : Option Nat) :
    Except Exn (Option Nat) :=
  if usage.contains name then tokenCount (usage.get name) else .ok earlier

/-- `message_delta`. -/
def readMessageDelta (s : StreamState) (event : JsonObject) : Except Exn StreamState := do
  let delta ← object "message delta" (event.getD "delta" (.dict []))
  if !isNoneOr stopReasons (delta.get "stop_reason") then
    .error (rejected "Anthropic model stream did not finish successfully")
  else do
    let usage ← usageObject (event.get "usage")
    let input ← replaceCount usage "input_tokens" s.inputTokens
    let output ← replaceCount usage "output_tokens" s.outputTokens
    .ok { s with inputTokens := input, outputTokens := output }

/-- One event that does not end the stream. -/
def readEvent (json : PyJson) (s : StreamState) (event : JsonObject) :
    Gen Exn ModelStreamEvent StreamState :=
  if hasType event "message_start" then .ofExcept (readMessageStart s event)
  else if hasType event "content_block_start" then .ofExcept (readBlockStart json s event)
  else if hasType event "content_block_delta" then readBlockDelta s event
  else if hasType event "message_delta" then .ofExcept (readMessageDelta s event)
  else pure s

/-- The loop over the data, and whether `message_stop` ended it. -/
def readStream (json : PyJson) (ending : Except Exn Unit) :
    List PyStr → StreamState → Gen Exn ModelStreamEvent (StreamState × Bool)
  | [], s => do
    .ofExcept ending
    pure (s, false)
  | data :: rest, s =>
    if data = [] then readStream json ending rest s
    else do
      let value ← .ofExcept (json.loads data)
      let event ← .ofExcept (object "stream event" value)
      if hasType event "error" then
        .raise (.kit (.provider true) "Anthropic model stream returned an error")
      else if hasType event "message_stop" then pure (s, true)
      else do
        let s ← readEvent json s event
        readStream json ending rest s

/-- `token_usage({"input": …, "output": …}, "input", "output")`. -/
def streamUsage (s : StreamState) : Except Exn (Option Usage) :=
  let count (n : Option Nat) : PyValue := (n.map fun n => PyValue.int n).getD .none
  tokenUsage (.dict [(PyValue.key "input", count s.inputTokens),
    (PyValue.key "output", count s.outputTokens)]) "input" "output"

/-- `AnthropicModelClient.stream`, given the data of the events. -/
def stream (json : PyJson) (id : Uuid) (source : Gen Exn PyStr Unit) :
    Gen Exn ModelStreamEvent Unit := do
  let (s, completed) ← translated classes (requestFailure "Anthropic model stream failed")
    (readStream json source.ending source.yields .start)
  if !completed then
    .raise (.kit (.provider true) "Anthropic model stream ended before completion")
  else do
    let usage ← .ofExcept (streamUsage s)
    let result ← .ofExcept (assembled json id s.textChunks s.toolChunks usage)
    .yield (.completed result.object)

-- ---------------------------------------------------------------------------
-- What escapes
-- ---------------------------------------------------------------------------

section Safe

variable {json : PyJson}

theorem type_mem : PyClass.typeError ∈ classes := by decide

theorem value_mem : PyClass.valueError ∈ classes := by decide

theorem key_mem : PyClass.keyError ∈ classes := by decide

theorem raises_sequence (label : String) (v : PyValue) :
    Raises (json.Caught classes) (sequence label v) := by
  rw [sequence.eq_def]
  split
  · exact .ok _
  · exact .error (caught_py type_mem _)

theorem raises_readIdentity (block : JsonObject) :
    Raises (json.Caught classes) (readIdentity block) := by
  rw [readIdentity]
  refine (raises_item key_mem block "id").bind fun rawId _ => ?_
  refine (raises_toolString rawId).caught.bind fun id _ => ?_
  refine (raises_item key_mem block "name").bind fun rawName _ => ?_
  exact (raises_toolString rawName).caught.bind fun name _ => .ok _

theorem raises_callOf (json' : PyJson) {classes : List PyClass}
    (hvalue : PyClass.valueError ∈ classes) (chunk : ToolChunk) (v : PyValue) :
    Raises (json.Caught classes) (callOf json' chunk v) := by
  rw [callOf.eq_def]
  split
  · exact raises_toolCall json' hvalue _ _ _
  · exact .error (caught_py hvalue _)

theorem raises_closeChunk {classes : List PyClass} (hvalue : PyClass.valueError ∈ classes)
    (chunk : ToolChunk) : Raises (json.Caught classes) (closeChunk json chunk) := by
  rw [closeChunk]
  exact (raises_loads hvalue _).bind fun v _ => raises_callOf json hvalue chunk v

theorem raises_assembled (id : Uuid) (textChunks : List PyStr) (toolChunks : IntDict ToolChunk)
    (usage : Option Usage) :
    Raises json.Safe (assembled json id textChunks toolChunks usage) := by
  rw [assembled]
  refine Raises.bind (Raises.mapError fun e he => ?_) fun calls _ => ?_
  · have hcaught : json.Caught [.typeError, .valueError] e :=
      Raises.mapM (fun chunk _ => raises_closeChunk (by decide) chunk) e he
    exact hcaught.translate rfl
  · split
    · exact .error (safe_rejected _)
    · exact raises_assembledResult _ _ _ _ _

theorem raises_readBlocks (index : Nat) (blocks : List PyValue) (acc : Blocks) :
    Raises (json.Caught classes) (readBlocks json index blocks acc) := by
  induction blocks generalizing index acc with
  | nil => exact .ok _
  | cons rawBlock rest ih =>
    rw [readBlocks]
    refine (raises_mapping type_mem _ rawBlock).bind fun block _ => ?_
    split
    · exact ih _ _
    · split
      · refine (raises_readIdentity block).bind fun identity _ => ?_
        exact (raises_dumps value_mem _).bind fun arguments _ => ih _ _
      · exact ih _ _

theorem raises_result (id : Uuid) (body : JsonObject) :
    Raises (json.Caught classes) (result json id body) := by
  rw [result]
  split
  · exact .error (caught_rejected _)
  · refine (raises_sequence _ _).bind fun content _ => ?_
    refine (raises_readBlocks _ _ _).bind fun blocks _ => ?_
    refine (raises_tokenUsage _ _ _).caught.bind fun usage _ => ?_
    exact (raises_assembled _ _ _ _).mono fun _ he => Or.inl he

theorem raises_generate (id : Uuid) (body : List Byte) :
    Raises json.Safe (generate json id body) := by
  rw [generate]
  refine Raises.mapError fun e he => ?_
  have hcaught : json.Caught classes e := by
    refine Raises.bind (raises_loadsBytes value_mem body) (fun raw _ => ?_) e he
    exact (raises_mapping type_mem _ raw).bind fun body _ => raises_result id body
  exact hcaught.translate rfl

theorem raises_usageObject (v : PyValue) : Raises (json.Caught classes) (usageObject v) := by
  rw [usageObject.eq_def]
  split
  · exact .ok _
  · exact raises_mapping type_mem _ _

theorem raises_readMessageStart (s : StreamState) (event : JsonObject) :
    Raises (json.Caught classes) (readMessageStart s event) := by
  rw [readMessageStart]
  refine (raises_mapping type_mem _ _).bind fun message _ => ?_
  refine (raises_usageObject _).bind fun usage _ => ?_
  refine (raises_tokenCount _).caught.bind fun input _ => ?_
  exact (raises_tokenCount _).caught.bind fun output _ => .ok _

theorem raises_readToolStart (s : StreamState) (index : Nat) (block : JsonObject) :
    Raises (json.Caught classes) (readToolStart json s index block) := by
  rw [readToolStart]
  split
  · exact .error (caught_rejected _)
  · split
    · refine (raises_readIdentity block).bind fun identity _ => ?_
      refine Raises.bind ?_ fun arguments _ => .ok _
      rw [initialText]
      split
      · exact .ok _
      · exact raises_dumps value_mem _
    · exact .error (caught_rejected _)

theorem raises_readBlockStart (s : StreamState) (event : JsonObject) :
    Raises (json.Caught classes) (readBlockStart json s event) := by
  rw [readBlockStart]
  refine (raises_toolIndex _).caught.bind fun index _ => ?_
  refine (raises_mapping type_mem _ _).bind fun block _ => ?_
  split
  · exact raises_readToolStart _ _ _
  · exact .ok _

theorem raises_readPartial (s : StreamState) (index : Nat) (raw : PyValue) :
    Raises (json.Caught classes) (readPartial s index raw) := by
  rw [readPartial]
  split
  · exact .error (caught_py key_mem _)
  · exact (raises_toolString raw).caught.bind fun text _ => .ok _

theorem raises_readBlockDelta (s : StreamState) (event : JsonObject) :
    Raises (json.Caught classes) (readBlockDelta s event).ending := by
  rw [readBlockDelta]
  refine Gen.raises_bind (raises_toolIndex _).caught fun index _ => ?_
  refine Gen.raises_bind (raises_mapping type_mem _ _) fun delta _ => ?_
  split
  · refine Gen.raises_bind (Gen.raises_forM fun text _ => raises_yieldText value_mem text) ?_
    intro _ _
    exact .ok _
  · split
    · exact raises_readPartial _ _ _
    · exact .ok _

theorem raises_replaceCount (usage : JsonObject) (name : String) (earlier : Option Nat) :
    RaisesProvider (replaceCount usage name earlier) := by
  rw [replaceCount]
  split
  · exact raises_tokenCount _
  · exact .ok _

theorem raises_readMessageDelta (s : StreamState) (event : JsonObject) :
    Raises (json.Caught classes) (readMessageDelta s event) := by
  rw [readMessageDelta]
  refine (raises_mapping type_mem _ _).bind fun delta _ => ?_
  split
  · exact .error (caught_rejected _)
  · refine (raises_usageObject _).bind fun usage _ => ?_
    refine (raises_replaceCount _ _ _).caught.bind fun input _ => ?_
    exact (raises_replaceCount _ _ _).caught.bind fun output _ => .ok _

theorem raises_readEvent (s : StreamState) (event : JsonObject) :
    Raises (json.Caught classes) (readEvent json s event).ending := by
  rw [readEvent]
  split
  · exact raises_readMessageStart s event
  · split
    · exact raises_readBlockStart s event
    · split
      · exact raises_readBlockDelta s event
      · split
        · exact raises_readMessageDelta s event
        · exact .ok _

theorem raises_readStream {ending : Except Exn Unit} (hending : Raises (json.Caught classes) ending)
    (datas : List PyStr) (s : StreamState) :
    Raises (json.Caught classes) (readStream json ending datas s).ending := by
  induction datas generalizing s with
  | nil => exact Gen.raises_bind hending fun _ _ => .ok _
  | cons data rest ih =>
    rw [readStream]
    split
    · exact ih s
    · refine Gen.raises_bind (raises_loads value_mem data) fun value _ => ?_
      refine Gen.raises_bind (raises_mapping type_mem _ value) fun event _ => ?_
      split
      · exact .error (Or.inl (Or.inl rfl))
      · split
        · exact .ok _
        · exact Gen.raises_bind (raises_readEvent s event) fun s' _ => ih s'

theorem raises_stream {source : Gen Exn PyStr Unit}
    (hsource : Raises (json.Caught classes) source.ending) (id : Uuid) :
    Raises json.Safe (stream json id source).ending := by
  rw [stream]
  refine Gen.raises_bind ?_ ?_
  · refine Raises.mapError fun e he => ?_
    exact (raises_readStream hsource source.yields .start e he).translate rfl
  · rintro ⟨s, completed⟩ -
    dsimp only
    split
    · exact .error (Or.inl rfl)
    · have husage : RaisesProvider (streamUsage s) := by
        rw [streamUsage]
        exact raises_tokenUsage _ _ _
      refine Gen.raises_bind husage.safe fun usage _ => ?_
      refine Gen.raises_bind (raises_assembled _ _ _ _) fun result _ => ?_
      exact .ok _

end Safe

end Anthropic

end AgentRuntimeKit
