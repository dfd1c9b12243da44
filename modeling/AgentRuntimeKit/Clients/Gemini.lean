import AgentRuntimeKit.Clients.Canonical
import AgentRuntimeKit.Lib.UuidText

/-!
# The Gemini adapter

How `GeminiModelClient` (`models_clients/gemini.py`) reads an answer: `generate` the body of one
response, `stream` the data of its chunks. The wire format has no call identifiers; the n-th call
of an answer gets `uuids n`.
-/

namespace AgentRuntimeKit

open Lib Utf8

namespace Gemini

/-- `_mapping`. -/
def object (label : String) : PyValue → Except Exn JsonObject :=
  mapping s!"Gemini {label}"

/-- `_sequence`: a non-empty array. -/
def sequence (label : String) : PyValue → Except Exn (List PyValue)
  | .list (x :: xs) => .ok (x :: xs)
  | _ => .error (.py .valueError s!"Gemini {label} must be a non-empty array")

def classes : List PyClass := [.keyError, .indexError, .typeError, .valueError]

def finishReasons : List String := ["STOP"]

/-- `_usage`. -/
def readUsage (body : JsonObject) : Except Exn (Option Usage) :=
  tokenUsage (body.get "usageMetadata") "promptTokenCount" "candidatesTokenCount"

/-- `f"gemini-{uuid4()}"`. -/
def callId (uuid : Uuid) : PyStr := PyStr.ofString "gemini-" ++ uuidText uuid

/-- `_tool_call`. -/
def toolCall (json : PyJson) (uuid : Uuid) (function : JsonObject) : Except Exn ToolCall :=
  match function.getD "args" (.dict []) with
  | .dict arguments => do
    let name ← toolString (← function.item "name")
    ToolCall.decoded json (callId uuid) name arguments
  | _ => .error (rejected "Gemini returned invalid tool arguments")

/-- The one candidate, its index and its finish reason checked. -/
def readCandidate (message : String) (body : JsonObject) : Except Exn JsonObject := do
  match ← sequence "candidates" (body.get "candidates") with
  | [rawCandidate] => do
    let candidate ← object "candidate" rawCandidate
    candidateIndex candidate
    if !isNoneOr finishReasons (candidate.get "finishReason") then .error (rejected message)
    else .ok candidate
  | _ => .error (rejected "Gemini returned multiple candidates")

/-- The parts of a content. -/
def readParts (content : PyValue) : Except Exn (List JsonObject) := do
  let content ← object "content" content
  let parts ← sequence "parts" (content.get "parts")
  parts.mapM (object "part")

/-- `if "functionCall" in part`. -/
def readCall (json : PyJson) (uuids : Nat → Uuid) (calls : List ToolCall) (part : JsonObject) :
    Except Exn (List ToolCall) :=
  match PyValue.field "functionCall" part with
  | none => .ok calls
  | some raw => do
    let function ← object "function call" raw
    let call ← toolCall json (uuids calls.length) function
    .ok (calls ++ [call])

/-- `_assembled_result`. -/
def assembled (json : PyJson) (id : Uuid) (textChunks : List PyStr)
    (toolCalls : List ToolCall) (usage : Option Usage) : Except Exn ModelResult :=
  if textChunks = [] ∧ toolCalls = [] then
    .error (rejected "Gemini returned an empty assistant message")
  else assembledResult json id textChunks toolCalls usage

/-! ## The whole body -/

/-- `_result`. -/
def result (json : PyJson) (id : Uuid) (uuids : Nat → Uuid) (body : JsonObject) :
    Except Exn ModelResult := do
  let candidate ← readCandidate "Gemini response did not finish successfully" body
  let parts ← readParts (candidate.get "content")
  let textChunks := parts.flatMap fun part => textOf (part.get "text")
  let toolCalls ← parts.foldlM (readCall json uuids) []
  let usage ← readUsage body
  assembled json id textChunks toolCalls usage

/-- `GeminiModelClient.generate`, given the body of the response. -/
def generate (json : PyJson) (id : Uuid) (uuids : Nat → Uuid) (body : List Byte) :
    Except Exn ModelResult :=
  Except.mapError (translate classes (requestFailure "Gemini model request failed")) (do
    let body ← object "response" (← json.loadsBytes body)
    result json id uuids body)

/-! ## The stream -/

structure StreamState where
  textChunks : List PyStr
  toolCalls : List ToolCall
  usage : Option Usage
  completed : Bool

def StreamState.start : StreamState := ⟨[], [], none, false⟩

/-- One part of a chunk. -/
def readPart (json : PyJson) (uuids : Nat → Uuid) (s : StreamState) (part : JsonObject) :
    Gen Exn ModelStreamEvent StreamState := do
  let texts := textOf (part.get "text")
  texts.forM yieldText
  let calls ← .ofExcept (readCall json uuids s.toolCalls part)
  pure { s with textChunks := s.textChunks ++ texts, toolCalls := calls }

/-- The parts of a chunk, which may have no content. -/
def chunkParts (candidate : JsonObject) : Except Exn (List JsonObject) :=
  match PyValue.field "content" candidate with
  | none => .ok []
  | some content => readParts content

/-- `reason == "STOP"`. -/
def isStop (candidate : JsonObject) : Bool :=
  match candidate.get "finishReason" with
  | .str reason => reason = PyStr.ofString "STOP"
  | _ => false

/-- One chunk, decoded. -/
def readValue (json : PyJson) (uuids : Nat → Uuid) (s : StreamState) (value : PyValue) :
    Gen Exn ModelStreamEvent StreamState := do
  let body ← .ofExcept (object "stream event" value)
  if body.contains "error" then
    .raise (.kit (.provider true) "Gemini model stream returned an error")
  else do
    let candidate ← .ofExcept
      (readCandidate "Gemini model stream did not finish successfully" body)
    if s.completed then
      .raise (rejected "Gemini model stream continued after completion")
    else do
      let parts ← .ofExcept (chunkParts candidate)
      let s ← parts.foldlM (readPart json uuids) { s with completed := isStop candidate }
      let usage ← .ofExcept (readUsage body)
      pure { s with usage := usage <|> s.usage }

def readEvent (json : PyJson) (uuids : Nat → Uuid) (s : StreamState) (data : PyStr) :
    Gen Exn ModelStreamEvent StreamState := do
  let value ← .ofExcept (json.loads data)
  readValue json uuids s value

/-- The loop over the data. -/
def readStream (json : PyJson) (uuids : Nat → Uuid) (ending : Except Exn Unit) :
    List PyStr → StreamState → Gen Exn ModelStreamEvent StreamState
  | [], s => do
    .ofExcept ending
    pure s
  | data :: rest, s =>
    if data = [] then readStream json uuids ending rest s
    else do
      let s ← readEvent json uuids s data
      readStream json uuids ending rest s

/-- `GeminiModelClient.stream`, given the data of the chunks. -/
def stream (json : PyJson) (id : Uuid) (uuids : Nat → Uuid) (source : Gen Exn PyStr Unit) :
    Gen Exn ModelStreamEvent Unit := do
  let s ← translated classes (requestFailure "Gemini model stream failed")
    (readStream json uuids source.ending source.yields .start)
  if !s.completed then
    .raise (.kit (.provider true) "Gemini model stream ended before completion")
  else do
    let result ← .ofExcept (assembled json id s.textChunks s.toolCalls s.usage)
    .yield (.completed result.object)

-- ---------------------------------------------------------------------------
-- What escapes
-- ---------------------------------------------------------------------------

section Safe

variable {json : PyJson}

theorem type_mem : PyClass.typeError ∈ classes := by decide

theorem value_mem : PyClass.valueError ∈ classes := by decide

theorem key_mem : PyClass.keyError ∈ classes := by decide

theorem raises_sequence (label : String) (v : PyValue) :
    Raises (json.Caught classes) (sequence label v) := by
  rw [sequence.eq_def]
  split
  · exact .ok _
  · exact .error (caught_py value_mem _)

theorem raises_readCandidate (message : String) (body : JsonObject) :
    Raises (json.Caught classes) (readCandidate message body) := by
  rw [readCandidate]
  refine (raises_sequence _ _).bind fun candidates _ => ?_
  split
  · refine (raises_mapping type_mem _ _).bind fun candidate _ => ?_
    refine (raises_candidateIndex candidate).caught.bind fun _ _ => ?_
    split
    · exact .error (caught_rejected _)
    · exact .ok _
  · exact .error (caught_rejected _)

theorem raises_readParts (content : PyValue) :
    Raises (json.Caught classes) (readParts content) := by
  rw [readParts]
  refine (raises_mapping type_mem _ _).bind fun content _ => ?_
  refine (raises_sequence _ _).bind fun parts _ => ?_
  exact Raises.mapM fun part _ => raises_mapping type_mem _ part

theorem raises_readCall (json' : PyJson) (uuids : Nat → Uuid) (calls : List ToolCall)
    (part : JsonObject) : Raises (json.Caught classes) (readCall json' uuids calls part) := by
  rw [readCall]
  split
  · exact .ok _
  · refine (raises_mapping type_mem _ _).bind fun function _ => ?_
    refine Raises.bind ?_ fun call _ => .ok _
    rw [toolCall]
    split
    · refine (raises_item key_mem function "name").bind fun rawName _ => ?_
      refine (raises_toolString rawName).caught.bind fun name _ => ?_
      exact raises_toolCall json' value_mem _ _ _
    · exact .error (caught_rejected _)

theorem raises_assembled (id : Uuid) (textChunks : List PyStr) (toolCalls : List ToolCall)
    (usage : Option Usage) : Raises json.Safe (assembled json id textChunks toolCalls usage) := by
  rw [assembled]
  split
  · exact .error (safe_rejected _)
  · exact raises_assembledResult _ _ _ _ _

theorem raises_result (id : Uuid) (uuids : Nat → Uuid) (body : JsonObject) :
    Raises (json.Caught classes) (result json id uuids body) := by
  rw [result]
  refine (raises_readCandidate _ body).bind fun candidate _ => ?_
  refine (raises_readParts _).bind fun parts _ => ?_
  refine Raises.bind
    (Raises.foldlM (fun calls part _ => raises_readCall json uuids calls part) _) ?_
  intro calls _
  refine (raises_tokenUsage _ _ _).caught.bind fun usage _ => ?_
  exact (raises_assembled _ _ _ _).mono fun _ he => Or.inl he

theorem raises_generate (id : Uuid) (uuids : Nat → Uuid) (body : List Byte) :
    Raises json.Safe (generate json id uuids body) := by
  rw [generate]
  refine Raises.mapError fun e he => ?_
  have hcaught : json.Caught classes e := by
    refine Raises.bind (raises_loadsBytes value_mem body) (fun raw _ => ?_) e he
    exact (raises_mapping type_mem _ raw).bind fun body _ => raises_result id uuids body
  exact hcaught.translate rfl

theorem raises_readPart (json' : PyJson) (uuids : Nat → Uuid) (s : StreamState)
    (part : JsonObject) : Raises (json.Caught classes) (readPart json' uuids s part).ending := by
  rw [readPart]
  refine Gen.raises_bind
    (Gen.raises_forM fun text _ => raises_yieldText value_mem text) fun _ _ => ?_
  exact Gen.raises_bind (raises_readCall json' uuids _ part) fun calls _ => .ok _

theorem raises_chunkParts (candidate : JsonObject) :
    Raises (json.Caught classes) (chunkParts candidate) := by
  rw [chunkParts]
  split
  · exact .ok _
  · exact raises_readParts _

theorem raises_readValue (json' : PyJson) (uuids : Nat → Uuid) (s : StreamState)
    (value : PyValue) : Raises (json.Caught classes) (readValue json' uuids s value).ending := by
  rw [readValue]
  refine Gen.raises_bind (raises_mapping type_mem _ value) fun body _ => ?_
  split
  · exact .error (Or.inl (Or.inl rfl))
  · refine Gen.raises_bind (raises_readCandidate _ body) fun candidate _ => ?_
    split
    · exact .error (caught_rejected _)
    · refine Gen.raises_bind (raises_chunkParts candidate) fun parts _ => ?_
      refine Gen.raises_bind
        (Gen.raises_foldlM (fun s part _ => raises_readPart json' uuids s part) _) ?_
      intro s' _
      exact Gen.raises_bind (raises_tokenUsage _ _ _).caught fun usage _ => .ok _

theorem raises_readEvent (uuids : Nat → Uuid) (s : StreamState) (data : PyStr) :
    Raises (json.Caught classes) (readEvent json uuids s data).ending := by
  rw [readEvent]
  exact Gen.raises_bind (raises_loads value_mem data) fun value _ =>
    raises_readValue json uuids s value

theorem raises_readStream (uuids : Nat → Uuid) {ending : Except Exn Unit}
    (hending : Raises (json.Caught classes) ending) (datas : List PyStr) (s : StreamState) :
    Raises (json.Caught classes) (readStream json uuids ending datas s).ending := by
  induction datas generalizing s with
  | nil => exact Gen.raises_bind hending fun _ _ => .ok _
  | cons data rest ih =>
    rw [readStream]
    split
    · exact ih s
    · exact Gen.raises_bind (raises_readEvent uuids s data) fun s' _ => ih s'

theorem raises_stream (uuids : Nat → Uuid) {source : Gen Exn PyStr Unit}
    (hsource : Raises (json.Caught classes) source.ending) (id : Uuid) :
    Raises json.Safe (stream json id uuids source).ending := by
  rw [stream]
  refine Gen.raises_bind ?_ fun s _ => ?_
  · refine Raises.mapError fun e he => ?_
    exact (raises_readStream uuids hsource source.yields .start e he).translate rfl
  · split
    · exact .error (Or.inl rfl)
    · exact Gen.raises_bind (raises_assembled _ _ _ _) fun result _ => .ok _

end Safe

end Gemini

end AgentRuntimeKit
