import AgentRuntimeKit.Clients.Canonical

/-!
# The OpenAI-compatible adapter

How `OpenAICompatibleModelClient` (`models_clients/openai_compatible.py`) reads an answer:
`generate` the body of one chat completion, `stream` the data of a stream of deltas. The request
and the connection are left out: a body is what a successful response carries, and the data of a
stream come from a generator that may itself raise.
-/

namespace AgentRuntimeKit

open Lib Utf8

namespace OpenAI

/-- `_mapping`. -/
def object (label : String) : PyValue → Except Exn JsonObject :=
  mapping s!"Provider {label}"

/-- `_sequence`: a non-empty array. -/
def sequence (label : String) : PyValue → Except Exn (List PyValue)
  | .list [] => .error (.py .valueError s!"Provider {label} must not be empty")
  | .list xs => .ok xs
  | _ => .error (.py .typeError s!"Provider {label} must be an array")

def finishReasons : List String := ["stop", "tool_calls"]

/-- The call that decoded arguments make with an identifier and a name. -/
def callOf (json : PyJson) (idAndName : Except Exn (PyStr × PyStr)) :
    PyValue → Except Exn ToolCall
  | .dict kvs => do
    let (id, name) ← idAndName
    ToolCall.decoded json id name kvs
  | _ => .error (.py .valueError "Tool arguments must be an object")

def decodeCall (json : PyJson) (arguments : PyStr) (idAndName : Except Exn (PyStr × PyStr)) :
    Except Exn ToolCall := do
  callOf json idAndName (← json.loads arguments)

/-! ## The whole body -/

def generateClasses : List PyClass := [.keyError, .indexError, .typeError, .valueError]

/-- The first half of `generate`, inside its `try`, after `json.loads`. -/
def readResponse (value : PyValue) : Except Exn (JsonObject × JsonObject) := do
  let body ← object "response" value
  match ← sequence "choices" (body.get "choices") with
  | [rawChoice] => do
    let choice ← object "choice" rawChoice
    candidateIndex choice
    if !isNoneOr finishReasons (choice.get "finish_reason") then
      .error (rejected "Model response did not finish successfully")
    else do
      let message ← object "message" (choice.get "message")
      .ok (body, message)
  | _ => .error (rejected "Model returned multiple choices")

def readBody (json : PyJson) (body : List Byte) : Except Exn (JsonObject × JsonObject) := do
  readResponse (← json.loadsBytes body)

/-- One entry of `tool_calls`, inside its `try`. -/
def readCall (json : PyJson) (rawValue : PyValue) : Except Exn ToolCall := do
  let raw ← object "tool call" rawValue
  let function ← object "tool function" (raw.get "function")
  let arguments ← toolString (function.getD "arguments" (.str (PyStr.ofString "\x7b\x7d")))
  decodeCall json arguments (do
    let id ← toolString (← raw.item "id")
    let name ← toolString (← function.item "name")
    .ok (id, name))

def invalidCall : Exn := rejected "Model returned an invalid tool call"

/-- The loop over `tool_calls`. -/
def readCalls (json : PyJson) (raw : PyValue) : Except Exn (List ToolCall) :=
  match raw with
  | .none => .ok []
  | .list xs => xs.mapM fun x =>
      Except.mapError (translate [.keyError, .typeError, .valueError] invalidCall)
        (readCall json x)
  | _ => .error (rejected "Model returned invalid tool calls")

/-- `OpenAICompatibleModelClient.generate`, given the body of the response. -/
def generate (json : PyJson) (id : Uuid) (body : List Byte) : Except Exn ModelResult := do
  let (body, message) ← Except.mapError
    (translate generateClasses (requestFailure "OpenAI-compatible model request failed"))
    (readBody json body)
  let textChunks := textOf (message.get "content")
  let toolCalls ← readCalls json (message.getD "tool_calls" (.list []))
  if textChunks = [] ∧ toolCalls = [] then
    .error (rejected "Model returned an empty assistant message")
  else do
    let usage ← tokenUsage (body.get "usage") "prompt_tokens" "completion_tokens"
    assembledResult json id textChunks toolCalls usage

/-! ## The stream -/

structure StreamState where
  textChunks : List PyStr
  toolChunks : IntDict ToolChunk
  usage : Option Usage

def StreamState.start : StreamState := ⟨[], [], none⟩

/-- A string that may be missing. -/
def optionalString : PyValue → Except Exn PyStr
  | .none => .ok []
  | v => toolString v

/-- One entry of `delta["tool_calls"]`. -/
def readFragment (chunks : IntDict ToolChunk) (rawCall : PyValue) :
    Except Exn (IntDict ToolChunk) := do
  let call ← object "stream tool call" rawCall
  let index ← toolIndex (call.getD "index" (.int 0))
  let id ← optionalString (call.get "id")
  match call.get "function" with
  | .none => .ok (chunks.update index .empty fun c => { c with id := c.id ++ id })
  | .dict function => do
    let name ← optionalString (JsonObject.get function "name")
    let arguments ← optionalString (JsonObject.get function "arguments")
    .ok (chunks.update index .empty fun c =>
      ⟨c.id ++ id, c.name ++ name, c.arguments ++ arguments⟩)
  | _ => .error (rejected "Model returned an invalid tool function")

/-- The loop over `delta["tool_calls"]`. -/
def readFragments (chunks : IntDict ToolChunk) : PyValue → Except Exn (IntDict ToolChunk)
  | .none => .ok chunks
  | .list raws => raws.foldlM readFragment chunks
  | _ => .error (rejected "Model returned invalid tool calls")

/-- One choice of a stream event. -/
def readChoice (s : StreamState) (rawChoice : PyValue) : Gen Exn ModelStreamEvent StreamState := do
  let choice ← .ofExcept (object "stream choice" rawChoice)
  .ofExcept (candidateIndex choice)
  if !isNoneOr finishReasons (choice.get "finish_reason") then
    .raise (rejected "Model stream did not finish successfully")
  else do
    let delta ← .ofExcept (object "stream delta" (choice.get "delta"))
    let texts := textOf (delta.get "content")
    texts.forM yieldText
    let chunks ← .ofExcept (readFragments s.toolChunks (delta.getD "tool_calls" (.list [])))
    pure { s with textChunks := s.textChunks ++ texts, toolChunks := chunks }

/-- The loop over `choices`, of which there is at most one. -/
def readChoices (s : StreamState) : PyValue → Gen Exn ModelStreamEvent StreamState
  | .list [] => pure s
  | .list [choice] => readChoice s choice
  | .list _ => .raise (rejected "Model returned multiple stream choices")
  | _ => .raise (rejected "Model returned invalid stream choices")

/-- One event of the stream, decoded. -/
def readValue (s : StreamState) (value : PyValue) : Gen Exn ModelStreamEvent StreamState := do
  let body ← .ofExcept (object "stream event" value)
  if body.contains "error" then
    .raise (.kit (.provider true) "OpenAI-compatible model stream returned an error")
  else do
    let usage ← .ofExcept (tokenUsage (body.get "usage") "prompt_tokens" "completion_tokens")
    readChoices { s with usage := usage <|> s.usage } (body.get "choices")

def readEvent (json : PyJson) (s : StreamState) (data : PyStr) :
    Gen Exn ModelStreamEvent StreamState := do
  let value ← .ofExcept (json.loads data)
  readValue s value

/-- The loop over the data, and whether `[DONE]` ended it. -/
def readStream (json : PyJson) (ending : Except Exn Unit) :
    List PyStr → StreamState → Gen Exn ModelStreamEvent (StreamState × Bool)
  | [], s => do
    .ofExcept ending
    pure (s, false)
  | data :: rest, s =>
    if data = [] then readStream json ending rest s
    else if data = PyStr.ofString "[DONE]" then pure (s, true)
    else do
      let s ← readEvent json s data
      readStream json ending rest s

def streamClasses : List PyClass := [.keyError, .typeError, .valueError]

/-- `json.loads(chunk["arguments"] or "{}")` and the call. -/
def closeChunk (json : PyJson) (chunk : ToolChunk) : Except Exn ToolCall :=
  decodeCall json (if chunk.arguments = [] then PyStr.ofString "\x7b\x7d" else chunk.arguments)
    (.ok (chunk.id, chunk.name))

/-- What `stream` makes of the end of the loop. -/
def finishStream (json : PyJson) (id : Uuid) (s : StreamState) : Except Exn ModelResult := do
  let toolCalls ← Except.mapError
    (translate [.typeError, .valueError] (rejected "Model returned an invalid streamed tool call"))
    (s.toolChunks.sorted.mapM (closeChunk json))
  if s.textChunks = [] ∧ toolCalls = [] then
    .error (rejected "Model returned an empty streamed assistant message")
  else assembledResult json id s.textChunks toolCalls s.usage

/-- `OpenAICompatibleModelClient.stream`, given the data of the events. -/
def stream (json : PyJson) (id : Uuid) (source : Gen Exn PyStr Unit) :
    Gen Exn ModelStreamEvent Unit := do
  let (s, completed) ← translated streamClasses
    (requestFailure "OpenAI-compatible model stream failed")
    (readStream json source.ending source.yields .start)
  if !completed then
    .raise (.kit (.provider true) "OpenAI-compatible model stream ended before completion")
  else do
    let result ← .ofExcept (finishStream json id s)
    .yield (.completed result.object)

-- ---------------------------------------------------------------------------
-- What escapes
-- ---------------------------------------------------------------------------

section Safe

variable {json : PyJson} {classes : List PyClass}

theorem raises_sequence (htype : PyClass.typeError ∈ classes)
    (hvalue : PyClass.valueError ∈ classes)
    (label : String) (v : PyValue) : Raises (json.Caught classes) (sequence label v) := by
  rw [sequence.eq_def]
  split
  · exact .error (caught_py hvalue _)
  · exact .ok _
  · exact .error (caught_py htype _)

theorem raises_callOf (json' : PyJson) (hvalue : PyClass.valueError ∈ classes)
    {idAndName : Except Exn (PyStr × PyStr)} (h : Raises (json.Caught classes) idAndName)
    (v : PyValue) : Raises (json.Caught classes) (callOf json' idAndName v) := by
  rw [callOf.eq_def]
  split
  · exact h.bind fun idAndName _ => raises_toolCall json' hvalue _ _ _
  · exact .error (caught_py hvalue _)

theorem raises_decodeCall (hvalue : PyClass.valueError ∈ classes) (arguments : PyStr)
    {idAndName : Except Exn (PyStr × PyStr)} (h : Raises (json.Caught classes) idAndName) :
    Raises (json.Caught classes) (decodeCall json arguments idAndName) := by
  rw [decodeCall]
  exact (raises_loads hvalue arguments).bind fun v _ => raises_callOf json hvalue h v

theorem raises_readResponse (value : PyValue) :
    Raises (json.Caught generateClasses) (readResponse value) := by
  have htype : PyClass.typeError ∈ generateClasses := by decide
  have hvalue : PyClass.valueError ∈ generateClasses := by decide
  rw [readResponse]
  refine (raises_mapping htype _ value).bind fun body _ => ?_
  refine (raises_sequence htype hvalue _ _).bind fun choices _ => ?_
  split
  · refine (raises_mapping htype _ _).bind fun choice _ => ?_
    refine (raises_candidateIndex choice).caught.bind fun _ _ => ?_
    split
    · exact .error (caught_rejected _)
    · exact (raises_mapping htype _ _).bind fun message _ => .ok _
  · exact .error (caught_rejected _)

theorem raises_readBody (body : List Byte) :
    Raises (json.Caught generateClasses) (readBody json body) := by
  have hvalue : PyClass.valueError ∈ generateClasses := by decide
  rw [readBody]
  exact (raises_loadsBytes hvalue body).bind fun raw _ => raises_readResponse raw

theorem raises_readCall (rawValue : PyValue) :
    Raises (json.Caught [.keyError, .typeError, .valueError]) (readCall json rawValue) := by
  have htype : PyClass.typeError ∈ [PyClass.keyError, .typeError, .valueError] := by decide
  have hkey : PyClass.keyError ∈ [PyClass.keyError, .typeError, .valueError] := by decide
  rw [readCall]
  refine (raises_mapping htype _ rawValue).bind fun raw _ => ?_
  refine (raises_mapping htype _ _).bind fun function _ => ?_
  refine (raises_toolString _).caught.bind fun arguments _ => ?_
  refine raises_decodeCall (by decide) arguments ?_
  refine (raises_item hkey raw "id").bind fun rawId _ => ?_
  refine (raises_toolString rawId).caught.bind fun id _ => ?_
  refine (raises_item hkey function "name").bind fun rawName _ => ?_
  exact (raises_toolString rawName).caught.bind fun name _ => .ok _

theorem raises_readCalls (raw : PyValue) : Raises json.Safe (readCalls json raw) := by
  rw [readCalls.eq_def]
  split
  · exact .ok _
  · refine Raises.mapM fun x _ => Raises.mapError fun e he => ?_
    exact (raises_readCall x e he).translate rfl
  · exact .error (safe_rejected _)

theorem raises_generate (id : Uuid) (body : List Byte) :
    Raises json.Safe (generate json id body) := by
  rw [generate]
  refine Raises.bind (Raises.mapError fun e he => (raises_readBody body e he).translate rfl) ?_
  rintro ⟨body, message⟩ -
  refine (raises_readCalls _).bind fun calls _ => ?_
  split
  · exact .error (safe_rejected _)
  · refine (raises_tokenUsage _ _ _).safe.bind fun usage _ => ?_
    exact raises_assembledResult _ _ _ _ _

theorem raises_optionalString (v : PyValue) : RaisesProvider (optionalString v) := by
  rw [optionalString.eq_def]
  split
  · exact .ok _
  · exact raises_toolString v

theorem raises_readFragment (chunks : IntDict ToolChunk) (rawCall : PyValue) :
    Raises (json.Caught streamClasses) (readFragment chunks rawCall) := by
  have htype : PyClass.typeError ∈ streamClasses := by decide
  rw [readFragment]
  refine (raises_mapping htype _ rawCall).bind fun call _ => ?_
  refine (raises_toolIndex _).caught.bind fun index _ => ?_
  refine (raises_optionalString _).caught.bind fun id _ => ?_
  split
  · exact .ok _
  · refine (raises_optionalString _).caught.bind fun name _ => ?_
    exact (raises_optionalString _).caught.bind fun arguments _ => .ok _
  · exact .error (caught_rejected _)

theorem raises_readFragments (chunks : IntDict ToolChunk) (raws : PyValue) :
    Raises (json.Caught streamClasses) (readFragments chunks raws) := by
  rw [readFragments.eq_def]
  split
  · exact .ok _
  · exact Raises.foldlM (fun chunks raw _ => raises_readFragment chunks raw) _
  · exact .error (caught_rejected _)

theorem raises_readChoice (s : StreamState) (rawChoice : PyValue) :
    Raises (json.Caught streamClasses) (readChoice s rawChoice).ending := by
  have htype : PyClass.typeError ∈ streamClasses := by decide
  have hvalue : PyClass.valueError ∈ streamClasses := by decide
  rw [readChoice]
  refine Gen.raises_bind (raises_mapping htype _ rawChoice) fun choice _ => ?_
  refine Gen.raises_bind (raises_candidateIndex choice).caught fun _ _ => ?_
  split
  · exact .error (caught_rejected _)
  · refine Gen.raises_bind (raises_mapping htype _ _) fun delta _ => ?_
    refine Gen.raises_bind
      (Gen.raises_forM fun text _ => raises_yieldText hvalue text) fun _ _ => ?_
    exact Gen.raises_bind (raises_readFragments _ _) fun chunks _ => .ok _

theorem raises_readChoices (s : StreamState) (choices : PyValue) :
    Raises (json.Caught streamClasses) (readChoices s choices).ending := by
  rw [readChoices.eq_def]
  split
  · exact .ok _
  · exact raises_readChoice _ _
  · exact .error (caught_rejected _)
  · exact .error (caught_rejected _)

theorem raises_readValue (s : StreamState) (value : PyValue) :
    Raises (json.Caught streamClasses) (readValue s value).ending := by
  have htype : PyClass.typeError ∈ streamClasses := by decide
  rw [readValue]
  refine Gen.raises_bind (raises_mapping htype _ value) fun body _ => ?_
  split
  · exact .error (Or.inl (Or.inl rfl))
  · exact Gen.raises_bind (raises_tokenUsage _ _ _).caught fun usage _ => raises_readChoices _ _

theorem raises_readEvent (s : StreamState) (data : PyStr) :
    Raises (json.Caught streamClasses) (readEvent json s data).ending := by
  have hvalue : PyClass.valueError ∈ streamClasses := by decide
  rw [readEvent]
  exact Gen.raises_bind (raises_loads hvalue data) fun value _ => raises_readValue s value

theorem raises_readStream {ending : Except Exn Unit}
    (hending : Raises (json.Caught streamClasses) ending) (datas : List PyStr) (s : StreamState) :
    Raises (json.Caught streamClasses) (readStream json ending datas s).ending := by
  induction datas generalizing s with
  | nil => exact Gen.raises_bind hending fun _ _ => .ok _
  | cons data rest ih =>
    rw [readStream]
    split
    · exact ih s
    · split
      · exact .ok _
      · exact Gen.raises_bind (raises_readEvent s data) fun s' _ => ih s'

theorem raises_finishStream (id : Uuid) (s : StreamState) :
    Raises json.Safe (finishStream json id s) := by
  have hclose (chunk : ToolChunk) :
      Raises (json.Caught [.typeError, .valueError]) (closeChunk json chunk) := by
    rw [closeChunk]
    exact raises_decodeCall (by decide) _ (.ok _)
  rw [finishStream]
  refine Raises.bind (Raises.mapError fun e he => ?_) fun calls _ => ?_
  · exact (Raises.mapM (fun chunk _ => hclose chunk) e he).translate rfl
  · split
    · exact .error (safe_rejected _)
    · exact raises_assembledResult _ _ _ _ _

theorem raises_stream {source : Gen Exn PyStr Unit}
    (hsource : Raises (json.Caught streamClasses) source.ending) (id : Uuid) :
    Raises json.Safe (stream json id source).ending := by
  rw [stream]
  refine Gen.raises_bind ?_ ?_
  · refine Raises.mapError fun e he => ?_
    exact (raises_readStream hsource source.yields .start e he).translate rfl
  · rintro ⟨s, completed⟩ -
    dsimp only
    split
    · exact .error (Or.inl rfl)
    · refine Gen.raises_bind (raises_finishStream id s) fun result _ => ?_
      exact .ok _

end Safe

end OpenAI

end AgentRuntimeKit
