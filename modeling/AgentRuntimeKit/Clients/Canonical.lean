import AgentRuntimeKit.Clients.Decoding
import AgentRuntimeKit.Lib.Except
import AgentRuntimeKit.Lib.IntDict
import AgentRuntimeKit.Lib.JsonText
import AgentRuntimeKit.Model.Messages

/-!
# Canonical model results

`ModelResult` and the stream events of `models_clients/base.py`, and `_canonical.py`, whose
checks the HTTP adapters and the native loop share. A `ModelResult` of this development has
passed its validator. A `ResultObject` is what a custom client hands over: an object of that
class whose public fields may have been assigned since.

`assembled_result` catches `ValueError` alone, and `validate_tool_calls` encodes the arguments of
every call with `json.dumps`, which raises `RecursionError` on what nests too deeply for it. So an
answer of a provider that fits (`Fits`) is a result if all its calls can be written (`Assembles`),
and lets a `RecursionError` through if the first one that cannot nests too deeply (`DeepCalls`).
`checked_result` catches every exception, and takes such a result for a malformed one.
-/

namespace AgentRuntimeKit

open Lib

def ContentPart.toolCall? : ContentPart → Option ToolCall
  | toolCall call => some call
  | _ => none

def ContentPart.text? : ContentPart → Option PyStr
  | text part => some part.text
  | _ => none

/-- The tool calls among the parts of a message. -/
def Message.toolCalls (m : Message) : List ToolCall := m.content.filterMap ContentPart.toolCall?

/-- The two calls serialize alike under `json.dumps(…, sort_keys=True)`. -/
def ToolCall.matches (recorded executable : ToolCall) : Bool :=
  recorded.id = executable.id && recorded.name = executable.name &&
    match (PyValue.dict recorded.arguments).dumps? .sorted,
      (PyValue.dict executable.arguments).dumps? .sorted with
    | some a, some b => a = b
    | _, _ => false

/-- `zip(message_calls, tool_calls, strict=True)`, each pair compared. -/
def callsMatch : List ToolCall → List ToolCall → Bool
  | [], [] => true
  | recorded :: rs, executable :: es => recorded.matches executable && callsMatch rs es
  | _, _ => false

/-- `len({call.id for call in calls}) == len(calls)`. -/
def distinctIds (calls : List ToolCall) : Bool := (calls.map ToolCall.id).Nodup

/-- `ModelResult.validate_tool_calls`. -/
def validToolCalls (message : Message) (toolCalls : List ToolCall) : Bool :=
  message.role = .assistant && distinctIds toolCalls && callsMatch message.toolCalls toolCalls

structure ModelResult where
  message : Message
  toolCalls : List ToolCall
  usage : Option Usage
  valid : validToolCalls message toolCalls = true

/-- A `ModelResult` object as a client returns it. Some field of a `malformed` one fails its own
validation, or holds a payload that is not lossless JSON or nests too deeply to be written. -/
inductive ResultObject
  | fields (message : Message) (toolCalls : List ToolCall) (usage : Option Usage)
  | malformed

/-- What a streaming model client emits. -/
inductive ModelStreamEvent
  | textDelta (delta : PyStr)
  | completed (result : ResultObject)

def invalidResult : Exn :=
  .kit (.provider false) "Model returned an invalid canonical result"

/-- `checked_result`. -/
def checkedResult : ResultObject → Except Exn ModelResult
  | .fields message toolCalls usage =>
    if h : validToolCalls message toolCalls = true then .ok ⟨message, toolCalls, usage, h⟩
    else .error invalidResult
  | .malformed => .error invalidResult

/-- The object a validated result is. -/
def ModelResult.object (r : ModelResult) : ResultObject := .fields r.message r.toolCalls r.usage

/-- Checking a validated result changes nothing. -/
@[simp] theorem checkedResult_object (r : ModelResult) : checkedResult r.object = .ok r := by
  rw [ModelResult.object, checkedResult, dif_pos r.valid]

theorem ModelResult.assistant (r : ModelResult) : r.message.role = .assistant := by
  have h := r.valid
  rw [validToolCalls, Bool.and_eq_true, Bool.and_eq_true] at h
  exact of_decide_eq_true h.1.1

theorem ModelResult.nodup_ids (r : ModelResult) : (r.toolCalls.map ToolCall.id).Nodup := by
  have h := r.valid
  rw [validToolCalls, Bool.and_eq_true, Bool.and_eq_true] at h
  exact of_decide_eq_true h.1.2

/-! ## Construction -/

/-- What a failed constructor raises. -/
def invalid (model : String) : Exn := .py .validationError model

def TextContent.new (text : PyStr) : Except Exn TextContent :=
  if h : isStrField 1 32000 text = true then .ok ⟨text, h⟩ else .error (invalid "TextContent")

def ToolCall.new (id name : PyStr) (arguments : JsonObject) : Except Exn ToolCall :=
  if h : isStrField 1 256 id = true ∧ isToolName name = true ∧
      (PyValue.dict arguments).isJson = true then
    .ok ⟨id, name, arguments, h.1, h.2.1, h.2.2⟩
  else .error (invalid "ToolCall")

/-- `ToolCall(...)` of arguments that a provider has sent. -/
def ToolCall.decoded (json : PyJson) (id name : PyStr) (arguments : JsonObject) :
    Except Exn ToolCall :=
  if json.walks (.dict arguments) then ToolCall.new id name arguments
  else .error (invalid "ToolCall")

def Message.new (id : Uuid) (role : Role) (content : List ContentPart) : Except Exn Message :=
  if h : (1 ≤ content.length ∧ content.length ≤ 64) ∧ validToolContent role content = true then
    .ok ⟨id, role, content, h.1, h.2⟩
  else .error (invalid "Message")

/-- The loop of `validate_tool_calls` over the pairs of calls. -/
def compareCalls (json : PyJson) : List ToolCall → List ToolCall → Except Exn Unit
  | [], [] => .ok ()
  | recorded :: rs, executable :: es =>
    if recorded.id = executable.id ∧ recorded.name = executable.name then do
      let a ← json.dumpsSorted (.dict recorded.arguments)
      let b ← json.dumpsSorted (.dict executable.arguments)
      if a = b then compareCalls json rs es else .error (invalid "ModelResult")
    else .error (invalid "ModelResult")
  | _, _ => .error (invalid "ModelResult")

theorem callsMatch_of_compare {json : PyJson} : ∀ {recorded executable : List ToolCall},
    compareCalls json recorded executable = .ok () → callsMatch recorded executable = true
  | [], [], _ => rfl
  | r :: rs, e :: es, h => by
    rw [compareCalls] at h
    by_cases hsame : r.id = e.id ∧ r.name = e.name
    · rw [if_pos hsame] at h
      obtain ⟨a, ha, h⟩ := bind_eq_ok.mp h
      obtain ⟨b, hb, h⟩ := bind_eq_ok.mp h
      by_cases htext : a = b
      · rw [if_pos htext] at h
        have hmatches : r.matches e = true := by
          rw [ToolCall.matches, json.text_of_sorted _ _ ha, json.text_of_sorted _ _ hb, hsame.1,
            hsame.2, htext]
          simp
        rw [callsMatch, hmatches, callsMatch_of_compare h]
        rfl
      · rw [if_neg htext] at h
        cases h
    · rw [if_neg hsame] at h
      cases h
  | [], _ :: _, h => by cases h
  | _ :: _, [], h => by cases h

theorem validToolCalls_of_compare {json : PyJson} {message : Message} {toolCalls : List ToolCall}
    (hrole : message.role = .assistant) (hids : distinctIds toolCalls = true)
    (h : compareCalls json message.toolCalls toolCalls = .ok ()) :
    validToolCalls message toolCalls = true := by
  rw [validToolCalls, hids, callsMatch_of_compare h, decide_eq_true hrole]
  rfl

/-- `ModelResult(...)`. A `RecursionError` of its validator is not a validation error. -/
def ModelResult.new (json : PyJson) (message : Message) (toolCalls : List ToolCall)
    (usage : Option Usage) : Except Exn ModelResult :=
  if h : message.role = .assistant ∧ message.toolCalls.length = toolCalls.length ∧
      distinctIds toolCalls = true then
    match hcompare : compareCalls json message.toolCalls toolCalls with
    | .ok () => .ok ⟨message, toolCalls, usage, validToolCalls_of_compare h.1 h.2.2 hcompare⟩
    | .error e => .error e
  else .error (invalid "ModelResult")

/-- `yield ModelTextDelta(delta=text)`. -/
def yieldText (delta : PyStr) : Gen Exn ModelStreamEvent Unit :=
  if 1 ≤ delta.length && delta.encodable then .yield (.textDelta delta)
  else .raise (invalid "ModelTextDelta")

/-! ## The checks of `_canonical.py` -/

/-- `token_count`. -/
def tokenCount : PyValue → Except Exn (Option Nat)
  | .none => .ok none
  | .int (.ofNat n) => .ok (some n)
  | _ => .error (rejected "Model returned invalid usage")

/-- `token_usage`. -/
def tokenUsage (raw : PyValue) (inputKey outputKey : String) : Except Exn (Option Usage) :=
  match raw with
  | .none => .ok none
  | .dict counts => do
    let input ← tokenCount (JsonObject.get counts inputKey)
    let output ← tokenCount (JsonObject.get counts outputKey)
    match input, output with
    | some i, some o => .ok (some ⟨i, o⟩)
    | _, _ => .ok none
  | _ => .error (rejected "Model returned invalid usage")

/-- `candidate_index`. -/
def candidateIndex (candidate : JsonObject) : Except Exn Unit :=
  match candidate.getD "index" (.int 0) with
  | .int (.ofNat 0) => .ok ()
  | _ => .error (rejected "Model returned an unsupported candidate index")

/-- `tool_string`. -/
def toolString : PyValue → Except Exn PyStr
  | .str s => .ok s
  | _ => .error (rejected "Model returned an invalid tool call")

/-- `tool_index`. -/
def toolIndex : PyValue → Except Exn Nat
  | .int (.ofNat n) => .ok n
  | _ => .error (rejected "Model returned an invalid tool index")

/-- `text if isinstance(text, str) and text`. -/
def textOf : PyValue → List PyStr
  | .str s => if s = [] then [] else [s]
  | _ => []

/-- The value of `tool_chunks` for one index. -/
structure ToolChunk where
  id : PyStr
  name : PyStr
  arguments : PyStr

def ToolChunk.empty : ToolChunk := ⟨[], [], []⟩

/-- The parts of an assembled message. -/
def assembledParts (textChunks : List PyStr) (toolCalls : List ToolCall) :
    Except Exn (List ContentPart) := do
  let calls := toolCalls.map ContentPart.toolCall
  if textChunks = [] then .ok calls
  else do
    let text ← TextContent.new textChunks.flatten
    .ok (.text text :: calls)

def invalidMessage : Exn := rejected "Model returned an invalid canonical message"

/-- `assembled_result`; `id` is the identifier drawn for the message. -/
def assembledResult (json : PyJson) (id : Uuid) (textChunks : List PyStr)
    (toolCalls : List ToolCall) (usage : Option Usage) : Except Exn ModelResult :=
  if distinctIds toolCalls = false then
    .error (rejected "Model returned duplicate tool call IDs")
  else
    Except.mapError (translate [.valueError] invalidMessage) (do
      let parts ← assembledParts textChunks toolCalls
      let message ← Message.new id .assistant parts
      ModelResult.new json message toolCalls usage)

-- ---------------------------------------------------------------------------
-- Assembled results
-- ---------------------------------------------------------------------------

theorem Message.new_eq_ok {id : Uuid} {role : Role} {content : List ContentPart} {m : Message} :
    Message.new id role content = .ok m ↔ m.id = id ∧ m.role = role ∧ m.content = content := by
  constructor
  · intro h
    rw [Message.new] at h
    split at h
    · rw [← Except.ok.inj h]
      exact ⟨rfl, rfl, rfl⟩
    · cases h
  · rintro ⟨rfl, rfl, rfl⟩
    rw [Message.new, dif_pos ⟨m.size, m.validContent⟩]

/-- What the message of an answer requires. -/
structure Fits (chunks : List PyStr) (calls : List ToolCall) : Prop where
  ids : distinctIds calls = true
  text : chunks ≠ [] → isStrField 1 32000 chunks.flatten = true
  nonempty : chunks ≠ [] ∨ calls ≠ []
  size : (if chunks = [] then 0 else 1) + calls.length ≤ 64

/-- The arguments of a call, as they are compared. -/
def writtenCall (json : PyJson) (call : ToolCall) : Except Exn PyStr :=
  json.dumpsSorted (.dict call.arguments)

/-- What `assembled_result` accepts. -/
structure Assembles (json : PyJson) (chunks : List PyStr) (calls : List ToolCall) : Prop
    extends Fits chunks calls where
  written : ∃ texts, calls.mapM (writtenCall json) = .ok texts

/-- The answer fits, and of the calls that cannot be written the first one nests too deeply. -/
structure DeepCalls (json : PyJson) (chunks : List PyStr) (calls : List ToolCall) : Prop where
  fits : Fits chunks calls
  deep : TooDeep (calls.mapM (writtenCall json))

/-- Every call is compared with itself. -/
theorem compareCalls_self (json : PyJson) (calls : List ToolCall) :
    compareCalls json calls calls = (calls.mapM (writtenCall json) >>= fun _ => .ok ()) := by
  induction calls with
  | nil => rfl
  | cons call calls ih =>
    rw [compareCalls, if_pos ⟨rfl, rfl⟩, List.mapM_cons]
    show (writtenCall json call >>= fun a => writtenCall json call >>= fun b =>
      if a = b then compareCalls json calls calls else .error (invalid "ModelResult")) = _
    cases hcall : writtenCall json call with
    | error e => rfl
    | ok text =>
      show (if text = text then compareCalls json calls calls
        else .error (invalid "ModelResult")) = _
      rw [if_pos rfl, ih]
      cases calls.mapM (writtenCall json) with
      | error e => rfl
      | ok texts => rfl

theorem toolCalls_of_parts {chunks : List PyStr} {calls : List ToolCall}
    {parts : List ContentPart} (h : assembledParts chunks calls = .ok parts) :
    parts.filterMap ContentPart.toolCall? = calls ∧
      parts.filterMap ContentPart.text? = (if chunks = [] then [] else [chunks.flatten]) ∧
      parts.length = (if chunks = [] then 0 else 1) + calls.length ∧
      parts.any ContentPart.isToolResult = false ∧
      (chunks ≠ [] → isStrField 1 32000 chunks.flatten = true) := by
  have hcalls : (calls.map ContentPart.toolCall).filterMap ContentPart.toolCall? = calls := by
    rw [List.filterMap_map]
    exact List.filterMap_some
  have htexts : (calls.map ContentPart.toolCall).filterMap ContentPart.text? = [] := by
    rw [List.filterMap_map]
    exact List.filterMap_eq_nil_iff.mpr fun _ _ => rfl
  have hresults : (calls.map ContentPart.toolCall).any ContentPart.isToolResult = false := by
    rw [List.any_eq_false]
    intro p hp
    obtain ⟨call, -, rfl⟩ := List.mem_map.mp hp
    exact Bool.false_ne_true
  rw [assembledParts] at h
  by_cases hchunks : chunks = []
  · rw [if_pos hchunks] at h
    rw [← Except.ok.inj h, if_pos hchunks, if_pos hchunks]
    refine ⟨hcalls, htexts, ?_, hresults, fun hne => absurd hchunks hne⟩
    rw [List.length_map, Nat.zero_add]
  · rw [if_neg hchunks, bind_eq_ok] at h
    obtain ⟨text, htext, hparts⟩ := h
    have hvalid : isStrField 1 32000 chunks.flatten = true ∧ text.text = chunks.flatten := by
      rw [TextContent.new] at htext
      split at htext
      · next hv =>
        rw [← Except.ok.inj htext]
        exact ⟨hv, rfl⟩
      · cases htext
    rw [← Except.ok.inj hparts, if_neg hchunks, if_neg hchunks]
    refine ⟨?_, ?_, ?_, ?_, fun _ => hvalid.1⟩
    · rw [List.filterMap_cons_none rfl, hcalls]
    · rw [List.filterMap_cons, ContentPart.text?, htexts, hvalid.2]
    · rw [List.length_cons, List.length_map, Nat.add_comm]
    · rw [List.any_cons, hresults]
      rfl

/-- A message that its constructor accepts fits. -/
theorem fits_of_message {id : Uuid} {chunks : List PyStr} {calls : List ToolCall}
    {parts : List ContentPart} {message : Message} (hids : distinctIds calls = true)
    (hparts : assembledParts chunks calls = .ok parts)
    (hmessage : Message.new id .assistant parts = .ok message) : Fits chunks calls := by
  obtain ⟨-, -, hlength, -, htext⟩ := toolCalls_of_parts hparts
  obtain ⟨-, -, hcontent⟩ := Message.new_eq_ok.mp hmessage
  have hsize := message.size
  rw [hcontent, hlength] at hsize
  refine ⟨hids, htext, ?_, hsize.2⟩
  by_contra hnone
  obtain ⟨hc, hk⟩ := not_or.mp hnone
  rw [if_pos (not_not.mp hc), not_not.mp hk] at hsize
  exact absurd hsize.1 (by simp)

/-- What fits makes a message. -/
theorem exists_message {chunks : List PyStr} {calls : List ToolCall} (h : Fits chunks calls)
    (id : Uuid) : ∃ parts message, assembledParts chunks calls = .ok parts ∧
      Message.new id .assistant parts = .ok message := by
  have hparts : ∃ parts, assembledParts chunks calls = .ok parts := by
    by_cases hchunks : chunks = []
    · exact ⟨_, by rw [assembledParts, if_pos hchunks]⟩
    · rw [assembledParts, if_neg hchunks, TextContent.new, dif_pos (h.text hchunks)]
      exact ⟨_, rfl⟩
  obtain ⟨parts, hparts⟩ := hparts
  obtain ⟨-, -, hlength, hresults, -⟩ := toolCalls_of_parts hparts
  have hsize : 1 ≤ parts.length ∧ parts.length ≤ 64 := by
    rw [hlength]
    refine ⟨?_, h.size⟩
    rcases h.nonempty with hc | hk
    · rw [if_neg hc]
      omega
    · have hpos := List.length_pos_iff.mpr hk
      omega
  have hcontent : validToolContent .assistant parts = true := by
    simp [validToolContent, hresults]
  exact ⟨parts, ⟨id, .assistant, parts, hsize, hcontent⟩, hparts, by
    rw [Message.new, dif_pos ⟨hsize, hcontent⟩]⟩

/-- `assembled_result` on what fits: the validator of the result decides. -/
theorem assembledResult_of_fits (json : PyJson) {chunks : List PyStr} {calls : List ToolCall}
    (h : Fits chunks calls) (id : Uuid) (usage : Option Usage) :
    (∃ texts r, calls.mapM (writtenCall json) = .ok texts ∧
      assembledResult json id chunks calls usage = .ok r ∧
        assembledParts chunks calls = .ok r.message.content ∧ r.message.id = id ∧
          r.toolCalls = calls ∧ r.usage = usage) ∨
    ∃ e, calls.mapM (writtenCall json) = .error e ∧
      assembledResult json id chunks calls usage =
        .error (translate [.valueError] invalidMessage e) := by
  obtain ⟨parts, message, hparts, hmessage⟩ := exists_message h id
  obtain ⟨hid, hrole, hcontent⟩ := Message.new_eq_ok.mp hmessage
  have hcalls : message.toolCalls = calls := by
    rw [Message.toolCalls, hcontent]
    exact (toolCalls_of_parts hparts).1
  have hchecks : message.role = .assistant ∧ message.toolCalls.length = calls.length ∧
      distinctIds calls = true := ⟨hrole, congrArg List.length hcalls, h.ids⟩
  have hresult : assembledResult json id chunks calls usage =
      (ModelResult.new json message calls usage).mapError
        (translate [.valueError] invalidMessage) := by
    rw [assembledResult, if_neg (by rw [h.ids]; exact Bool.noConfusion), bind_of_ok hparts,
      bind_of_ok hmessage]
  have hcompare : compareCalls json message.toolCalls calls =
      (calls.mapM (writtenCall json) >>= fun _ => .ok ()) := by
    rw [hcalls, compareCalls_self]
  rw [hresult, ModelResult.new, dif_pos hchecks]
  cases hwritten : calls.mapM (writtenCall json) with
  | ok texts =>
    rw [hwritten] at hcompare
    left
    split
    · exact ⟨texts, _, rfl, rfl, hcontent ▸ hparts, hid, rfl, rfl⟩
    · next e he =>
      rw [hcompare] at he
      cases he
  | error e =>
    rw [hwritten] at hcompare
    right
    split
    · next he =>
      rw [hcompare] at he
      cases he
    · next e' he =>
      rw [hcompare] at he
      cases he
      exact ⟨e, rfl, rfl⟩

/-- Whatever does not fit is rejected. -/
theorem assembledResult_of_not_fits (json : PyJson) {chunks : List PyStr} {calls : List ToolCall}
    (h : ¬Fits chunks calls) (id : Uuid) (usage : Option Usage) :
    ∃ e, assembledResult json id chunks calls usage = .error e ∧ e.isProvider = true := by
  rw [assembledResult]
  by_cases hids : distinctIds calls = true
  · rw [if_neg (by rw [hids]; exact Bool.noConfusion)]
    cases hparts : assembledParts chunks calls with
    | error e =>
      have he : e = invalid "TextContent" := by
        rw [assembledParts] at hparts
        split at hparts
        · cases hparts
        · rw [TextContent.new] at hparts
          split at hparts
          · cases hparts
          · exact (Except.error.inj hparts).symm
      rw [he]
      exact ⟨_, rfl, rfl⟩
    | ok parts =>
      cases hmessage : Message.new id .assistant parts with
      | ok message => exact absurd (fits_of_message hids hparts hmessage) h
      | error e =>
        have he : e = invalid "Message" := by
          rw [Message.new] at hmessage
          split at hmessage
          · cases hmessage
          · exact (Except.error.inj hmessage).symm
        rw [bind_of_ok rfl, hmessage, he]
        exact ⟨_, rfl, rfl⟩
  · rw [if_pos (Bool.eq_false_iff.mpr hids)]
    exact ⟨_, rfl, rfl⟩

/-- There is a result exactly for what `assembled_result` accepts. -/
theorem assembles_iff (json : PyJson) (id : Uuid) (chunks : List PyStr) (calls : List ToolCall)
    (usage : Option Usage) :
    (∃ r, assembledResult json id chunks calls usage = .ok r) ↔ Assembles json chunks calls := by
  by_cases hfits : Fits chunks calls
  · rcases assembledResult_of_fits json hfits id usage with
      ⟨texts, r, hwritten, hr, -⟩ | ⟨e, hwritten, he⟩
    · exact iff_of_true ⟨r, hr⟩ ⟨hfits, texts, hwritten⟩
    · refine iff_of_false ?_ ?_
      · rintro ⟨r, hr⟩
        rw [he] at hr
        cases hr
      · rintro ⟨-, texts, htexts⟩
        rw [hwritten] at htexts
        cases htexts
  · obtain ⟨e, he, -⟩ := assembledResult_of_not_fits json hfits id usage
    refine iff_of_false ?_ fun h => hfits h.toFits
    rintro ⟨r, hr⟩
    rw [he] at hr
    cases hr

/-- A `RecursionError` escapes exactly where the calls nest too deeply. -/
theorem deepCalls_iff (json : PyJson) (id : Uuid) (chunks : List PyStr) (calls : List ToolCall)
    (usage : Option Usage) :
    TooDeep (assembledResult json id chunks calls usage) ↔ DeepCalls json chunks calls := by
  by_cases hfits : Fits chunks calls
  · have hdeep : DeepCalls json chunks calls ↔ TooDeep (calls.mapM (writtenCall json)) :=
      ⟨fun h => h.deep, fun h => ⟨hfits, h⟩⟩
    rw [hdeep]
    rcases assembledResult_of_fits json hfits id usage with
      ⟨texts, r, hwritten, hr, -⟩ | ⟨e, hwritten, he⟩
    · rw [hr, hwritten]
      exact iff_of_false (not_tooDeep_ok r) (not_tooDeep_ok texts)
    · rw [he, hwritten]
      rw [tooDeep_error, tooDeep_error, isRecursion_translate (fun _ => rfl) rfl]
  · obtain ⟨e, he, hp⟩ := assembledResult_of_not_fits json hfits id usage
    rw [he, tooDeep_error, not_recursion_of_provider hp]
    exact iff_of_false Bool.false_ne_true fun h => hfits h.fits

/-- What an assembled result consists of. -/
theorem parts_of_assembledResult {json : PyJson} {id : Uuid} {chunks : List PyStr}
    {calls : List ToolCall} {usage : Option Usage} {r : ModelResult}
    (h : assembledResult json id chunks calls usage = .ok r) :
    r.message.id = id ∧ assembledParts chunks calls = .ok r.message.content ∧
      r.toolCalls = calls ∧ r.usage = usage := by
  have hfits := ((assembles_iff json id chunks calls usage).mp ⟨r, h⟩).toFits
  rcases assembledResult_of_fits json hfits id usage with
    ⟨texts, r', -, hr, hparts, hid, hcalls, husage⟩ | ⟨e, -, he⟩
  · rw [h] at hr
    obtain rfl := Except.ok.inj hr
    exact ⟨hid, hparts, hcalls, husage⟩
  · rw [h] at he
    cases he

-- ---------------------------------------------------------------------------
-- What the checks raise
-- ---------------------------------------------------------------------------

/-- A computation that raises only `ProviderError`. -/
def RaisesProvider {α : Type} (x : Except Exn α) : Prop := Raises (fun e => e.isProvider = true) x

section RaisesProvider

variable {json : PyJson} {classes : List PyClass} {α : Type}

theorem RaisesProvider.safe {x : Except Exn α} (h : RaisesProvider x) : Raises json.Safe x :=
  h.mono fun _ he => Or.inl he

theorem RaisesProvider.caught {x : Except Exn α} (h : RaisesProvider x) :
    Raises (json.Caught classes) x := h.mono fun _ he => Or.inl (Or.inl he)

theorem raises_tokenCount (v : PyValue) : RaisesProvider (tokenCount v) := by
  rw [tokenCount.eq_def]
  split
  · exact .ok _
  · exact .ok _
  · exact .error rfl

theorem raises_tokenUsage (v : PyValue) (inputKey outputKey : String) :
    RaisesProvider (tokenUsage v inputKey outputKey) := by
  rw [tokenUsage.eq_def]
  split
  · exact .ok _
  · refine Raises.bind (raises_tokenCount _) fun input _ => ?_
    refine Raises.bind (raises_tokenCount _) fun output _ => ?_
    split
    · exact .ok _
    · exact .ok _
  · exact .error rfl

theorem raises_candidateIndex (candidate : JsonObject) :
    RaisesProvider (candidateIndex candidate) := by
  rw [candidateIndex]
  split
  · exact .ok _
  · exact .error rfl

theorem raises_toolString (v : PyValue) : RaisesProvider (toolString v) := by
  rw [toolString.eq_def]
  split
  · exact .ok _
  · exact .error rfl

theorem raises_toolIndex (v : PyValue) : RaisesProvider (toolIndex v) := by
  rw [toolIndex.eq_def]
  split
  · exact .ok _
  · exact .error rfl

theorem raises_toolCall (json' : PyJson) (hclasses : PyClass.valueError ∈ classes)
    (id name : PyStr) (arguments : JsonObject) :
    Raises (json.Caught classes) (ToolCall.decoded json' id name arguments) := by
  rw [ToolCall.decoded]
  split
  · rw [ToolCall.new]
    split
    · exact .ok _
    · exact .error (caught_invalid hclasses _)
  · exact .error (caught_invalid hclasses _)

theorem raises_yieldText (hclasses : PyClass.valueError ∈ classes) (delta : PyStr) :
    Raises (json.Caught classes) (yieldText delta).ending := by
  rw [yieldText]
  split
  · exact .ok _
  · exact .error (caught_invalid hclasses _)

/-- A failed constructor inside `assembled_result` becomes a `ProviderError`; only a
`RecursionError` of its `json.dumps` is let through. -/
theorem raises_assembledResult (json : PyJson) (id : Uuid) (chunks : List PyStr)
    (calls : List ToolCall) (usage : Option Usage) :
    Raises json.Safe (assembledResult json id chunks calls usage) := by
  have hvalue : PyClass.valueError ∈ [PyClass.valueError] := List.mem_singleton_self _
  intro e he
  by_cases hfits : Fits chunks calls
  · rcases assembledResult_of_fits json hfits id usage with
      ⟨texts, r, -, hr, -⟩ | ⟨e', hwritten, he'⟩
    · rw [hr] at he
      cases he
    · rw [he'] at he
      rw [← Except.error.inj he]
      have hcaught : json.Caught [.valueError] e' :=
        Raises.mapM (fun call _ => raises_dumpsSorted hvalue _) e' hwritten
      exact hcaught.translate rfl
  · obtain ⟨e', he', hp⟩ := assembledResult_of_not_fits json hfits id usage
    rw [he'] at he
    rw [← Except.error.inj he]
    exact Or.inl hp

end RaisesProvider

end AgentRuntimeKit
