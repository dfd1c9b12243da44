import AgentRuntimeKit.Clients.Anthropic
import AgentRuntimeKit.Clients.Streaming

/-!
# Messages responses and their events

A response of text blocks and tool blocks, the body it is sent in, and the events that render it as
a stream; what each event does to the state of `stream`, and what the events of the blocks collect.
-/

namespace AgentRuntimeKit

open Lib Utf8

namespace Anthropic

-- ---------------------------------------------------------------------------
-- The body
-- ---------------------------------------------------------------------------

inductive Block
  | text (text : PyStr)
  | tool (id name : PyStr) (input : PyValue)

/-- A response; `null` stands for a count that is missing. -/
structure Response where
  blocks : List Block
  stop : PyValue
  input : PyValue
  output : PyValue

inductive BlockJson : Block → PyValue → Prop
  | text (t : PyStr) (block : JsonObject) :
    block.get "type" = .text "text" → block.get "text" = .str t →
      BlockJson (.text t) (.dict block)
  | tool (id name : PyStr) (input : PyValue) (block : JsonObject) :
    block.get "type" = .text "tool_use" → block.get "id" = .str id →
      block.get "name" = .str name → block.getD "input" (.dict []) = input →
        BlockJson (.tool id name input) (.dict block)

inductive UsageJson (input output : PyValue) : PyValue → Prop
  | null : input = .none → output = .none → UsageJson input output .none
  | counts (usage : JsonObject) :
    usage.get "input_tokens" = input → usage.get "output_tokens" = output →
      UsageJson input output (.dict usage)

structure ResponseJson (r : Response) (body : JsonObject) : Prop where
  stop : body.get "stop_reason" = r.stop
  content : ∃ xs, body.get "content" = .list xs ∧ List.Forall₂ BlockJson r.blocks xs
  usage : UsageJson r.input r.output (body.get "usage")

-- ---------------------------------------------------------------------------
-- The events
-- ---------------------------------------------------------------------------

inductive Event
  | messageStart (input output : PyValue)
  | textStart (index : Nat)
  | toolStart (index : Nat) (id name : PyStr) (input : PyValue)
  | textDelta (index : Nat) (text : PyStr)
  | jsonDelta (index : Nat) (text : PyStr)
  | messageDelta (stop : PyValue) (input output : Option PyValue)
  | other

def Event.isOther : Event → Bool
  | other => true
  | _ => false

/-- The types that the loop acts on. -/
def eventTypes : List String :=
  ["error", "message_stop", "message_start", "content_block_start", "content_block_delta",
    "message_delta"]

inductive EventJson : Event → JsonObject → Prop
  | messageStart (input output : PyValue) (event message : JsonObject) :
    event.get "type" = .text "message_start" → event.get "message" = .dict message →
      UsageJson input output (message.get "usage") → EventJson (.messageStart input output) event
  | textStart (index : Nat) (event block : JsonObject) :
    event.get "type" = .text "content_block_start" →
      event.getD "index" (.int 0) = .int index → event.get "content_block" = .dict block →
        block.get "type" = .text "text" → EventJson (.textStart index) event
  | toolStart (index : Nat) (id name : PyStr) (input : PyValue) (event block : JsonObject) :
    event.get "type" = .text "content_block_start" →
      event.getD "index" (.int 0) = .int index → event.get "content_block" = .dict block →
        BlockJson (.tool id name input) (.dict block) →
          EventJson (.toolStart index id name input) event
  | textDelta (index : Nat) (text : PyStr) (event delta : JsonObject) :
    event.get "type" = .text "content_block_delta" →
      event.getD "index" (.int 0) = .int index → event.get "delta" = .dict delta →
        delta.get "type" = .text "text_delta" → delta.get "text" = .str text →
          EventJson (.textDelta index text) event
  | jsonDelta (index : Nat) (text : PyStr) (event delta : JsonObject) :
    event.get "type" = .text "content_block_delta" →
      event.getD "index" (.int 0) = .int index → event.get "delta" = .dict delta →
        delta.get "type" = .text "input_json_delta" → delta.get "partial_json" = .str text →
          EventJson (.jsonDelta index text) event
  | messageDelta (stop : PyValue) (input output : Option PyValue)
      (event delta usage : JsonObject) :
    event.get "type" = .text "message_delta" → event.getD "delta" (.dict []) = .dict delta →
      delta.get "stop_reason" = stop →
        (event.get "usage" = .none ∧ usage = [] ∨ event.get "usage" = .dict usage) →
          PyValue.field "input_tokens" usage = input →
            PyValue.field "output_tokens" usage = output →
              EventJson (.messageDelta stop input output) event
  | other (event : JsonObject) :
    (∀ name ∈ eventTypes, hasType event name = false) → EventJson .other event

/-- The data of one event. -/
structure EventText (json : PyJson) (e : Event) (data : PyStr) : Prop where
  nonempty : data ≠ []
  value : ∃ event : JsonObject, json.loads data = .ok (.dict event) ∧ EventJson e event

/-- The data that ends the stream. -/
structure StopText (json : PyJson) (data : PyStr) : Prop where
  nonempty : data ≠ []
  value : ∃ event : JsonObject, json.loads data = .ok (.dict event) ∧
    event.get "type" = .text "message_stop"

-- ---------------------------------------------------------------------------
-- Renderings
-- ---------------------------------------------------------------------------

/-- The events of one block: its text cut into pieces, its input given at the start, or after an
empty start the pieces of a JSON text of it. -/
inductive BlockEvents (json : PyJson) (k : Nat) : Block → List Event → Prop
  | text (pieces : List PyStr) :
    BlockEvents json k (.text pieces.flatten) (.textStart k :: pieces.map (.textDelta k))
  | whole (id name : PyStr) (input : PyValue) (pieces : List PyStr) :
    (∀ p ∈ pieces, p = []) →
      BlockEvents json k (.tool id name input)
        (.toolStart k id name input :: pieces.map (.jsonDelta k))
  | cut (id name : PyStr) (input : PyValue) (pieces : List PyStr) :
    pieces.flatten ≠ [] → json.loads pieces.flatten = .ok input →
      BlockEvents json k (.tool id name input)
        (.toolStart k id name (.dict []) :: pieces.map (.jsonDelta k))

/-- The events of the blocks from index `k` on. -/
inductive BlocksEvents (json : PyJson) : Nat → List Block → List Event → Prop
  | nil (k : Nat) : BlocksEvents json k [] []
  | cons {k : Nat} {b : Block} {bs : List Block} {es es' : List Event} :
    BlockEvents json k b es → BlocksEvents json (k + 1) bs es' →
      BlocksEvents json k (b :: bs) (es ++ es')

/-- A count of the start, kept or replaced by a later one. A count that is replaced has to be one:
null or a natural number. -/
inductive Merged : PyValue → Option PyValue → PyValue → Prop
  | kept (count : PyValue) : Merged count none count
  | replaced (earlier count : PyValue) :
    (earlier = .none ∨ ∃ n : Nat, earlier = .int n) → Merged earlier (some count) count

/-- The events spell the response; events of other types may stand anywhere. -/
inductive Renders (json : PyJson) (r : Response) (events : List Event) : Prop
  | mk (input output : PyValue) (input' output' : Option PyValue) (blocks : List Event) :
    events.filter (!·.isOther) =
        .messageStart input output :: (blocks ++ [.messageDelta r.stop input' output']) →
      BlocksEvents json 0 r.blocks blocks → Merged input input' r.input →
        Merged output output' r.output → Renders json r events

/-- `json.loads(json.dumps(v)) == v`. -/
def RoundTrips (json : PyJson) (v : PyValue) : Prop :=
  ∃ t, t ≠ [] ∧ json.dumps v = .ok t ∧ json.loads t = .ok v

-- ---------------------------------------------------------------------------
-- What an event does
-- ---------------------------------------------------------------------------

/-- A count of `message_delta`, if there is one. -/
def changed (count : Option PyValue) (earlier : Option Nat) : Except Exn (Option Nat) :=
  match count with
  | some v => tokenCount v
  | none => .ok earlier

/-- The state after an event, and what it yields. -/
def Event.run (json : PyJson) (s : StreamState) : Event → Gen Exn ModelStreamEvent StreamState
  | messageStart input output => .ofExcept (do
    let input ← tokenCount input
    let output ← tokenCount output
    .ok { s with inputTokens := input, outputTokens := output })
  | textStart _ => pure s
  | toolStart k id name input =>
    .ofExcept (if (s.toolChunks.get? k).isSome then
      .error (rejected "Anthropic repeated a tool block index")
    else
      match input with
      | .dict initial => do
        let arguments ← initialText json initial
        .ok { s with toolChunks := s.toolChunks.insert k ⟨id, name, arguments⟩ }
      | _ => .error (rejected "Anthropic returned invalid tool input"))
  | textDelta _ text => do
    (textOf (.str text)).forM yieldText
    pure { s with textChunks := s.textChunks ++ textOf (.str text) }
  | jsonDelta k text => .ofExcept (readPartial s k (.str text))
  | messageDelta stop input output =>
    .ofExcept (if !isNoneOr stopReasons stop then
      .error (rejected "Anthropic model stream did not finish successfully")
    else do
      let input ← changed input s.inputTokens
      let output ← changed output s.outputTokens
      .ok { s with inputTokens := input, outputTokens := output })
  | other => pure s

variable {json : PyJson}

theorem hasType_of {o : JsonObject} {name : String} (h : o.get "type" = .text name)
    (other : String) : hasType o other = decide (name = other) := by
  rw [hasType, h, PyValue.text]
  show decide _ = _
  simp only [PyStr.ofString_inj]

theorem readIdentity_of {block : JsonObject} {id name : PyStr} (hid : block.get "id" = .str id)
    (hname : block.get "name" = .str name) : readIdentity block = .ok (id, name) := by
  have hstring (s : PyStr) : toolString (.str s) = .ok s := rfl
  rw [readIdentity, bind_of_ok (item_of_get hid), bind_of_ok (hstring _),
    bind_of_ok (item_of_get hname), bind_of_ok (hstring _)]

theorem usageObject_of {input output raw : PyValue} (h : UsageJson input output raw) :
    ∃ usage, usageObject raw = .ok usage ∧ usage.get "input_tokens" = input ∧
      usage.get "output_tokens" = output := by
  cases h with
  | null hi ho => exact ⟨[], rfl, hi.symm, ho.symm⟩
  | counts usage hi ho => exact ⟨usage, rfl, hi, ho⟩

theorem replaceCount_eq (usage : JsonObject) (name : String) (earlier : Option Nat) :
    replaceCount usage name earlier = changed (PyValue.field name usage) earlier := by
  rw [replaceCount, JsonObject.contains, JsonObject.get, changed.eq_def]
  cases PyValue.field name usage with
  | none => rfl
  | some v => rfl

/-- The reader does to an event what its kind says. -/
theorem readEvent_of_json {e : Event} {event : JsonObject} (h : EventJson e event)
    (s : StreamState) : readEvent json s event = e.run json s := by
  cases h with
  | messageStart input output event message htype hmessage husage =>
    obtain ⟨usage, husage, hi, ho⟩ := usageObject_of husage
    have hobject : object "stream message" (event.get "message") = .ok message := by
      rw [hmessage]
      rfl
    rw [readEvent, hasType_of htype]
    show Gen.ofExcept (readMessageStart s event) = _
    rw [readMessageStart, bind_of_ok hobject, bind_of_ok husage, hi, ho]
    rfl
  | textStart index event block htype hindex hblock hkind =>
    have hobject : object "content block" (event.get "content_block") = .ok block := by
      rw [hblock]
      rfl
    have hk : toolIndex (.int index) = .ok index := rfl
    rw [readEvent, hasType_of htype, hasType_of htype]
    show Gen.ofExcept (readBlockStart json s event) = _
    rw [readBlockStart, hindex, bind_of_ok hk, bind_of_ok hobject, hasType_of hkind]
    rfl
  | toolStart index id name input event block htype hindex hblock htool =>
    obtain ⟨_, _⟩ | ⟨_, _, _, _, hkind, hid, hname, hinput⟩ := htool
    have hobject : object "content block" (event.get "content_block") = .ok block := by
      rw [hblock]
      rfl
    have hk : toolIndex (.int index) = .ok index := rfl
    rw [readEvent, hasType_of htype, hasType_of htype]
    show Gen.ofExcept (readBlockStart json s event) = _
    rw [readBlockStart, hindex, bind_of_ok hk, bind_of_ok hobject, hasType_of hkind]
    show Gen.ofExcept (readToolStart json s index block) = _
    rw [readToolStart, hinput, readIdentity_of hid hname]
    rfl
  | textDelta index text event delta htype hindex hdelta hkind htext =>
    have hobject : object "content delta" (event.get "delta") = .ok delta := by
      rw [hdelta]
      rfl
    rw [readEvent, hasType_of htype, hasType_of htype, hasType_of htype]
    show readBlockDelta s event = _
    rw [readBlockDelta, hindex, hobject]
    show (if hasType delta "text_delta" = true then _ else _) = _
    rw [hasType_of hkind, htext]
    rfl
  | jsonDelta index text event delta htype hindex hdelta hkind htext =>
    have hobject : object "content delta" (event.get "delta") = .ok delta := by
      rw [hdelta]
      rfl
    rw [readEvent, hasType_of htype, hasType_of htype, hasType_of htype]
    show readBlockDelta s event = _
    rw [readBlockDelta, hindex, hobject]
    show (if hasType delta "text_delta" = true then _ else _) = _
    rw [hasType_of hkind, hasType_of hkind, htext]
    rfl
  | messageDelta stop input output event delta usage htype hdelta hstop husage hi ho =>
    have hobject : object "message delta" (event.getD "delta" (.dict [])) = .ok delta := by
      rw [hdelta]
      rfl
    have husage : usageObject (event.get "usage") = .ok usage := by
      rcases husage with ⟨hnone, hnil⟩ | hdict
      · rw [hnone, hnil]
        rfl
      · rw [hdict]
        rfl
    rw [readEvent, hasType_of htype, hasType_of htype, hasType_of htype, hasType_of htype]
    show Gen.ofExcept (readMessageDelta s event) = _
    rw [readMessageDelta, bind_of_ok hobject, hstop, bind_of_ok husage]
    simp only [replaceCount_eq, hi, ho]
    rfl
  | other event htypes =>
    rw [readEvent, htypes _ (by decide), htypes _ (by decide), htypes _ (by decide),
      htypes _ (by decide)]
    rfl

/-- No event that renders something ends the loop. -/
theorem not_stop_of_json {e : Event} {event : JsonObject} (h : EventJson e event) :
    hasType event "error" = false ∧ hasType event "message_stop" = false := by
  cases h with
  | messageStart _ _ _ _ htype => exact ⟨hasType_of htype _, hasType_of htype _⟩
  | textStart _ _ _ htype => exact ⟨hasType_of htype _, hasType_of htype _⟩
  | toolStart _ _ _ _ _ _ htype => exact ⟨hasType_of htype _, hasType_of htype _⟩
  | textDelta _ _ _ _ htype => exact ⟨hasType_of htype _, hasType_of htype _⟩
  | jsonDelta _ _ _ _ htype => exact ⟨hasType_of htype _, hasType_of htype _⟩
  | messageDelta _ _ _ _ _ _ htype => exact ⟨hasType_of htype _, hasType_of htype _⟩
  | other _ htypes => exact ⟨htypes _ (by decide), htypes _ (by decide)⟩

/-- The state after some events, and what they yield. -/
def runAll (json : PyJson) (s : StreamState) (events : List Event) :
    Gen Exn ModelStreamEvent StreamState :=
  events.foldlM (fun s e => e.run json s) s

theorem runAll_cons (s : StreamState) (e : Event) (events : List Event) :
    runAll json s (e :: events) = (e.run json s >>= fun s' => runAll json s' events) :=
  List.foldlM_cons ..

theorem runAll_append (s : StreamState) (es es' : List Event) :
    runAll json s (es ++ es') = (runAll json s es >>= fun s' => runAll json s' es') :=
  List.foldlM_append ..

/-- The loop, up to `message_stop`. -/
theorem readStream_of_json {ending : Except Exn Unit} {events : List Event}
    {datas rest : List PyStr}
    {stop : PyStr} (hdatas : List.Forall₂ (EventText json) events datas)
    (hstop : StopText json stop)
    (s : StreamState) : readStream json ending (datas ++ stop :: rest) s =
      (runAll json s events >>= fun s' => pure (s', true)) := by
  induction hdatas generalizing s with
  | nil =>
    obtain ⟨event, hloads, htype⟩ := hstop.value
    have herror : hasType event "error" = false := hasType_of htype _
    have hend : hasType event "message_stop" = true := hasType_of htype _
    rw [List.nil_append, readStream, if_neg hstop.nonempty, hloads]
    show (if hasType event "error" = true then _ else _) = _
    rw [herror, if_neg Bool.false_ne_true, hend, if_pos rfl]
    rfl
  | cons hdata _ ih =>
    obtain ⟨event, hloads, hevent⟩ := hdata.value
    obtain ⟨herror, hend⟩ := not_stop_of_json hevent
    rw [List.cons_append, readStream, if_neg hdata.nonempty, hloads]
    show (if hasType event "error" = true then _ else _) = _
    rw [herror, if_neg Bool.false_ne_true, hend, if_neg Bool.false_ne_true,
      readEvent_of_json hevent, runAll_cons, bind_assoc]
    exact bind_congr fun s' => ih s'

/-- Events of other types change nothing. -/
theorem runAll_filter (s : StreamState) (events : List Event) :
    runAll json s (events.filter (!·.isOther)) = runAll json s events := by
  induction events generalizing s with
  | nil => rfl
  | cons e events ih =>
    by_cases he : e.isOther = true
    · have hrun : e.run json s = pure s := by
        cases e with
        | other => rfl
        | _ => cases he
      rw [List.filter_cons_of_neg (by simpa using he), ih, runAll_cons, hrun,
        pure_bind]
    · rw [List.filter_cons_of_pos (by simpa using he),
        runAll_cons, runAll_cons]
      exact bind_congr fun s' => ih s'

-- ---------------------------------------------------------------------------
-- What the blocks amount to
-- ---------------------------------------------------------------------------

/-- A tool block. -/
structure ToolUse where
  id : PyStr
  name : PyStr
  input : PyValue

def Block.tool? : Block → Option ToolUse
  | text _ => none
  | tool id name input => some ⟨id, name, input⟩

/-- The text of a block. -/
def Block.spelled : Block → PyStr
  | text t => t
  | tool _ _ _ => []

/-- The call of a tool block. -/
def ToolUse.call (json : PyJson) (t : ToolUse) : Except Exn ToolCall :=
  match t.input with
  | .dict kvs => ToolCall.decoded json t.id t.name kvs
  | _ => .error (.py .valueError "Tool input must be an object")

/-- The chunk decodes to the call of the block. -/
structure Holds (json : PyJson) (t : ToolUse) (chunk : ToolChunk) : Prop where
  id : chunk.id = t.id
  name : chunk.name = t.name
  loads : json.loads (if chunk.arguments = [] then PyStr.ofString "\x7b\x7d" else chunk.arguments) =
    .ok t.input

theorem closeChunk_of_holds {t : ToolUse} {chunk : ToolChunk} (h : Holds json t chunk) :
    closeChunk json chunk = t.call json := by
  rw [closeChunk, inputText, bind_of_ok h.loads, callOf.eq_def, h.id, h.name]
  rfl

/-- What a mode has collected of some blocks. -/
structure Collected (json : PyJson) (blocks : List Block) (texts : List PyStr)
    (chunks : IntDict ToolChunk) : Prop where
  text : texts.flatten = blocks.flatMap Block.spelled
  nonempty : ∀ t ∈ texts, t ≠ []
  tools : List.Forall₂ (Holds json) (blocks.filterMap Block.tool?) (chunks.map Prod.snd)

theorem Collected.nil : Collected json [] [] [] :=
  ⟨rfl, fun _ ht => absurd ht List.not_mem_nil, .nil⟩

theorem Collected.cons_text {blocks : List Block} {texts pieces : List PyStr}
    {chunks : IntDict ToolChunk} {t : PyStr} (h : Collected json blocks texts chunks)
    (hflat : pieces.flatten = t) (hpieces : ∀ p ∈ pieces, p ≠ []) :
    Collected json (.text t :: blocks) (pieces ++ texts) chunks where
  text := by
    rw [List.flatten_append, hflat, h.text]
    rfl
  nonempty p hp := (List.mem_append.mp hp).elim (hpieces p) (h.nonempty p)
  tools := h.tools

theorem Collected.cons_tool {blocks : List Block} {texts : List PyStr} {chunks : IntDict ToolChunk}
    {id name : PyStr} {input : PyValue} {k : Nat} {chunk : ToolChunk}
    (h : Collected json blocks texts chunks) (hchunk : Holds json ⟨id, name, input⟩ chunk) :
    Collected json (.tool id name input :: blocks) texts ((k, chunk) :: chunks) where
  text := h.text
  nonempty := h.nonempty
  tools := .cons hchunk h.tools

-- ---------------------------------------------------------------------------
-- The blocks of a stream
-- ---------------------------------------------------------------------------

/-- What the loop can tell of a block: its text encodes, and its input is an object. -/
def Block.Readable : Block → Prop
  | text t => PyStr.encodable t = true
  | tool _ _ input => ∃ kvs, input = .dict kvs

/-- An exception that the handler around the loop turns into a `ProviderError`. -/
def Handled (g : Gen Exn ModelStreamEvent StreamState) : Prop :=
  ∃ e, g.ending = .error e ∧ PyJson.silent.Caught classes e

theorem Handled.bind {g : Gen Exn ModelStreamEvent StreamState} (h : Handled g)
    (f : StreamState → Gen Exn ModelStreamEvent StreamState) : Handled (g >>= f) := by
  obtain ⟨e, he, hcaught⟩ := h
  exact ⟨e, Gen.ending_bind_error he f, hcaught⟩

def nonempty (pieces : List PyStr) : List PyStr := pieces.filter (· ≠ [])

theorem flatten_nonempty (pieces : List PyStr) : (nonempty pieces).flatten = pieces.flatten := by
  induction pieces with
  | nil => rfl
  | cons p pieces ih =>
    by_cases hp : p = []
    · rw [nonempty, List.filter_cons_of_neg (by simpa using hp), ← nonempty, ih, hp]
      rfl
    · rw [nonempty, List.filter_cons_of_pos (by simpa using hp), ← nonempty, List.flatten_cons, ih,
        List.flatten_cons]

theorem ne_nil_of_nonempty {pieces : List PyStr} {p : PyStr} (h : p ∈ nonempty pieces) : p ≠ [] :=
  of_decide_eq_true (List.mem_filter.mp h).2

theorem run_textDeltas (k : Nat) (pieces : List PyStr) (s : StreamState) :
    runAll json s (pieces.map (.textDelta k)) = ((nonempty pieces).forM yieldText >>= fun _ =>
      pure { s with textChunks := s.textChunks ++ nonempty pieces }) := by
  induction pieces generalizing s with
  | nil =>
    show pure s = pure { s with textChunks := s.textChunks ++ [] }
    rw [List.append_nil]
  | cons p pieces ih =>
    rw [List.map_cons, runAll_cons]
    by_cases hp : p = []
    · have hrun : (Event.textDelta k p).run json s = pure s := by
        rw [hp]
        show pure { s with textChunks := s.textChunks ++ [] } = pure s
        rw [List.append_nil]
      rw [hrun, pure_bind, ih, nonempty, nonempty, List.filter_cons_of_neg (by simpa using hp)]
    · have htext : textOf (.str p) = [p] := if_neg hp
      have hrun : (Event.textDelta k p).run json s = (yieldText p >>= fun _ =>
          pure { s with textChunks := s.textChunks ++ [p] }) := by
        show ((textOf (.str p)).forM yieldText >>= fun _ =>
          pure { s with textChunks := s.textChunks ++ textOf (.str p) }) = _
        rw [htext]
        show ((yieldText p >>= fun _ => pure ()) >>= _) = _
        rw [bind_assoc]
        rfl
      rw [hrun, nonempty, List.filter_cons_of_pos (by simpa using hp), ← nonempty, bind_assoc]
      show _ = ((yieldText p >>= fun _ => (nonempty pieces).forM yieldText) >>= _)
      rw [bind_assoc]
      refine bind_congr fun _ => ?_
      rw [pure_bind, ih, List.append_assoc]
      rfl

theorem run_jsonDeltas {k : Nat} {d : IntDict ToolChunk} (hd : d.Below k) (pieces : List PyStr)
    {s : StreamState} {chunk : ToolChunk} (hs : s.toolChunks = d ++ [(k, chunk)]) :
    runAll json s (pieces.map (.jsonDelta k)) = pure { s with
      toolChunks :=
        d ++ [(k, { chunk with arguments := chunk.arguments ++ pieces.flatten })] } := by
  induction pieces generalizing s chunk with
  | nil =>
    show pure s = _
    rw [List.flatten_nil, List.append_nil, ← hs]
  | cons p pieces ih =>
    have hget : IntDict.get? k s.toolChunks = some chunk := by
      rw [hs]
      exact hd.get?_last chunk
    have hrun : (Event.jsonDelta k p).run json s = pure { s with
        toolChunks := d ++ [(k, { chunk with arguments := chunk.arguments ++ p })] } := by
      show Gen.ofExcept (readPartial s k (.str p)) = _
      rw [readPartial, hget]
      show Gen.ofExcept (.ok { s with toolChunks := s.toolChunks.insert k _ }) = _
      rw [hs, hd.insert_last]
      rfl
    rw [List.map_cons, runAll_cons, hrun, pure_bind, ih rfl, List.flatten_cons, ← List.append_assoc]

/-- The text of a block, as far as it is readable. -/
theorem run_text_block (k : Nat) (pieces : List PyStr) (s : StreamState) :
    (runAll json s (.textStart k :: pieces.map (.textDelta k)) =
        ⟨(nonempty pieces).map .textDelta,
          .ok { s with textChunks := s.textChunks ++ nonempty pieces }⟩) ∨
      (Handled (runAll json s (.textStart k :: pieces.map (.textDelta k))) ∧
        ¬(Block.text pieces.flatten).Readable) := by
  have hstart : runAll json s (.textStart k :: pieces.map (.textDelta k)) =
      runAll json s (pieces.map (.textDelta k)) := by
    rw [runAll_cons]
    exact pure_bind s _
  rw [hstart, run_textDeltas]
  by_cases htext : PyStr.encodable pieces.flatten = true
  · left
    have hpieces := (encodable_flatten _).mp ((flatten_nonempty pieces).symm ▸ htext)
    rw [forM_yieldText (fun p hp => ne_nil_of_nonempty hp) hpieces, Gen.ok_bind, Gen.pure_def,
      List.append_nil]
  · right
    have hbad : ∃ p ∈ nonempty pieces, PyStr.encodable p = false := by
      by_contra hall
      refine htext ((flatten_nonempty pieces) ▸ (encodable_flatten _).mpr fun p hp => ?_)
      rw [← Bool.not_eq_false]
      exact fun hno => hall ⟨p, hp, hno⟩
    obtain ⟨e, he⟩ := forM_yieldText_invalid hbad
    have hcaught : PyJson.silent.Caught classes e :=
      Gen.raises_forM (fun text _ => raises_yieldText value_mem text) e he
    exact ⟨⟨e, Gen.ending_bind_error he _, hcaught⟩, htext⟩

theorem run_toolStart {k : Nat} {s : StreamState} (hs : s.toolChunks.Below k) (id name : PyStr)
    {initial : JsonObject} {arguments : PyStr} (h : initialText json initial = .ok arguments) :
    (Event.toolStart k id name (.dict initial)).run json s =
      pure { s with toolChunks := s.toolChunks ++ [(k, ⟨id, name, arguments⟩)] } := by
  show Gen.ofExcept (if (s.toolChunks.get? k).isSome = true then _ else _) = _
  rw [hs.get?]
  show Gen.ofExcept (initialText json initial >>= fun arguments => _) = _
  rw [bind_of_ok h, hs.insert]
  rfl

theorem run_toolStart_invalid {k : Nat} {s : StreamState} (hs : s.toolChunks.Below k)
    (id name : PyStr) {input : PyValue} (h : ¬∃ kvs, input = .dict kvs) :
    Handled ((Event.toolStart k id name input).run json s) := by
  refine ⟨rejected "Anthropic returned invalid tool input", ?_, caught_rejected _⟩
  show (Gen.ofExcept (if (s.toolChunks.get? k).isSome = true then _ else _)).ending = _
  rw [hs.get?]
  cases input with
  | dict kvs => exact absurd ⟨kvs, rfl⟩ h
  | _ => rfl

/-- A tool block that starts with an object. -/
theorem run_tool_block {k : Nat} {s : StreamState} (hs : s.toolChunks.Below k) (id name : PyStr)
    {initial : JsonObject} {arguments : PyStr} (h : initialText json initial = .ok arguments)
    (pieces : List PyStr) :
    runAll json s (.toolStart k id name (.dict initial) :: pieces.map (.jsonDelta k)) =
      pure { s with
        toolChunks := s.toolChunks ++ [(k, ⟨id, name, arguments ++ pieces.flatten⟩)] } := by
  rw [runAll_cons, run_toolStart hs id name h, pure_bind, run_jsonDeltas hs pieces rfl]

/-- The text of a whole input decodes to it. -/
theorem initialText_of_roundTrips
    (hobject : json.loads (PyStr.ofString "\x7b\x7d") = .ok (.dict []))
    {initial : JsonObject} (h : RoundTrips json (.dict initial)) :
    ∃ arguments, initialText json initial = .ok arguments ∧
      json.loads (if arguments = [] then PyStr.ofString "\x7b\x7d" else arguments) =
        .ok (.dict initial) := by
  rw [initialText]
  cases initial with
  | nil => exact ⟨[], rfl, hobject⟩
  | cons kv initial =>
    obtain ⟨t, ht, hdumps, hloads⟩ := h
    refine ⟨t, hdumps, ?_⟩
    rw [if_neg ht]
    exact hloads

/-- What the events of some blocks come to: everything is collected, or something is unreadable. -/
inductive BlocksRun (json : PyJson) (k : Nat) (blocks : List Block) (s : StreamState)
    (g : Gen Exn ModelStreamEvent StreamState) : Prop
  | collected (texts : List PyStr) (chunks : IntDict ToolChunk) :
    Collected json blocks texts chunks → (s.toolChunks ++ chunks).Below (k + blocks.length) →
      (s.toolChunks ++ chunks).Pairwise (fun a b => a.1 < b.1) →
        g = ⟨texts.map .textDelta, .ok { s with
          textChunks := s.textChunks ++ texts, toolChunks := s.toolChunks ++ chunks }⟩ →
          BlocksRun json k blocks s g
  | unreadable : Handled g → (∃ b ∈ blocks, ¬b.Readable) → BlocksRun json k blocks s g

/-- One block in front of others. -/
theorem BlocksRun.cons {k : Nat} {b : Block} {blocks : List Block} {s s' : StreamState}
    {es es' : List Event} (texts : List PyStr) (chunks : IntDict ToolChunk)
    (hb : runAll json s es = ⟨texts.map .textDelta, .ok s'⟩)
    (hs' : s' = { s with
      textChunks := s.textChunks ++ texts, toolChunks := s.toolChunks ++ chunks })
    (hcollect : ∀ texts' chunks', Collected json blocks texts' chunks' →
      Collected json (b :: blocks) (texts ++ texts') (chunks ++ chunks'))
    (h : BlocksRun json (k + 1) blocks s' (runAll json s' es')) :
    BlocksRun json k (b :: blocks) s (runAll json s (es ++ es')) := by
  have hlength : k + (b :: blocks).length = k + 1 + blocks.length := by
    rw [List.length_cons]
    omega
  rw [runAll_append, hb, Gen.ok_bind]
  cases h with
  | collected texts' chunks' hc hbelow hincreasing hrun =>
    rw [hs'] at hbelow hincreasing hrun
    refine .collected (texts ++ texts') (chunks ++ chunks') (hcollect _ _ hc) ?_ ?_ ?_
    · rw [hlength, ← List.append_assoc]
      exact hbelow
    · rw [← List.append_assoc]
      exact hincreasing
    · rw [hs', hrun, List.map_append, List.append_assoc, List.append_assoc]
  | unreadable hhandled hbad =>
    obtain ⟨e, he, hcaught⟩ := hhandled
    obtain ⟨b', hb', hno⟩ := hbad
    exact .unreadable ⟨e, he, hcaught⟩ ⟨b', List.mem_cons_of_mem _ hb', hno⟩

theorem BlocksRun.of_handled {k : Nat} {b : Block} {blocks : List Block} {s : StreamState}
    {es es' : List Event} (h : Handled (runAll json s es)) (hb : ¬b.Readable) :
    BlocksRun json k (b :: blocks) s (runAll json s (es ++ es')) := by
  rw [runAll_append]
  exact .unreadable (h.bind _) ⟨b, List.mem_cons_self, hb⟩

/-- The events of the blocks, by induction over the blocks. -/
theorem run_blocks (hobject : json.loads (PyStr.ofString "\x7b\x7d") = .ok (.dict []))
    {k : Nat} {blocks : List Block} {events : List Event} (h : BlocksEvents json k blocks events)
    (hround : ∀ t ∈ blocks.filterMap Block.tool?, RoundTrips json t.input) {s : StreamState}
    (hbelow : s.toolChunks.Below k) (hincreasing : s.toolChunks.Pairwise fun a b => a.1 < b.1) :
    BlocksRun json k blocks s (runAll json s events) := by
  induction h generalizing s with
  | nil k =>
    refine .collected [] [] .nil ?_ ?_ ?_
    · rw [List.append_nil]
      exact hbelow
    · rw [List.append_nil]
      exact hincreasing
    · rw [List.append_nil, List.append_nil]
      rfl
  | @cons k b blocks es es' hb hblocks ih =>
    cases hb with
    | text pieces =>
      have hrest := fun t ht => hround t (by rwa [List.filterMap_cons_none rfl])
      rcases run_text_block k pieces s with hrun | ⟨hhandled, hbad⟩
      · refine BlocksRun.cons _ [] hrun (by rw [List.append_nil]) ?_
          (ih hrest (hbelow.mono (Nat.le_succ k)) hincreasing)
        exact fun texts' chunks' hc =>
          hc.cons_text (flatten_nonempty pieces) fun p hp => ne_nil_of_nonempty hp
      · exact .of_handled hhandled hbad
    | whole id name input pieces hpieces =>
      have hrest := fun t ht => hround t (List.mem_cons_of_mem _ ht)
      have hinput := hround ⟨id, name, input⟩ List.mem_cons_self
      by_cases hdict : ∃ kvs, input = .dict kvs
      · obtain ⟨initial, rfl⟩ := hdict
        obtain ⟨arguments, htext, hloads⟩ := initialText_of_roundTrips hobject hinput
        have hrun := run_tool_block hbelow id name htext pieces
        rw [List.flatten_eq_nil_iff.mpr hpieces, List.append_nil] at hrun
        refine BlocksRun.cons [] [(k, ⟨id, name, arguments⟩)] hrun ?_ ?_
          (ih hrest (hbelow.append _) (IntDict.increasing_append hincreasing hbelow _))
        · rw [List.append_nil]
        · exact fun texts' chunks' hc => hc.cons_tool ⟨rfl, rfl, hloads⟩
      · refine .of_handled ?_ hdict
        rw [runAll_cons]
        exact (run_toolStart_invalid hbelow id name hdict).bind _
    | cut id name input pieces hne hloads =>
      have hrest := fun t ht => hround t (List.mem_cons_of_mem _ ht)
      have hinitial : initialText json [] = .ok [] := rfl
      have hrun := run_tool_block hbelow id name hinitial pieces
      rw [List.nil_append] at hrun
      refine BlocksRun.cons [] [(k, ⟨id, name, pieces.flatten⟩)] hrun ?_ ?_
        (ih hrest (hbelow.append _) (IntDict.increasing_append hincreasing hbelow _))
      · rw [List.append_nil]
      · refine fun texts' chunks' hc => hc.cons_tool ⟨rfl, rfl, ?_⟩
        rw [if_neg hne]
        exact hloads

end Anthropic

end AgentRuntimeKit
