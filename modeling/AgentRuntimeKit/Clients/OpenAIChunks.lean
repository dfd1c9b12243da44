import AgentRuntimeKit.Clients.OpenAI
import AgentRuntimeKit.Clients.Streaming

/-!
# Chat completions and their chunks

A chat completion with one choice, the body it is sent in, and the chunks that render it as a
stream; and what the two readers of `OpenAICompatibleModelClient` make of the two forms, in terms of
the completion.
-/

namespace AgentRuntimeKit

open Lib Utf8

namespace OpenAI

-- ---------------------------------------------------------------------------
-- The body
-- ---------------------------------------------------------------------------

/-- A chat completion with one choice. -/
structure Completion where
  content : Option PyStr
  calls : List ToolChunk
  usage : PyValue
  finish : PyValue

/-- A string or `null`. -/
def optional : Option PyStr → PyValue
  | none => .none
  | some s => .str s

inductive CallJson (c : ToolChunk) : PyValue → Prop
  | mk (call function : JsonObject) :
    call.get "id" = .str c.id → call.get "function" = .dict function →
      function.get "name" = .str c.name → function.get "arguments" = .str c.arguments →
        CallJson c (.dict call)

inductive CallsJson (calls : List ToolChunk) : PyValue → Prop
  | null : calls = [] → CallsJson calls .none
  | list (xs : List PyValue) : List.Forall₂ CallJson calls xs → CallsJson calls (.list xs)

/-- The objects in which the body of a response writes a completion. -/
structure CompletionJson (c : Completion) (body choice message : JsonObject) : Prop where
  choices : body.get "choices" = .list [.dict choice]
  usage : body.get "usage" = c.usage
  index : choice.getD "index" (.int 0) = .int 0
  finish : choice.get "finish_reason" = c.finish
  content : message.get "content" = optional c.content
  calls : CallsJson c.calls (message.getD "tool_calls" (.list []))
  message : choice.get "message" = .dict message

-- ---------------------------------------------------------------------------
-- The chunks of a stream
-- ---------------------------------------------------------------------------

/-- A piece of one call. -/
structure Fragment where
  index : Nat
  id : Option PyStr
  name : Option PyStr
  arguments : Option PyStr

structure Delta where
  content : Option PyStr
  fragments : List Fragment
  finish : PyValue

/-- What one event of the stream carries. -/
structure Chunk where
  usage : PyValue
  delta : Option Delta

inductive FragmentJson (f : Fragment) : PyValue → Prop
  | bare (call : JsonObject) :
    call.getD "index" (.int 0) = .int f.index → call.get "id" = optional f.id →
      call.get "function" = .none → f.name = none → f.arguments = none →
        FragmentJson f (.dict call)
  | function (call function : JsonObject) :
    call.getD "index" (.int 0) = .int f.index → call.get "id" = optional f.id →
      call.get "function" = .dict function → function.get "name" = optional f.name →
        function.get "arguments" = optional f.arguments → FragmentJson f (.dict call)

inductive FragmentsJson (fs : List Fragment) : PyValue → Prop
  | null : fs = [] → FragmentsJson fs .none
  | list (xs : List PyValue) : List.Forall₂ FragmentJson fs xs → FragmentsJson fs (.list xs)

structure DeltaJson (d : Delta) (choice delta : JsonObject) : Prop where
  index : choice.getD "index" (.int 0) = .int 0
  finish : choice.get "finish_reason" = d.finish
  content : delta.get "content" = optional d.content
  fragments : FragmentsJson d.fragments (delta.getD "tool_calls" (.list []))
  delta : choice.get "delta" = .dict delta

inductive ChunkJson (k : Chunk) : PyValue → Prop
  | usage (event : JsonObject) :
    event.contains "error" = false → event.get "usage" = k.usage →
      event.get "choices" = .list [] → k.delta = none → ChunkJson k (.dict event)
  | delta (event choice delta : JsonObject) (d : Delta) :
    event.contains "error" = false → event.get "usage" = k.usage →
      event.get "choices" = .list [.dict choice] → k.delta = some d → DeltaJson d choice delta →
        ChunkJson k (.dict event)

/-- The data of one event. -/
structure ChunkText (json : PyJson) (k : Chunk) (data : PyStr) : Prop where
  nonempty : data ≠ []
  notDone : data ≠ PyStr.ofString "[DONE]"
  value : ∃ v, json.loads data = .ok v ∧ ChunkJson k v

/-- The pieces of text that are yielded. -/
def Chunk.texts (k : Chunk) : List PyStr :=
  (k.delta.bind Delta.content).toList.filter (· ≠ [])

def Chunk.fragments (k : Chunk) : List Fragment := (k.delta.map Delta.fragments).getD []

def Chunk.finish (k : Chunk) : PyValue := (k.delta.map Delta.finish).getD .none

/-- The pieces of one call, put together. -/
def joined (fs : List Fragment) : ToolChunk :=
  ⟨fs.flatMap fun f => f.id.getD [], fs.flatMap fun f => f.name.getD [],
    fs.flatMap fun f => f.arguments.getD []⟩

/-- A field that one of the chunks carries, and no other chunk contradicts. -/
def Carries (field : Chunk → PyValue) (chunks : List Chunk) (value : PyValue) : Prop :=
  (∀ k ∈ chunks, field k = .none ∨ field k = value) ∧
    (value = .none ∨ ∃ k ∈ chunks, field k = value)

/-- The chunks spell the completion: its text, and the call at each index, piece by piece. -/
structure Renders (c : Completion) (chunks : List Chunk) : Prop where
  text : (chunks.flatMap Chunk.texts).flatten = c.content.getD []
  announced : ∀ i, (∃ f ∈ chunks.flatMap Chunk.fragments, f.index = i) ↔ i < c.calls.length
  calls : ∀ i call, c.calls[i]? = some call →
    joined ((chunks.flatMap Chunk.fragments).filter (·.index = i)) = call
  usage : Carries Chunk.usage chunks c.usage
  finish : Carries Chunk.finish chunks c.finish

-- ---------------------------------------------------------------------------
-- What the checks depend on
-- ---------------------------------------------------------------------------

/-- The tokens of a usage field. -/
def readUsage (usage : PyValue) : Except Exn (Option Usage) :=
  tokenUsage usage "prompt_tokens" "completion_tokens"

/-- The calls, where `empty` is read in place of empty arguments. -/
def Completion.readWith (json : PyJson) (empty : PyStr) (c : Completion) :
    Except Exn (List ToolCall) :=
  c.calls.mapM fun call =>
    decodeCall json (if call.arguments = [] then empty else call.arguments)
      (.ok (call.id, call.name))

/-- The usage and the text pass their checks. -/
structure Completion.Sound (c : Completion) : Prop where
  usage : ∃ u, readUsage c.usage = .ok u
  text : PyStr.encodable (c.content.getD []) = true

-- ---------------------------------------------------------------------------
-- The plain call
-- ---------------------------------------------------------------------------

variable {json : PyJson} {c : Completion}

theorem readCall_of_json {call : ToolChunk} {v : PyValue} (h : CallJson call v) :
    readCall json v = decodeCall json call.arguments (.ok (call.id, call.name)) := by
  obtain ⟨o, function, hid, hfunction, hname, harguments⟩ := h
  have hstring (s : PyStr) : toolString (.str s) = .ok s := rfl
  have hdefault : function.getD "arguments" (.str (PyStr.ofString "\x7b\x7d")) =
      .str call.arguments := by
    rw [JsonObject.getD, field_of_get harguments (by simp), Option.getD_some]
  have hobject : object "tool function" (o.get "function") = .ok function := by
    rw [hfunction]
    rfl
  rw [readCall, bind_of_ok (show object "tool call" (.dict o) = .ok o from rfl),
    bind_of_ok hobject, hdefault, bind_of_ok (hstring _), bind_of_ok (item_of_get hid),
    bind_of_ok (hstring _), bind_of_ok (item_of_get hname), bind_of_ok (hstring _)]

/-- The handler around a call, outside the loop. -/
theorem readCalls_of_json {raw : PyValue} (h : CallsJson c.calls raw) :
    readCalls json raw = (c.readWith json []).mapError
      (translate [.keyError, .typeError, .valueError] invalidCall) := by
  have hempty (s : PyStr) : (if s = [] then [] else s) = s := by
    split
    · next hs => exact hs.symm
    · rfl
  cases h with
  | null hnil =>
    rw [Completion.readWith, hnil]
    rfl
  | list xs hxs =>
    rw [readCalls, mapM_mapError, Completion.readWith]
    simp only [hempty]
    rw [mapM_congr_of_forall₂ hxs fun call v hv => (readCall_of_json hv).symm]

theorem readBody_of_json {bytes : List Byte} {body choice message : JsonObject}
    (hbody : json.loadsBytes bytes = .ok (.dict body)) (h : CompletionJson c body choice message) :
    readBody json bytes =
      if isNoneOr finishReasons c.finish = true then .ok (body, message)
      else .error (rejected "Model response did not finish successfully") := by
  have hsequence : sequence "choices" (body.get "choices") = .ok [.dict choice] := by
    rw [h.choices]
    rfl
  have hindex : candidateIndex choice = .ok () := by
    rw [candidateIndex, h.index]
    rfl
  have hmessage : object "message" (choice.get "message") = .ok message := by
    rw [h.message]
    rfl
  rw [readBody, bind_of_ok hbody, readResponse,
    bind_of_ok (show object "response" (.dict body) = .ok body from rfl), bind_of_ok hsequence]
  show (object "choice" (.dict choice) >>= _) = _
  rw [bind_of_ok (show object "choice" (.dict choice) = .ok choice from rfl), bind_of_ok hindex,
    h.finish]
  cases isNoneOr finishReasons c.finish with
  | false => rfl
  | true =>
    show (object "message" (choice.get "message") >>= _) = _
    rw [bind_of_ok hmessage]
    rfl

section Plain

variable {bytes : List Byte} {body choice message : JsonObject}
  (hbody : json.loadsBytes bytes = .ok (.dict body)) (h : CompletionJson c body choice message)
  (id : Uuid)
include hbody h

theorem generate_of_finish (hfinish : isNoneOr finishReasons c.finish = false) :
    Rejects (generate json id bytes) := by
  have hread := readBody_of_json hbody h
  rw [hfinish, if_neg Bool.false_ne_true] at hread
  refine ⟨rejected "Model response did not finish successfully", ?_, rfl⟩
  rw [generate, hread]
  rfl

/-- A completion that finished, after its calls were read. -/
theorem generate_of_read (hfinish : isNoneOr finishReasons c.finish = true) :
    generate json id bytes = ((c.readWith json []).mapError
      (translate [.keyError, .typeError, .valueError] invalidCall) >>= fun calls =>
        if textOf (optional c.content) = [] ∧ calls = [] then
          .error (rejected "Model returned an empty assistant message")
        else readUsage c.usage >>= fun usage =>
          assembledResult json id (textOf (optional c.content)) calls usage) := by
  have hread := readBody_of_json hbody h
  rw [hfinish, if_pos rfl] at hread
  rw [generate, hread]
  show (readCalls json (message.getD "tool_calls" (.list [])) >>= _) = _
  rw [readCalls_of_json h.calls, h.content, h.usage]
  rfl

end Plain

-- ---------------------------------------------------------------------------
-- The fragments of a chunk
-- ---------------------------------------------------------------------------

def append (chunk : ToolChunk) (f : Fragment) : ToolChunk :=
  ⟨chunk.id ++ f.id.getD [], chunk.name ++ f.name.getD [], chunk.arguments ++ f.arguments.getD []⟩

/-- What a fragment does to `tool_chunks`. -/
def addFragment (chunks : IntDict ToolChunk) (f : Fragment) : IntDict ToolChunk :=
  chunks.update f.index .empty fun chunk => append chunk f

theorem optionalString_optional (s : Option PyStr) :
    optionalString (optional s) = .ok (s.getD []) := by
  cases s with
  | none => rfl
  | some s => rfl

theorem readFragment_of_json {f : Fragment} {v : PyValue} (h : FragmentJson f v)
    (chunks : IntDict ToolChunk) : readFragment chunks v = .ok (addFragment chunks f) := by
  have hobject (o : JsonObject) : object "stream tool call" (.dict o) = .ok o := rfl
  have hindex : toolIndex (.int f.index) = .ok f.index := rfl
  cases h with
  | bare call hi hid hfunction hname harguments =>
    rw [readFragment, bind_of_ok (hobject _), hi, bind_of_ok hindex, hid,
      bind_of_ok (optionalString_optional _), hfunction]
    show Except.ok (chunks.update f.index .empty
      fun chunk => { chunk with id := chunk.id ++ f.id.getD [] }) = _
    have hsame : (fun chunk : ToolChunk => { chunk with id := chunk.id ++ f.id.getD [] }) =
        fun chunk => append chunk f := by
      funext chunk
      rw [append, hname, harguments, Option.getD_none, List.append_nil, List.append_nil]
    rw [hsame, addFragment]
  | function call function hi hid hfunction hname harguments =>
    rw [readFragment, bind_of_ok (hobject _), hi, bind_of_ok hindex, hid,
      bind_of_ok (optionalString_optional _), hfunction]
    show (optionalString (function.get "name") >>= _) = _
    rw [hname, bind_of_ok (optionalString_optional _), harguments,
      bind_of_ok (optionalString_optional _)]
    rfl

theorem readFragments_of_json {fs : List Fragment} {v : PyValue} (h : FragmentsJson fs v)
    (chunks : IntDict ToolChunk) : readFragments chunks v = .ok (fs.foldl addFragment chunks) := by
  cases h with
  | null hnil =>
    rw [hnil]
    rfl
  | list xs hxs =>
    show xs.foldlM readFragment chunks = _
    induction hxs generalizing chunks with
    | nil => rfl
    | cons hf _ ih =>
      rw [List.foldlM_cons, bind_of_ok (readFragment_of_json hf chunks), ih, List.foldl_cons]

theorem foldl_append (chunk : ToolChunk) (fs : List Fragment) :
    fs.foldl append chunk = ⟨chunk.id ++ (joined fs).id, chunk.name ++ (joined fs).name,
      chunk.arguments ++ (joined fs).arguments⟩ := by
  induction fs generalizing chunk with
  | nil => simp [joined]
  | cons f fs ih =>
    rw [List.foldl_cons, ih]
    simp [joined, append]

/-- The pieces of index `i` are collected, whatever stands between them. -/
theorem get?_foldl_addFragment (i : Nat) (fs : List Fragment) (chunks : IntDict ToolChunk) :
    (fs.foldl addFragment chunks).get? i =
      if ∃ f ∈ fs, f.index = i then
        some ((fs.filter (·.index = i)).foldl append ((chunks.get? i).getD .empty))
      else chunks.get? i := by
  induction fs generalizing chunks with
  | nil => simp
  | cons f fs ih =>
    rw [List.foldl_cons, ih, addFragment, IntDict.get?_update]
    by_cases hf : f.index = i
    · have hhead : ∃ g ∈ f :: fs, g.index = i := ⟨f, List.mem_cons_self, hf⟩
      rw [if_pos hhead, if_pos hf.symm, List.filter_cons_of_pos (by simpa using hf),
        List.foldl_cons, hf]
      by_cases hrest : ∃ g ∈ fs, g.index = i
      · rw [if_pos hrest]
        rfl
      · have hnone : fs.filter (·.index = i) = [] := by
          rw [List.filter_eq_nil_iff]
          intro g hg hgi
          exact hrest ⟨g, hg, of_decide_eq_true hgi⟩
        rw [if_neg hrest, hnone]
        rfl
    · have hiff : (∃ g ∈ f :: fs, g.index = i) ↔ ∃ g ∈ fs, g.index = i := by
        rw [List.exists_mem_cons_iff]
        exact or_iff_right hf
      rw [if_neg (Ne.symm hf), List.filter_cons_of_neg (by simpa using hf)]
      simp only [hiff]

theorem isDict_foldl_addFragment {chunks : IntDict ToolChunk} (h : chunks.IsDict)
    (fs : List Fragment) : (fs.foldl addFragment chunks).IsDict := by
  induction fs generalizing chunks with
  | nil => exact h
  | cons f fs ih => exact ih (h.update _ _ _)

/-- The fragments of all chunks amount to the calls, in order. -/
theorem sorted_of_renders {chunks : List Chunk} (h : Renders c chunks) :
    IntDict.sorted ((chunks.flatMap Chunk.fragments).foldl addFragment []) = c.calls := by
  have hget (i : Nat) : IntDict.get? i ((chunks.flatMap Chunk.fragments).foldl addFragment []) =
      IntDict.get? i (IntDict.enumerate 0 c.calls) := by
    have henumerate := IntDict.get?_enumerate 0 i c.calls
    rw [Nat.zero_add] at henumerate
    rw [get?_foldl_addFragment, henumerate]
    by_cases hi : i < c.calls.length
    · rw [if_pos ((h.announced i).mpr hi), List.getElem?_eq_getElem hi, foldl_append,
        h.calls i _ (List.getElem?_eq_getElem hi)]
      rfl
    · rw [if_neg (mt (h.announced i).mp hi), List.getElem?_eq_none (Nat.le_of_not_lt hi)]
      rfl
  rw [IntDict.sorted_eq (isDict_foldl_addFragment IntDict.isDict_nil _)
    (IntDict.increasing_enumerate 0 c.calls) hget, IntDict.values_enumerate]

-- ---------------------------------------------------------------------------
-- One chunk
-- ---------------------------------------------------------------------------

/-- What the loop checks in a chunk. -/
structure Chunk.Accepted (k : Chunk) : Prop where
  usage : ∃ u, readUsage k.usage = .ok u
  finish : isNoneOr finishReasons k.finish = true
  texts : ∀ t ∈ k.texts, PyStr.encodable t = true

/-- The counts of an accepted chunk. -/
def Chunk.tokens (k : Chunk) : Option Usage :=
  match readUsage k.usage with
  | .ok u => u
  | .error _ => none

/-- The state after an accepted chunk. -/
def StreamState.add (s : StreamState) (k : Chunk) : StreamState where
  textChunks := s.textChunks ++ k.texts
  toolChunks := k.fragments.foldl addFragment s.toolChunks
  usage := k.tokens <|> s.usage

theorem textOf_optional (s : Option PyStr) : textOf (optional s) = s.toList.filter (· ≠ []) := by
  cases s with
  | none => rfl
  | some s =>
    by_cases hs : s = []
    · rw [hs]
      rfl
    · simp [optional, textOf, hs]

theorem readChoice_of_json {choice delta : JsonObject} {d : Delta} (h : DeltaJson d choice delta)
    (s : StreamState) : readChoice s (.dict choice) =
      if isNoneOr finishReasons d.finish = true then
        ((d.content.toList.filter (· ≠ [])).forM yieldText >>= fun _ =>
          pure { s with
            textChunks := s.textChunks ++ d.content.toList.filter (· ≠ [])
            toolChunks := d.fragments.foldl addFragment s.toolChunks })
      else .raise (rejected "Model stream did not finish successfully") := by
  have hindex : candidateIndex choice = .ok () := by
    rw [candidateIndex, h.index]
    rfl
  have hdelta : object "stream delta" (choice.get "delta") = .ok delta := by
    rw [h.delta]
    rfl
  rw [readChoice]
  show (Gen.ofExcept (candidateIndex choice) >>= _) = _
  rw [hindex]
  show (if (!isNoneOr finishReasons (choice.get "finish_reason")) = true then _ else _) = _
  rw [h.finish]
  cases isNoneOr finishReasons d.finish with
  | false => rfl
  | true =>
    show (Gen.ofExcept (object "stream delta" (choice.get "delta")) >>= _) = _
    rw [hdelta]
    show ((textOf (delta.get "content")).forM yieldText >>= fun _ => Gen.ofExcept
      (readFragments s.toolChunks (delta.getD "tool_calls" (.list []))) >>= _) = _
    rw [readFragments_of_json h.fragments, h.content, textOf_optional]
    rfl

/-- A chunk, up to its choices. -/
theorem readValue_eq {event : JsonObject} {usage : PyValue}
    (herror : event.contains "error" = false)
    (husage : event.get "usage" = usage) (s : StreamState) :
    readValue s (.dict event) = (Gen.ofExcept (readUsage usage) >>= fun u =>
      readChoices { s with usage := u <|> s.usage } (event.get "choices")) := by
  rw [readValue]
  show (if event.contains "error" = true then _ else _) = _
  rw [herror, if_neg Bool.false_ne_true, husage]
  rfl

theorem readValue_of_accepted {k : Chunk} {v : PyValue} (h : ChunkJson k v) (hk : k.Accepted)
    (s : StreamState) : readValue s v = ⟨k.texts.map .textDelta, .ok (s.add k)⟩ := by
  obtain ⟨u, hu⟩ := hk.usage
  have hadd : s.add k = ⟨s.textChunks ++ k.texts, k.fragments.foldl addFragment s.toolChunks,
      u <|> s.usage⟩ := by
    rw [StreamState.add, Chunk.tokens, hu]
  rw [hadd]
  cases h with
  | usage event herror husage hchoices hdelta =>
    rw [readValue_eq herror husage, hu, hchoices, Chunk.texts, Chunk.fragments, hdelta]
    have hsame : s.textChunks ++ [] = s.textChunks := List.append_nil _
    show _ = (Gen.mk [] (.ok (StreamState.mk (s.textChunks ++ []) s.toolChunks (u <|> s.usage))) :
      Gen Exn ModelStreamEvent StreamState)
    rw [hsame]
    rfl
  | delta event choice delta d herror husage hchoices hdelta hd =>
    have hfinish : isNoneOr finishReasons d.finish = true := by
      have h := hk.finish
      rw [Chunk.finish, hdelta] at h
      exact h
    have hpieces : k.texts = d.content.toList.filter (· ≠ []) := by
      rw [Chunk.texts, hdelta]
      rfl
    have hnonempty : ∀ p ∈ k.texts, p ≠ [] :=
      fun p hp => of_decide_eq_true (List.mem_filter.mp hp).2
    have hyield := forM_yieldText hnonempty hk.texts
    rw [readValue_eq herror husage, hu, hchoices]
    show readChoice _ (.dict choice) = _
    rw [readChoice_of_json hd, if_pos hfinish, ← hpieces, hyield, Gen.ok_bind, Chunk.fragments,
      hdelta]
    simp [Gen.pure_def]

/-- What is not accepted raises. -/
theorem readValue_of_not_accepted {k : Chunk} {v : PyValue} (h : ChunkJson k v)
    (hk : ¬k.Accepted) (s : StreamState) : ∃ e, (readValue s v).ending = .error e := by
  cases hu : readUsage k.usage with
  | error e =>
    have hraise {event : JsonObject} (herror : event.contains "error" = false)
        (husage : event.get "usage" = k.usage) :
        ∃ e, (readValue s (.dict event)).ending = .error e := by
      rw [readValue_eq herror husage, hu]
      exact ⟨e, rfl⟩
    cases h with
    | usage event herror husage => exact hraise herror husage
    | delta event choice delta d herror husage => exact hraise herror husage
  | ok u =>
    cases h with
    | usage event herror husage hchoices hdelta =>
      refine absurd ⟨⟨u, hu⟩, ?_, ?_⟩ hk
      · rw [Chunk.finish, hdelta]
        rfl
      · rw [Chunk.texts, hdelta]
        exact fun t ht => absurd ht List.not_mem_nil
    | delta event choice delta d herror husage hchoices hdelta hd =>
      have hpieces : k.texts = d.content.toList.filter (· ≠ []) := by
        rw [Chunk.texts, hdelta]
        rfl
      rw [readValue_eq herror husage, hu, hchoices]
      show ∃ e, (readChoice _ (.dict choice)).ending = _
      rw [readChoice_of_json hd, ← hpieces]
      by_cases hfinish : isNoneOr finishReasons d.finish = true
      · have htexts : ∃ t ∈ k.texts, PyStr.encodable t = false := by
          by_contra hall
          refine hk ⟨⟨u, hu⟩, ?_, fun t ht => ?_⟩
          · rw [Chunk.finish, hdelta]
            exact hfinish
          · rw [← Bool.not_eq_false]
            exact fun hbad => hall ⟨t, ht, hbad⟩
        obtain ⟨e, he⟩ := forM_yieldText_invalid htexts
        rw [if_pos hfinish]
        exact ⟨e, Gen.ending_bind_error he _⟩
      · rw [if_neg hfinish]
        exact ⟨_, rfl⟩

-- ---------------------------------------------------------------------------
-- The whole stream
-- ---------------------------------------------------------------------------

theorem readEvent_of_text {k : Chunk} {data : PyStr} (h : ChunkText json k data)
    (s : StreamState) : ∃ v, ChunkJson k v ∧ readEvent json s data = readValue s v := by
  obtain ⟨v, hv, hjson⟩ := h.value
  refine ⟨v, hjson, ?_⟩
  rw [readEvent, hv]
  rfl

theorem readStream_of_accepted {ending : Except Exn Unit} {chunks : List Chunk}
    {datas rest : List PyStr} (hdatas : List.Forall₂ (ChunkText json) chunks datas)
    (hchunks : ∀ k ∈ chunks, k.Accepted) (s : StreamState) :
    readStream json ending (datas ++ PyStr.ofString "[DONE]" :: rest) s =
      ⟨(chunks.flatMap Chunk.texts).map .textDelta,
        .ok (chunks.foldl StreamState.add s, true)⟩ := by
  induction hdatas generalizing s with
  | nil =>
    rw [List.nil_append, readStream, if_neg (by decide), if_pos rfl]
    rfl
  | cons hdata hrest ih =>
    obtain ⟨v, hjson, hevent⟩ := readEvent_of_text hdata s
    rw [List.cons_append, readStream, if_neg hdata.nonempty, if_neg hdata.notDone, hevent,
      readValue_of_accepted hjson (hchunks _ List.mem_cons_self), Gen.ok_bind,
      ih (fun k hk => hchunks k (List.mem_cons_of_mem _ hk)), List.flatMap_cons, List.map_append,
      List.foldl_cons]

/-- The first chunk that is not accepted ends the loop, with an exception that is caught. -/
theorem readStream_of_not_accepted {ending : Except Exn Unit} {chunks : List Chunk}
    {datas rest : List PyStr} (hdatas : List.Forall₂ (ChunkText json) chunks datas)
    (hchunks : ∃ k ∈ chunks, ¬k.Accepted) (s : StreamState) :
    ∃ e, (readStream json ending (datas ++ rest) s).ending = .error e ∧
      PyJson.silent.Caught streamClasses e := by
  induction hdatas generalizing s with
  | nil =>
    obtain ⟨k, hk, -⟩ := hchunks
    exact absurd hk List.not_mem_nil
  | @cons k data chunks datas hdata hrest ih =>
    obtain ⟨v, hjson, hevent⟩ := readEvent_of_text hdata s
    rw [List.cons_append, readStream, if_neg hdata.nonempty, if_neg hdata.notDone, hevent]
    by_cases hk : k.Accepted
    · have htail : ∃ k ∈ chunks, ¬k.Accepted := by
        obtain ⟨k', hk', hno⟩ := hchunks
        rcases List.mem_cons.mp hk' with rfl | hk'
        · exact absurd hk hno
        · exact ⟨k', hk', hno⟩
      rw [readValue_of_accepted hjson hk, Gen.ok_bind]
      exact ih htail _
    · obtain ⟨e, he⟩ := readValue_of_not_accepted hjson hk s
      exact ⟨e, Gen.ending_bind_error he _, raises_readValue s v e he⟩

theorem textChunks_foldl (chunks : List Chunk) (s : StreamState) :
    (chunks.foldl StreamState.add s).textChunks = s.textChunks ++ chunks.flatMap Chunk.texts := by
  induction chunks generalizing s with
  | nil => rw [List.foldl_nil, List.flatMap_nil, List.append_nil]
  | cons k chunks ih =>
    rw [List.foldl_cons, ih, List.flatMap_cons, ← List.append_assoc]
    rfl

theorem toolChunks_foldl (chunks : List Chunk) (s : StreamState) :
    (chunks.foldl StreamState.add s).toolChunks =
      (chunks.flatMap Chunk.fragments).foldl addFragment s.toolChunks := by
  induction chunks generalizing s with
  | nil => rfl
  | cons k chunks ih =>
    rw [List.foldl_cons, ih, List.flatMap_cons, List.foldl_append]
    rfl

/-- The usage that one of the chunks carries survives the others. -/
theorem usage_foldl {u : Option Usage} {chunks : List Chunk}
    (hchunks : ∀ k ∈ chunks, k.tokens = none ∨ k.tokens = u) (s : StreamState)
    (hs : s.usage = none ∨ s.usage = u) (hu : s.usage = u ∨ ∃ k ∈ chunks, k.tokens = u) :
    (chunks.foldl StreamState.add s).usage = u := by
  induction chunks generalizing s with
  | nil =>
    rcases hu with hu | ⟨k, hk, -⟩
    · exact hu
    · exact absurd hk List.not_mem_nil
  | cons k chunks ih =>
    have hadd : (s.add k).usage = (k.tokens <|> s.usage) := rfl
    have hrest := fun k' (hk' : k' ∈ chunks) => hchunks k' (List.mem_cons_of_mem _ hk')
    rw [List.foldl_cons]
    rcases hchunks k List.mem_cons_self with hk | hk
    · have hsame : (s.add k).usage = s.usage := by
        rw [hadd, hk]
        rfl
      refine ih hrest _ (hsame ▸ hs) ?_
      rcases hu with hu | ⟨k', hk', hu⟩
      · exact Or.inl (hsame.trans hu)
      · rcases List.mem_cons.mp hk' with rfl | hk'
        · -- the usage is missing everywhere
          rcases hs with hs | hs
          · exact Or.inl (by rw [hsame, hs, ← hu, hk])
          · exact Or.inl (hsame.trans hs)
        · exact Or.inr ⟨k', hk', hu⟩
    · have hnow : (s.add k).usage = u := by
        rw [hadd, hk]
        cases u with
        | some usage => rfl
        | none =>
          rcases hs with hs | hs
          · exact hs
          · exact hs
      exact ih hrest _ (Or.inr hnow) (Or.inl hnow)

theorem Carries.forall_iff {field : Chunk → PyValue} {chunks : List Chunk} {value : PyValue}
    (h : Carries field chunks value) {P : PyValue → Prop} (hnone : P .none) :
    (∀ k ∈ chunks, P (field k)) ↔ P value := by
  constructor
  · intro hall
    rcases h.2 with hv | ⟨k, hk, hv⟩
    · rw [hv]
      exact hnone
    · rw [← hv]
      exact hall k hk
  · intro hv k hk
    rcases h.1 k hk with hk | hk
    · rw [hk]
      exact hnone
    · rw [hk]
      exact hv

/-- The loop accepts the chunks of a completion that finished and passes its checks. -/
theorem accepted_iff {chunks : List Chunk} (h : Renders c chunks) :
    (∀ k ∈ chunks, k.Accepted) ↔ isNoneOr finishReasons c.finish = true ∧ c.Sound := by
  have husage := h.usage.forall_iff (P := fun v => ∃ u, readUsage v = .ok u) ⟨none, rfl⟩
  have hfinish := h.finish.forall_iff (P := fun v => isNoneOr finishReasons v = true) rfl
  have htext : (∀ k ∈ chunks, ∀ t ∈ k.texts, PyStr.encodable t = true) ↔
      PyStr.encodable (c.content.getD []) = true := by
    rw [← h.text, encodable_flatten]
    constructor
    · intro hall t ht
      obtain ⟨k, hk, ht⟩ := List.mem_flatMap.mp ht
      exact hall k hk t ht
    · intro hall k hk t ht
      exact hall t (List.mem_flatMap.mpr ⟨k, hk, ht⟩)
  constructor
  · intro hall
    exact ⟨hfinish.mp fun k hk => (hall k hk).finish, husage.mp fun k hk => (hall k hk).usage,
      htext.mp fun k hk => (hall k hk).texts⟩
  · rintro ⟨hf, hsound⟩ k hk
    exact ⟨husage.mpr hsound.usage k hk, hfinish.mpr hf k hk, htext.mpr hsound.text k hk⟩

section Streamed

variable {source : Gen Exn PyStr Unit} {chunks : List Chunk} {datas rest : List PyStr}
  (hdatas : List.Forall₂ (ChunkText json) chunks datas)
  (hsource : source.yields = datas ++ PyStr.ofString "[DONE]" :: rest) (h : Renders c chunks)
  (id : Uuid)
include hdatas hsource h

theorem stream_of_not_accepted
    (hno : ¬(isNoneOr finishReasons c.finish = true ∧ c.Sound)) :
    Rejects (stream json id source).ending := by
  have hchunks : ∃ k ∈ chunks, ¬k.Accepted := by
    by_contra hall
    exact hno ((accepted_iff h).mp fun k hk => by_contra fun hk' => hall ⟨k, hk, hk'⟩)
  have hread : ∃ e, (readStream json source.ending source.yields .start).ending = .error e ∧
      PyJson.silent.Caught streamClasses e := by
    rw [hsource]
    exact readStream_of_not_accepted hdatas hchunks .start
  obtain ⟨e, he, hcaught⟩ := hread
  refine ⟨translate streamClasses (requestFailure "OpenAI-compatible model stream failed") e, ?_,
    caught_silent hcaught rfl⟩
  rw [stream]
  show (Gen.andThen _ _).ending = _
  rw [Gen.andThen, translated, he]
  rfl

/-- The stream of a completion that finished, after its last chunk. -/
theorem stream_of_accepted (hfinish : isNoneOr finishReasons c.finish = true) {u : Option Usage}
    (husage : readUsage c.usage = .ok u) (htext : PyStr.encodable (c.content.getD []) = true) :
    ∃ y, stream json id source =
        ⟨(chunks.flatMap Chunk.texts).map .textDelta ++ (concluded y).yields,
          (concluded y).ending⟩ ∧
      y = ((c.readWith json (PyStr.ofString "{}")).mapError
        (translate [.typeError, .valueError]
          (rejected "Model returned an invalid streamed tool call")) >>= fun calls =>
            if chunks.flatMap Chunk.texts = [] ∧ calls = [] then
              .error (rejected "Model returned an empty streamed assistant message")
            else assembledResult json id (chunks.flatMap Chunk.texts) calls u) := by
  have hall := (accepted_iff h).mpr ⟨hfinish, ⟨u, husage⟩, htext⟩
  have hread : readStream json source.ending source.yields .start =
      ⟨(chunks.flatMap Chunk.texts).map .textDelta,
        .ok (chunks.foldl StreamState.add .start, true)⟩ := by
    rw [hsource]
    exact readStream_of_accepted hdatas hall .start
  have htokens : (chunks.foldl StreamState.add .start).usage = u := by
    have htokens (v : PyValue) (k : Chunk) (hv : k.usage = v) {w : Option Usage}
        (hw : readUsage v = .ok w) : k.tokens = w := by
      rw [Chunk.tokens, hv, hw]
    refine usage_foldl (fun k hk => ?_) .start (Or.inl rfl) ?_
    · exact (h.usage.1 k hk).imp (fun hv => htokens _ k hv rfl) fun hv => htokens _ k hv husage
    · rcases h.usage.2 with hnone | ⟨k, hk, hv⟩
      · rw [hnone] at husage
        exact Or.inl (Except.ok.inj husage)
      · exact Or.inr ⟨k, hk, htokens _ k hv husage⟩
  refine ⟨finishStream json id (chunks.foldl StreamState.add .start), ?_, ?_⟩
  · rw [stream, translated, hread]
    rfl
  · have htools : StreamState.start.toolChunks = [] := rfl
    have htexts : StreamState.start.textChunks = [] := rfl
    rw [finishStream, toolChunks_foldl, textChunks_foldl, htokens, htools, htexts,
      List.nil_append, sorted_of_renders h]
    rfl

end Streamed

end OpenAI

end AgentRuntimeKit
