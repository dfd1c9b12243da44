import AgentRuntimeKit.Clients.Anthropic
import AgentRuntimeKit.Clients.Gemini
import AgentRuntimeKit.Clients.OpenAI
import AgentRuntimeKit.Clients.Safety

/-!
# The answers of the providers

Whatever bytes or events a provider sends, a call of one of the three adapters is to end in a result
or in a `ProviderError` that shows nothing of the answer (`SafeAnswer`, `SafeStream`). What breaks
this is one exception that none of the adapters catches: the `RecursionError` of `json`, on a text
or a value that nests too deeply for the interpreter.

Texts and values get to `json` in several places, and not all of them are reached: a call that is
rejected ends the answer before what comes after it. So for each adapter an inductive predicate says
what an answer makes it decode or encode, in the order in which that happens:

* `DeepBody`   — the body of `generate`, the arguments of a call in it, or the same arguments once
  more, when `validate_tool_calls` writes them to compare the calls of a result that fits;
* `DeepStream` — likewise for the data of a stream, event by event, and the end of the stream;
* `Told`       — the provider has told its success: `[DONE]`, `message_stop`, or a last chunk with
  the finish reason `STOP`. No stream has a result without it.

Of `json`, which is a parameter, it is assumed that it fails with a `ValueError` or a
`RecursionError` only, and that the text by which calls are compared is the one `json.dumps` writes
(the fields of `PyJson`); which texts and values it fails on is left open.

`TooDeep` marks an outcome that is such a `RecursionError`. It goes through the steps of an adapter
by `tooDeep_bind` and its like; whatever else a step raises is caught by its class and made safe
(`Raises`). The streams are loops, for which `tooDeep_step` tells one step and an induction on the
data the run.

## Results

* `OpenAI.safe_iff`, `Anthropic.safe_iff`, `Gemini.safe_iff` — one adapter.
* `Adapter.safe_iff_not_deep` — a call is safe iff nothing that it gets to decode or to encode nests
  too deeply.
-/

namespace AgentRuntimeKit

open Lib Utf8

variable {json : PyJson}

/-- The data of a stream that goes on until it ends. -/
def dataSource (datas : List PyStr) : Gen Exn PyStr Unit := ⟨datas, .ok ()⟩

namespace OpenAI

-- ---------------------------------------------------------------------------
-- OpenAI: what nests too deeply
-- ---------------------------------------------------------------------------

/-- The body, the arguments of a call that is reached, or the same arguments once more, written when
the calls of an answer that fits are compared. -/
inductive DeepBody (json : PyJson) (bytes : List Byte) : Prop
  | body : TooDeep (json.loadsBytes bytes) → DeepBody json bytes
  | arguments (body message : JsonObject) (before after : List PyValue) (call function : JsonObject)
      (text : PyStr) :
    readBody json bytes = .ok (body, message) →
      message.getD "tool_calls" (.list []) = .list (before ++ .dict call :: after) →
        (∀ raw ∈ before, ∃ c, readCall json raw = .ok c) →
          call.get "function" = .dict function →
            function.getD "arguments" (.str (PyStr.ofString "\x7b\x7d")) = .str text →
              TooDeep (json.loads text) → DeepBody json bytes
  | calls (body message : JsonObject) (calls : List ToolCall) (usage : Option Usage) :
    readBody json bytes = .ok (body, message) →
      readCalls json (message.getD "tool_calls" (.list [])) = .ok calls →
        tokenUsage (body.get "usage") "prompt_tokens" "completion_tokens" = .ok usage →
          DeepCalls json (textOf (message.get "content")) calls → DeepBody json bytes

/-- What the loop makes of one item. -/
def step (json : PyJson) (s : StreamState) (data : PyStr) :
    Gen Exn ModelStreamEvent (StreamState × Bool) :=
  if data = [] then pure (s, false)
  else if data = PyStr.ofString "[DONE]" then pure (s, true)
  else readEvent json s data >>= fun s' => pure (s', false)

/-- The data of an event that is reached, or the arguments of a call after `[DONE]`, when they are
decoded or when they are written for the comparison. -/
inductive DeepStream (json : PyJson) (datas : List PyStr) : Prop
  | data (before after : List PyStr) (data : PyStr) (s : StreamState) :
    datas = before ++ data :: after → Gen.Consumes (step json) .start before s →
      data ≠ [] → data ≠ PyStr.ofString "[DONE]" → TooDeep (json.loads data) →
        DeepStream json datas
  | arguments (before after : List PyStr) (s : StreamState) (closed rest : List ToolChunk)
      (chunk : ToolChunk) :
    datas = before ++ PyStr.ofString "[DONE]" :: after →
      Gen.Consumes (step json) .start before s → s.toolChunks.sorted = closed ++ chunk :: rest →
        (∀ c ∈ closed, ∃ call, closeChunk json c = .ok call) →
          TooDeep (json.loads
            (if chunk.arguments = [] then PyStr.ofString "\x7b\x7d" else chunk.arguments)) →
            DeepStream json datas
  | calls (before after : List PyStr) (s : StreamState) (calls : List ToolCall) :
    datas = before ++ PyStr.ofString "[DONE]" :: after →
      Gen.Consumes (step json) .start before s →
        s.toolChunks.sorted.mapM (closeChunk json) = .ok calls →
          DeepCalls json s.textChunks calls → DeepStream json datas

/-- The loop gets to `[DONE]`. -/
def Told (json : PyJson) (datas : List PyStr) : Prop :=
  ∃ before after s, datas = before ++ PyStr.ofString "[DONE]" :: after ∧
    Gen.Consumes (step json) .start before s

/-! ## The plain call -/

theorem catches_no_recursion (message : String) :
    (Exn.py .recursionError message).isOneOf generateClasses = false := rfl

theorem tooDeep_decodeCall (arguments : PyStr) {idAndName : Except Exn (PyStr × PyStr)}
    (h : Raises (PyJson.silent.Caught generateClasses) idAndName) :
    TooDeep (decodeCall json arguments idAndName) ↔ TooDeep (json.loads arguments) := by
  rw [decodeCall]
  refine tooDeep_bind_of_forall_not fun v => ?_
  exact not_tooDeep_of_raises catches_no_recursion (raises_callOf json (by decide) h v)

theorem not_tooDeep_object (label : String) (v : PyValue) : ¬TooDeep (object label v) :=
  not_tooDeep_of_raises catches_no_recursion (raises_mapping (by decide) _ v)

theorem toolString_eq_ok {v : PyValue} {s : PyStr} : toolString v = .ok s ↔ v = .str s := by
  cases v with
  | str t => exact ⟨fun h => congrArg PyValue.str (Except.ok.inj h), fun h => by cases h; rfl⟩
  | _ => exact iff_of_false (fun h => by cases h) fun h => by cases h

theorem tooDeep_readCall (raw : PyValue) :
    TooDeep (readCall json raw) ↔ ∃ (call function : JsonObject) (text : PyStr),
      raw = .dict call ∧ call.get "function" = .dict function ∧
        function.getD "arguments" (.str (PyStr.ofString "\x7b\x7d")) = .str text ∧
          TooDeep (json.loads text) := by
  have hids (call function : JsonObject) : Raises (PyJson.silent.Caught generateClasses) (do
      let id ← toolString (← call.item "id")
      let name ← toolString (← function.item "name")
      .ok (id, name) : Except Exn (PyStr × PyStr)) := by
    refine (raises_item (by decide) call "id").bind fun rawId _ => ?_
    refine (raises_toolString rawId).caught.bind fun id _ => ?_
    refine (raises_item (by decide) function "name").bind fun rawName _ => ?_
    exact (raises_toolString rawName).caught.bind fun name _ => .ok _
  rw [readCall, tooDeep_bind_of_not (not_tooDeep_object _ _)]
  constructor
  · rintro ⟨call, hcall, h⟩
    rw [tooDeep_bind_of_not (not_tooDeep_object _ _)] at h
    obtain ⟨function, hfunction, h⟩ := h
    rw [tooDeep_bind_of_not (not_tooDeep_of_provider (raises_toolString _))] at h
    obtain ⟨text, htext, h⟩ := h
    exact ⟨call, function, text, mapping_eq_ok.mp hcall, mapping_eq_ok.mp hfunction,
      toolString_eq_ok.mp htext, (tooDeep_decodeCall text (hids call function)).mp h⟩
  · rintro ⟨call, function, text, hcall, hfunction, htext, h⟩
    refine ⟨call, mapping_eq_ok.mpr hcall, ?_⟩
    rw [tooDeep_bind_of_not (not_tooDeep_object _ _)]
    refine ⟨function, mapping_eq_ok.mpr hfunction, ?_⟩
    rw [tooDeep_bind_of_not (not_tooDeep_of_provider (raises_toolString _))]
    exact ⟨text, toolString_eq_ok.mpr htext, (tooDeep_decodeCall text (hids call function)).mpr h⟩

theorem tooDeep_readBody (bytes : List Byte) :
    TooDeep (readBody json bytes) ↔ TooDeep (json.loadsBytes bytes) := by
  rw [readBody]
  exact tooDeep_bind_of_forall_not fun v =>
    not_tooDeep_of_raises catches_no_recursion (raises_readResponse v)

theorem tooDeep_readCalls (raw : PyValue) :
    TooDeep (readCalls json raw) ↔ ∃ before x after, raw = .list (before ++ x :: after) ∧
      (∀ y ∈ before, ∃ c, readCall json y = .ok c) ∧ TooDeep (readCall json x) := by
  cases raw with
  | list xs =>
    rw [readCalls, mapM_mapError, tooDeep_translate (fun _ => rfl) rfl, tooDeep_mapM]
    simp only [PyValue.list.injEq]
  | none => exact iff_of_false (not_tooDeep_ok _) fun ⟨_, _, _, h, _⟩ => by cases h
  | _ =>
    refine iff_of_false ?_ fun ⟨_, _, _, h, _⟩ => by cases h
    exact not_tooDeep_of_provider (.error rfl)

/-- What follows the calls of a plain answer. -/
theorem tooDeep_assemble (id : Uuid) (body message : JsonObject) (calls : List ToolCall) :
    TooDeep (if textOf (message.get "content") = [] ∧ calls = [] then
        .error (rejected "Model returned an empty assistant message")
      else do
        let usage ← tokenUsage (body.get "usage") "prompt_tokens" "completion_tokens"
        assembledResult json id (textOf (message.get "content")) calls usage) ↔
      ∃ usage, tokenUsage (body.get "usage") "prompt_tokens" "completion_tokens" = .ok usage ∧
        DeepCalls json (textOf (message.get "content")) calls := by
  have husage : ¬TooDeep (tokenUsage (body.get "usage") "prompt_tokens" "completion_tokens") :=
    not_tooDeep_of_provider (raises_tokenUsage _ _ _)
  by_cases hempty : textOf (message.get "content") = [] ∧ calls = []
  · rw [if_pos hempty]
    refine iff_of_false (not_tooDeep_of_provider (.error rfl)) ?_
    rintro ⟨usage, -, hdeep⟩
    exact hdeep.fits.nonempty.elim (absurd hempty.1) (absurd hempty.2)
  · rw [if_neg hempty, tooDeep_bind_of_not husage]
    exact exists_congr fun usage => and_congr_right fun _ => deepCalls_iff json id _ calls usage

theorem tooDeep_generate (id : Uuid) (bytes : List Byte) :
    TooDeep (generate json id bytes) ↔ DeepBody json bytes := by
  rw [generate, tooDeep_bind, tooDeep_translate catches_no_recursion rfl, tooDeep_readBody]
  constructor
  · rintro (h | ⟨⟨body, message⟩, hread, h⟩)
    · exact .body h
    · have hread := mapError_eq_ok.mp hread
      rcases tooDeep_bind.mp h with hcalls | ⟨calls, hcalls, h⟩
      · obtain ⟨before, raw, after, hraw, hbefore, hdeep⟩ := (tooDeep_readCalls _).mp hcalls
        obtain ⟨call, function, text, rfl, hfunction, htext, hdeep⟩ := (tooDeep_readCall _).mp hdeep
        exact .arguments body message before after call function text hread hraw hbefore hfunction
          htext hdeep
      · obtain ⟨usage, husage, hdeep⟩ := (tooDeep_assemble id body message calls).mp h
        exact .calls body message calls usage hread hcalls husage hdeep
  · rintro (h | ⟨body, message, before, after, call, function, text, hread, hraw, hbefore,
      hfunction, htext, hdeep⟩ | ⟨body, message, calls, usage, hread, hcalls, husage, hdeep⟩)
    · exact Or.inl h
    · refine Or.inr ⟨(body, message), mapError_eq_ok.mpr hread, tooDeep_bind.mpr (Or.inl ?_)⟩
      exact (tooDeep_readCalls _).mpr ⟨before, _, after, hraw, hbefore,
        (tooDeep_readCall _).mpr ⟨call, function, text, rfl, hfunction, htext, hdeep⟩⟩
    · refine Or.inr ⟨(body, message), mapError_eq_ok.mpr hread, tooDeep_bind.mpr (Or.inr ?_)⟩
      exact ⟨calls, hcalls, (tooDeep_assemble id body message calls).mpr ⟨usage, husage, hdeep⟩⟩

/-! ## The stream -/

theorem readStream_eq (ending : Except Exn Unit) (datas : List PyStr) (s : StreamState) :
    readStream json ending datas s = Gen.consume (step json) ending datas s := by
  induction datas generalizing s with
  | nil => rfl
  | cons data rest ih =>
    rw [readStream, Gen.consume, step]
    by_cases hempty : data = []
    · rw [if_pos hempty, if_pos hempty, pure_bind]
      exact ih s
    · rw [if_neg hempty, if_neg hempty]
      by_cases hdone : data = PyStr.ofString "[DONE]"
      · rw [if_pos hdone, if_pos hdone, pure_bind]
        rfl
      · rw [if_neg hdone, if_neg hdone, bind_assoc]
        refine bind_congr fun s' => ?_
        rw [pure_bind]
        exact ih s'

theorem onlyDeltas_readValue (s : StreamState) (value : PyValue) :
    OnlyDeltas (readValue s value) := by
  rw [readValue]
  refine (Gen.Yields.ofExcept _).bind fun body => ?_
  split
  · exact .raise _
  · refine (Gen.Yields.ofExcept _).bind fun usage => ?_
    rw [readChoices.eq_def]
    split
    · exact .pure _
    · rw [readChoice]
      refine (Gen.Yields.ofExcept _).bind fun choice => ?_
      refine (Gen.Yields.ofExcept _).bind fun _ => ?_
      split
      · exact .raise _
      · refine (Gen.Yields.ofExcept _).bind fun delta => ?_
        refine (Gen.Yields.forM onlyDeltas_yieldText).bind fun _ => ?_
        exact (Gen.Yields.ofExcept _).bind fun chunks => .pure _
    · exact .raise _
    · exact .raise _

theorem onlyDeltas_step (s : StreamState) (data : PyStr) : OnlyDeltas (step json s data) := by
  rw [step]
  split
  · exact .pure _
  · split
    · exact .pure _
    · refine Gen.Yields.bind ?_ fun s' => .pure _
      rw [readEvent]
      exact (Gen.Yields.ofExcept _).bind fun value => onlyDeltas_readValue s value

theorem tooDeep_step (s : StreamState) (data : PyStr) :
    TooDeep (step json s data).ending ↔
      data ≠ [] ∧ data ≠ PyStr.ofString "[DONE]" ∧ TooDeep (json.loads data) := by
  rw [step]
  by_cases hempty : data = []
  · rw [if_pos hempty]
    exact iff_of_false (not_tooDeep_ok _) fun h => h.1 hempty
  · rw [if_neg hempty]
    by_cases hdone : data = PyStr.ofString "[DONE]"
    · rw [if_pos hdone]
      exact iff_of_false (not_tooDeep_ok _) fun h => h.2.1 hdone
    · have hvalue (value : PyValue) : ¬TooDeep (readValue s value).ending :=
        not_tooDeep_of_raises (fun _ => rfl) (raises_readValue s value)
      rw [if_neg hdone, tooDeep_gen_bind, readEvent, tooDeep_gen_bind]
      constructor
      · rintro ((h | ⟨value, -, h⟩) | ⟨s', -, h⟩)
        · exact ⟨hempty, hdone, h⟩
        · exact absurd h (hvalue value)
        · exact absurd h (not_tooDeep_ok _)
      · exact fun h => Or.inl (Or.inl h.2.2)

theorem tooDeep_closeChunk (chunk : ToolChunk) :
    TooDeep (closeChunk json chunk) ↔ TooDeep (json.loads
      (if chunk.arguments = [] then PyStr.ofString "\x7b\x7d" else chunk.arguments)) := by
  rw [closeChunk]
  exact tooDeep_decodeCall _ (.ok _)

theorem tooDeep_finishStream (id : Uuid) (s : StreamState) :
    TooDeep (finishStream json id s) ↔ (∃ closed chunk rest,
      s.toolChunks.sorted = closed ++ chunk :: rest ∧
        (∀ c ∈ closed, ∃ call, closeChunk json c = .ok call) ∧ TooDeep (closeChunk json chunk)) ∨
      ∃ calls, s.toolChunks.sorted.mapM (closeChunk json) = .ok calls ∧
        DeepCalls json s.textChunks calls := by
  rw [finishStream, tooDeep_bind, tooDeep_translate (fun _ => rfl) rfl, tooDeep_mapM]
  simp only [mapError_eq_ok]
  exact or_congr_right (exists_congr fun calls => and_congr_right fun _ =>
    (assembly_nonempty json id s.textChunks calls s.usage _).deep_iff)

/-- What is made of the end of the loop. -/
def finish (json : PyJson) (id : Uuid) (next : StreamState × Bool) : Except Exn ModelResult :=
  if !next.2 then
    .error (.kit (.provider true) "OpenAI-compatible model stream ended before completion")
  else finishStream json id next.1

theorem stream_eq (id : Uuid) (datas : List PyStr) : stream json id (dataSource datas) =
    (translated streamClasses (requestFailure "OpenAI-compatible model stream failed")
      (Gen.consume (step json) (.ok ()) datas .start) >>= fun next =>
        concluded (finish json id next)) := by
  rw [stream, dataSource, readStream_eq]
  refine bind_congr fun next => ?_
  obtain ⟨s, completed⟩ := next
  cases completed with
  | false => rfl
  | true => rfl

/-- `[DONE]` breaks the loop, and nothing else does. -/
theorem done_of_stop {s s' : StreamState} {data : PyStr}
    (h : (step json s data).ending = .ok (s', true)) : data = PyStr.ofString "[DONE]" ∧ s' = s := by
  rw [step] at h
  split at h
  · cases h
  · split at h
    · next hdone =>
      cases h
      exact ⟨hdone, rfl⟩
    · exfalso
      cases hread : (readEvent json s data).ending with
      | error e =>
        rw [Gen.ending_bind_error hread] at h
        cases h
      | ok s'' =>
        rw [Gen.ending_bind_ok hread] at h
        cases h

theorem step_done (s : StreamState) :
    (step json s (PyStr.ofString "[DONE]")).ending = .ok (s, true) := by
  rw [step, if_neg (by decide), if_pos rfl]
  rfl

theorem tooDeep_stream (id : Uuid) (datas : List PyStr) :
    TooDeep (stream json id (dataSource datas)).ending ↔ DeepStream json datas := by
  have hfinish (next : StreamState × Bool) : TooDeep (concluded (finish json id next)).ending ↔
      next.2 = true ∧ TooDeep (finishStream json id next.1) := by
    rw [tooDeep_concluded, finish]
    cases next.2 with
    | false => exact iff_of_false (not_tooDeep_of_provider (.error rfl)) fun h => by cases h.1
    | true => exact ⟨fun h => ⟨rfl, h⟩, fun h => h.2⟩
  rw [stream_eq, tooDeep_gen_bind, translated, tooDeep_translate (fun _ => rfl) rfl,
    tooDeep_consume]
  simp only [mapError_eq_ok, hfinish]
  constructor
  · rintro (⟨before, data, after, s, hdatas, hbefore, h⟩ | ⟨⟨s, stop⟩, hloop, hstop, h⟩)
    · obtain ⟨hempty, hdone, hdeep⟩ := (tooDeep_step s data).mp h
      exact .data before after data s hdatas hbefore hempty hdone hdeep
    · subst hstop
      obtain ⟨before, data, after, s₁, hdatas, hbefore, hd⟩ := Gen.consume_stop_iff.mp hloop
      obtain ⟨rfl, rfl⟩ := done_of_stop hd
      rcases (tooDeep_finishStream id _).mp h with
        ⟨closed, chunk, rest, hsorted, hclosed, hdeep⟩ | ⟨calls, hcalls, hdeep⟩
      · exact .arguments before after _ closed rest chunk hdatas hbefore hsorted hclosed
          ((tooDeep_closeChunk chunk).mp hdeep)
      · exact .calls before after _ calls hdatas hbefore hcalls hdeep
  · -- what follows `[DONE]`
    have hend {before after : List PyStr} {s : StreamState}
        (hdatas : datas = before ++ PyStr.ofString "[DONE]" :: after)
        (hbefore : Gen.Consumes (step json) .start before s)
        (h : TooDeep (finishStream json id s)) :
        ∃ next, (Gen.consume (step json) (.ok ()) datas .start).ending = .ok next ∧
          next.2 = true ∧ TooDeep (finishStream json id next.1) :=
      ⟨(s, true), Gen.consume_stop_iff.mpr ⟨before, _, after, s, hdatas, hbefore, step_done s⟩,
        rfl, h⟩
    rintro (⟨before, after, data, s, hdatas, hbefore, hempty, hdone, hdeep⟩ |
      ⟨before, after, s, closed, rest, chunk, hdatas, hbefore, hsorted, hclosed, hdeep⟩ |
      ⟨before, after, s, calls, hdatas, hbefore, hcalls, hdeep⟩)
    · exact Or.inl ⟨before, data, after, s, hdatas, hbefore,
        (tooDeep_step s data).mpr ⟨hempty, hdone, hdeep⟩⟩
    · refine Or.inr (hend hdatas hbefore ((tooDeep_finishStream id s).mpr (Or.inl ?_)))
      exact ⟨closed, chunk, rest, hsorted, hclosed, (tooDeep_closeChunk chunk).mpr hdeep⟩
    · exact Or.inr (hend hdatas hbefore
        ((tooDeep_finishStream id s).mpr (Or.inr ⟨calls, hcalls, hdeep⟩)))

/-- The plain call is safe, and so is the stream, unless something nests too deeply. -/
theorem safe_iff (id : Uuid) :
    (∀ bytes, SafeAnswer (generate json id bytes) ↔ ¬DeepBody json bytes) ∧
      ∀ datas, SafeStream (Told json datas) (stream json id (dataSource datas)) ↔
        ¬DeepStream json datas := by
  refine ⟨fun bytes => ?_, fun datas => ?_⟩
  · rw [safeAnswer_iff (raises_generate id bytes), tooDeep_generate]
  · have hsafe : Raises json.Safe (stream json id (dataSource datas)).ending :=
      raises_stream (.ok ()) id
    rw [← tooDeep_stream id datas]
    rw [stream_eq] at hsafe ⊢
    refine safeStream_iff ?_ hsafe ?_
    · exact Gen.Yields.consume (fun s d => onlyDeltas_step s d) datas .start
    · rintro ⟨s, stop⟩ r hloop hresult
      have hstop : stop = true := by
        cases stop with
        | true => rfl
        | false => cases hresult
      subst hstop
      obtain ⟨before, data, after, s₁, hdatas, hbefore, hd⟩ :=
        Gen.consume_stop_iff.mp (mapError_eq_ok.mp hloop)
      obtain ⟨rfl, -⟩ := done_of_stop hd
      exact ⟨before, after, s₁, hdatas, hbefore⟩

end OpenAI

namespace Anthropic

-- ---------------------------------------------------------------------------
-- Anthropic: what nests too deeply
-- ---------------------------------------------------------------------------

/-- The body, the input of a tool block that is reached, its text, decoded at the end, or the input
once more, written when the calls of an answer that fits are compared. -/
inductive DeepBody (json : PyJson) (bytes : List Byte) : Prop
  | body : TooDeep (json.loadsBytes bytes) → DeepBody json bytes
  | input (body block : JsonObject) (before after : List PyValue) (acc : Blocks)
      (identity : PyStr × PyStr) :
    json.loadsBytes bytes = .ok (.dict body) →
      isNoneOr stopReasons (body.get "stop_reason") = true →
        body.get "content" = .list (before ++ .dict block :: after) →
          readBlocks json 0 before ⟨[], []⟩ = .ok acc → hasType block "tool_use" = true →
            readIdentity block = .ok identity →
              TooDeep (json.dumps (block.getD "input" (.dict []))) → DeepBody json bytes
  | arguments (body : JsonObject) (xs : List PyValue) (blocks : Blocks) (usage : Option Usage)
      (closed rest : List ToolChunk) (chunk : ToolChunk) :
    json.loadsBytes bytes = .ok (.dict body) →
      isNoneOr stopReasons (body.get "stop_reason") = true → body.get "content" = .list xs →
        readBlocks json 0 xs ⟨[], []⟩ = .ok blocks →
          tokenUsage (body.get "usage") "input_tokens" "output_tokens" = .ok usage →
            blocks.toolChunks.sorted = closed ++ chunk :: rest →
              (∀ c ∈ closed, ∃ call, closeChunk json c = .ok call) →
                TooDeep (json.loads (inputText chunk)) → DeepBody json bytes
  | calls (body : JsonObject) (xs : List PyValue) (blocks : Blocks) (usage : Option Usage)
      (calls : List ToolCall) :
    json.loadsBytes bytes = .ok (.dict body) →
      isNoneOr stopReasons (body.get "stop_reason") = true → body.get "content" = .list xs →
        readBlocks json 0 xs ⟨[], []⟩ = .ok blocks →
          tokenUsage (body.get "usage") "input_tokens" "output_tokens" = .ok usage →
            blocks.toolChunks.sorted.mapM (closeChunk json) = .ok calls →
              DeepCalls json blocks.textChunks calls → DeepBody json bytes

/-- What the loop makes of one item. -/
def step (json : PyJson) (s : StreamState) (data : PyStr) :
    Gen Exn ModelStreamEvent (StreamState × Bool) :=
  if data = [] then pure (s, false)
  else do
    let value ← .ofExcept (json.loads data)
    let event ← .ofExcept (object "stream event" value)
    if hasType event "error" then
      .raise (.kit (.provider true) "Anthropic model stream returned an error")
    else if hasType event "message_stop" then pure (s, true)
    else readEvent json s event >>= fun s' => pure (s', false)

/-- The start of a tool block with an input that nests too deeply. -/
structure DeepStart (json : PyJson) (s : StreamState) (event block initial : JsonObject)
    (index : Nat) : Prop where
  type : hasType event "content_block_start" = true
  tool : hasType block "tool_use" = true
  fresh : s.toolChunks.get? index = none
  input : block.getD "input" (.dict []) = .dict initial
  identity : ∃ identity, readIdentity block = .ok identity
  nonempty : initial ≠ []
  deep : TooDeep (json.dumps (.dict initial))
  index : toolIndex (event.getD "index" (.int 0)) = .ok index
  block : event.get "content_block" = .dict block

/-- The data of an event that is reached, the input it starts a tool block with, or an input after
`message_stop`, when its text is decoded or when it is written for the comparison. -/
inductive DeepStream (json : PyJson) (datas : List PyStr) : Prop
  | data (before after : List PyStr) (data : PyStr) (s : StreamState) :
    datas = before ++ data :: after → Gen.Consumes (step json) .start before s →
      data ≠ [] → TooDeep (json.loads data) → DeepStream json datas
  | input (before after : List PyStr) (data : PyStr) (s : StreamState)
      (event block initial : JsonObject) (index : Nat) :
    datas = before ++ data :: after → Gen.Consumes (step json) .start before s →
      data ≠ [] → json.loads data = .ok (.dict event) →
        DeepStart json s event block initial index → DeepStream json datas
  | arguments (before after : List PyStr) (stop : PyStr) (s : StreamState) (event : JsonObject)
      (closed rest : List ToolChunk) (chunk : ToolChunk) :
    datas = before ++ stop :: after → Gen.Consumes (step json) .start before s →
      stop ≠ [] → json.loads stop = .ok (.dict event) → hasType event "message_stop" = true →
        s.toolChunks.sorted = closed ++ chunk :: rest →
          (∀ c ∈ closed, ∃ call, closeChunk json c = .ok call) →
            TooDeep (json.loads (inputText chunk)) → DeepStream json datas
  | calls (before after : List PyStr) (stop : PyStr) (s : StreamState) (event : JsonObject)
      (calls : List ToolCall) :
    datas = before ++ stop :: after → Gen.Consumes (step json) .start before s →
      stop ≠ [] → json.loads stop = .ok (.dict event) → hasType event "message_stop" = true →
        s.toolChunks.sorted.mapM (closeChunk json) = .ok calls →
          DeepCalls json s.textChunks calls → DeepStream json datas

/-- The loop gets to `message_stop`. -/
def Told (json : PyJson) (datas : List PyStr) : Prop :=
  ∃ before after stop s event, datas = before ++ stop :: after ∧
    Gen.Consumes (step json) .start before s ∧ json.loads stop = .ok (.dict event) ∧
      hasType event "message_stop" = true

theorem catches_no_recursion (message : String) :
    (Exn.py .recursionError message).isOneOf classes = false := rfl

theorem not_tooDeep_object (label : String) (v : PyValue) : ¬TooDeep (object label v) :=
  not_tooDeep_of_raises catches_no_recursion (raises_mapping type_mem _ v)

/-- An object has one type. -/
theorem hasType_unique {o : JsonObject} {a b : String} (ha : hasType o a = true)
    (hb : hasType o b = true) : a = b := by
  rw [hasType] at ha hb
  cases htype : o.get "type" with
  | str s =>
    rw [htype] at ha hb
    exact PyStr.ofString_injective ((of_decide_eq_true ha).symm.trans (of_decide_eq_true hb))
  | _ =>
    rw [htype] at ha
    cases ha

/-! ## The plain call -/

theorem tooDeep_closeChunk (chunk : ToolChunk) :
    TooDeep (closeChunk json chunk) ↔ TooDeep (json.loads (inputText chunk)) := by
  rw [closeChunk]
  refine tooDeep_bind_of_forall_not fun v => ?_
  exact not_tooDeep_of_raises catches_no_recursion (raises_callOf json value_mem chunk v)

theorem tooDeep_assembled (id : Uuid) (texts : List PyStr) (chunks : IntDict ToolChunk)
    (usage : Option Usage) :
    TooDeep (assembled json id texts chunks usage) ↔ (∃ closed chunk rest,
      chunks.sorted = closed ++ chunk :: rest ∧
        (∀ c ∈ closed, ∃ call, closeChunk json c = .ok call) ∧
          TooDeep (json.loads (inputText chunk))) ∨
      ∃ calls, chunks.sorted.mapM (closeChunk json) = .ok calls ∧ DeepCalls json texts calls := by
  rw [assembled, tooDeep_bind, tooDeep_translate (fun _ => rfl) rfl, tooDeep_mapM]
  simp only [mapError_eq_ok, tooDeep_closeChunk]
  exact or_congr_right (exists_congr fun calls => and_congr_right fun _ =>
    (assembly_nonempty json id texts calls usage _).deep_iff)

/-- One block of a body. -/
def readBlock (json : PyJson) (index : Nat) (rawBlock : PyValue) (acc : Blocks) :
    Except Exn Blocks := do
  let block ← object "content block" rawBlock
  if hasType block "text" then
    .ok { acc with textChunks := acc.textChunks ++ textOf (block.get "text") }
  else if hasType block "tool_use" then do
    let (id, name) ← readIdentity block
    let arguments ← json.dumps (block.getD "input" (.dict []))
    .ok { acc with toolChunks := acc.toolChunks.insert index ⟨id, name, arguments⟩ }
  else .ok acc

theorem readBlocks_cons (index : Nat) (rawBlock : PyValue) (rest : List PyValue) (acc : Blocks) :
    readBlocks json index (rawBlock :: rest) acc =
      (readBlock json index rawBlock acc >>= readBlocks json (index + 1) rest) := by
  rw [readBlocks, readBlock, bind_assoc]
  refine bind_congr fun block => ?_
  split
  · rfl
  · split
    · rw [bind_assoc]
      refine bind_congr fun identity => ?_
      rw [bind_assoc]
      rfl
    · rfl

theorem tooDeep_readBlock (index : Nat) (rawBlock : PyValue) (acc : Blocks) :
    TooDeep (readBlock json index rawBlock acc) ↔ ∃ block : JsonObject, rawBlock = .dict block ∧
      hasType block "tool_use" = true ∧ (∃ identity, readIdentity block = .ok identity) ∧
        TooDeep (json.dumps (block.getD "input" (.dict []))) := by
  have hidentity (block : JsonObject) : ¬TooDeep (readIdentity block) :=
    not_tooDeep_of_raises catches_no_recursion (raises_readIdentity block)
  rw [readBlock, tooDeep_bind_of_not (not_tooDeep_object _ _)]
  simp only [object, mapping_eq_ok]
  refine exists_congr fun block => and_congr_right fun _ => ?_
  by_cases htext : hasType block "text" = true
  · rw [if_pos htext]
    refine iff_of_false (not_tooDeep_ok _) fun h => ?_
    exact absurd (hasType_unique htext h.1) (by decide)
  · rw [if_neg htext]
    by_cases htool : hasType block "tool_use" = true
    · rw [if_pos htool, tooDeep_bind_of_not (hidentity block)]
      constructor
      · rintro ⟨identity, hid, h⟩
        exact ⟨htool, ⟨identity, hid⟩, (tooDeep_bind_of_forall_not fun _ => not_tooDeep_ok _).mp h⟩
      · rintro ⟨-, ⟨identity, hid⟩, h⟩
        exact ⟨identity, hid, (tooDeep_bind_of_forall_not fun _ => not_tooDeep_ok _).mpr h⟩
    · rw [if_neg htool]
      exact iff_of_false (not_tooDeep_ok _) fun h => htool h.1

/-- The first block whose input cannot be written. -/
theorem tooDeep_readBlocks (index : Nat) (xs : List PyValue) (acc : Blocks) :
    TooDeep (readBlocks json index xs acc) ↔ ∃ (before after : List PyValue) (block : JsonObject)
      (acc' : Blocks), xs = before ++ .dict block :: after ∧
        readBlocks json index before acc = .ok acc' ∧ hasType block "tool_use" = true ∧
          (∃ identity, readIdentity block = .ok identity) ∧
            TooDeep (json.dumps (block.getD "input" (.dict []))) := by
  induction xs generalizing index acc with
  | nil =>
    refine iff_of_false (not_tooDeep_ok _) ?_
    rintro ⟨before, after, block, acc', h, -⟩
    exact absurd h.symm (by simp)
  | cons raw rest ih =>
    rw [readBlocks_cons, tooDeep_bind, tooDeep_readBlock]
    constructor
    · rintro (⟨block, rfl, htool, hidentity, hdeep⟩ | ⟨acc₁, hread, h⟩)
      · exact ⟨[], rest, block, acc, rfl, rfl, htool, hidentity, hdeep⟩
      · obtain ⟨before, after, block, acc', rfl, hbefore, h⟩ := (ih _ _).mp h
        refine ⟨raw :: before, after, block, acc', rfl, ?_, h⟩
        rw [readBlocks_cons, bind_of_ok hread]
        exact hbefore
    · rintro ⟨before, after, block, acc', h, hbefore, htool, hidentity, hdeep⟩
      cases before with
      | nil =>
        obtain ⟨rfl, -⟩ := List.cons.inj h
        exact Or.inl ⟨block, rfl, htool, hidentity, hdeep⟩
      | cons y before =>
        obtain ⟨rfl, rfl⟩ := List.cons.inj h
        rw [readBlocks_cons] at hbefore
        obtain ⟨acc₁, hread, hbefore⟩ := bind_eq_ok.mp hbefore
        exact Or.inr ⟨acc₁, hread, (ih _ _).mpr
          ⟨before, after, block, acc', rfl, hbefore, htool, hidentity, hdeep⟩⟩

theorem sequence_eq_ok {label : String} {v : PyValue} {xs : List PyValue} :
    sequence label v = .ok xs ↔ v = .list xs := by
  cases v with
  | list ys => exact ⟨fun h => congrArg PyValue.list (Except.ok.inj h), fun h => by cases h; rfl⟩
  | _ => exact iff_of_false (fun h => by cases h) fun h => by cases h

theorem tooDeep_generate (id : Uuid) (bytes : List Byte) :
    TooDeep (generate json id bytes) ↔ DeepBody json bytes := by
  have hsequence (v : PyValue) : ¬TooDeep (sequence "content" v) :=
    not_tooDeep_of_raises catches_no_recursion (raises_sequence _ v)
  have husage (v : PyValue) : ¬TooDeep (tokenUsage v "input_tokens" "output_tokens") :=
    not_tooDeep_of_provider (raises_tokenUsage _ _ _)
  rw [generate, tooDeep_translate catches_no_recursion rfl, tooDeep_bind]
  constructor
  · rintro (h | ⟨raw, hraw, h⟩)
    · exact .body h
    · obtain ⟨body, hbody, h⟩ := (tooDeep_bind_of_not (not_tooDeep_object _ _)).mp h
      obtain rfl := mapping_eq_ok.mp hbody
      have h : TooDeep (result json id body) := h
      rw [result] at h
      split at h
      · exact absurd h (not_tooDeep_of_provider (.error rfl))
      · next hstop =>
        rw [Bool.not_eq_true', Bool.not_eq_false] at hstop
        obtain ⟨xs, hxs, h⟩ := (tooDeep_bind_of_not (hsequence _)).mp h
        have hcontent := sequence_eq_ok.mp hxs
        rcases tooDeep_bind.mp h with h | ⟨blocks, hblocks, h⟩
        · obtain ⟨before, after, block, acc, rfl, hbefore, htool, ⟨identity, hid⟩, hdeep⟩ :=
            (tooDeep_readBlocks _ _ _).mp h
          exact .input body block before after acc identity hraw hstop hcontent hbefore htool hid
            hdeep
        · obtain ⟨usage, hu, h⟩ := (tooDeep_bind_of_not (husage _)).mp h
          rcases (tooDeep_assembled _ _ _ _).mp h with
            ⟨closed, chunk, rest, hsorted, hclosed, hdeep⟩ | ⟨calls, hcalls, hdeep⟩
          · exact .arguments body xs blocks usage closed rest chunk hraw hstop hcontent hblocks hu
              hsorted hclosed hdeep
          · exact .calls body xs blocks usage calls hraw hstop hcontent hblocks hu hcalls hdeep
  · have hresult {body : JsonObject} {xs : List PyValue}
        (hstop : isNoneOr stopReasons (body.get "stop_reason") = true)
        (hcontent : body.get "content" = .list xs)
        (h : TooDeep (readBlocks json 0 xs ⟨[], []⟩ >>= fun blocks =>
          tokenUsage (body.get "usage") "input_tokens" "output_tokens" >>= fun usage =>
            assembled json id blocks.textChunks blocks.toolChunks usage)) :
        TooDeep (object "response" (.dict body) >>= result json id) := by
      refine (tooDeep_bind_of_not (not_tooDeep_object _ _)).mpr ⟨body, rfl, ?_⟩
      rw [result, hstop]
      exact (tooDeep_bind_of_not (hsequence _)).mpr ⟨xs, sequence_eq_ok.mpr hcontent, h⟩
    have hblocks_end {body : JsonObject} {xs : List PyValue} {blocks : Blocks}
        {usage : Option Usage} (hblocks : readBlocks json 0 xs ⟨[], []⟩ = .ok blocks)
        (hu : tokenUsage (body.get "usage") "input_tokens" "output_tokens" = .ok usage)
        (h : TooDeep (assembled json id blocks.textChunks blocks.toolChunks usage)) :
        TooDeep (readBlocks json 0 xs ⟨[], []⟩ >>= fun blocks =>
          tokenUsage (body.get "usage") "input_tokens" "output_tokens" >>= fun usage =>
            assembled json id blocks.textChunks blocks.toolChunks usage) := by
      refine tooDeep_bind.mpr (Or.inr ⟨blocks, hblocks, ?_⟩)
      exact (tooDeep_bind_of_not (husage _)).mpr ⟨usage, hu, h⟩
    rintro (h |
      ⟨body, block, before, after, acc, identity, hraw, hstop, hcontent, hbefore, htool, hid,
        hdeep⟩ |
      ⟨body, xs, blocks, usage, closed, rest, chunk, hraw, hstop, hcontent, hblocks, hu, hsorted,
        hclosed, hdeep⟩ |
      ⟨body, xs, blocks, usage, calls, hraw, hstop, hcontent, hblocks, hu, hcalls, hdeep⟩)
    · exact Or.inl h
    · refine Or.inr ⟨_, hraw, hresult hstop hcontent (tooDeep_bind.mpr (Or.inl ?_))⟩
      exact (tooDeep_readBlocks _ _ _).mpr
        ⟨before, after, block, acc, rfl, hbefore, htool, ⟨identity, hid⟩, hdeep⟩
    · refine Or.inr ⟨_, hraw, hresult hstop hcontent (hblocks_end hblocks hu ?_)⟩
      exact (tooDeep_assembled _ _ _ _).mpr
        (Or.inl ⟨closed, chunk, rest, hsorted, hclosed, hdeep⟩)
    · refine Or.inr ⟨_, hraw, hresult hstop hcontent (hblocks_end hblocks hu ?_)⟩
      exact (tooDeep_assembled _ _ _ _).mpr (Or.inr ⟨calls, hcalls, hdeep⟩)

/-! ## The stream -/

theorem readStream_eq (ending : Except Exn Unit) (datas : List PyStr) (s : StreamState) :
    readStream json ending datas s = Gen.consume (step json) ending datas s := by
  induction datas generalizing s with
  | nil => rfl
  | cons data rest ih =>
    rw [readStream, Gen.consume, step]
    by_cases hempty : data = []
    · rw [if_pos hempty, if_pos hempty, pure_bind]
      exact ih s
    · rw [if_neg hempty, if_neg hempty, bind_assoc]
      refine bind_congr fun value => ?_
      rw [bind_assoc]
      refine bind_congr fun event => ?_
      by_cases herror : hasType event "error" = true
      · rw [if_pos herror, if_pos herror]
        rfl
      · rw [if_neg herror, if_neg herror]
        by_cases hstop : hasType event "message_stop" = true
        · rw [if_pos hstop, if_pos hstop, pure_bind]
          rfl
        · rw [if_neg hstop, if_neg hstop, bind_assoc]
          refine bind_congr fun s' => ?_
          rw [pure_bind]
          exact ih s'

theorem onlyDeltas_readEvent (s : StreamState) (event : JsonObject) :
    OnlyDeltas (readEvent json s event) := by
  rw [readEvent]
  split
  · exact .ofExcept _
  · split
    · exact .ofExcept _
    · split
      · rw [readBlockDelta]
        refine (Gen.Yields.ofExcept _).bind fun index => ?_
        refine (Gen.Yields.ofExcept _).bind fun delta => ?_
        split
        · exact (Gen.Yields.forM onlyDeltas_yieldText).bind fun _ => .pure _
        · split
          · exact .ofExcept _
          · exact .pure _
      · split
        · exact .ofExcept _
        · exact .pure _

theorem onlyDeltas_step (s : StreamState) (data : PyStr) : OnlyDeltas (step json s data) := by
  rw [step]
  split
  · exact .pure _
  · refine (Gen.Yields.ofExcept _).bind fun value => ?_
    refine (Gen.Yields.ofExcept _).bind fun event => ?_
    split
    · exact .raise _
    · split
      · exact .pure _
      · exact (onlyDeltas_readEvent s event).bind fun s' => .pure _

theorem tooDeep_initialText (initial : JsonObject) :
    TooDeep (initialText json initial) ↔ initial ≠ [] ∧ TooDeep (json.dumps (.dict initial)) := by
  rw [initialText]
  cases initial with
  | nil => exact iff_of_false (not_tooDeep_ok _) fun h => h.1 rfl
  | cons kv initial =>
    constructor
    · intro h
      exact ⟨List.cons_ne_nil _ _, h⟩
    · intro h
      exact h.2

theorem tooDeep_readToolStart (s : StreamState) (index : Nat) (block : JsonObject) :
    TooDeep (readToolStart json s index block) ↔ s.toolChunks.get? index = none ∧
      ∃ initial, block.getD "input" (.dict []) = .dict initial ∧
        (∃ identity, readIdentity block = .ok identity) ∧ initial ≠ [] ∧
          TooDeep (json.dumps (.dict initial)) := by
  have hidentity : ¬TooDeep (readIdentity block) :=
    not_tooDeep_of_raises catches_no_recursion (raises_readIdentity block)
  rw [readToolStart]
  cases hget : s.toolChunks.get? index with
  | some chunk => exact iff_of_false (not_tooDeep_of_provider (.error rfl)) fun h => by cases h.1
  | none =>
    dsimp only
    cases hinput : block.getD "input" (.dict []) with
    | dict initial =>
      refine (tooDeep_bind_of_not hidentity).trans ?_
      constructor
      · rintro ⟨identity, hid, h⟩
        have hdeep := (tooDeep_bind_of_forall_not fun _ => not_tooDeep_ok _).mp h
        exact ⟨rfl, initial, rfl, ⟨identity, hid⟩, (tooDeep_initialText initial).mp hdeep⟩
      · rintro ⟨-, initial', heq, ⟨identity, hid⟩, hdeep⟩
        cases heq
        exact ⟨identity, hid, (tooDeep_bind_of_forall_not fun _ => not_tooDeep_ok _).mpr
          ((tooDeep_initialText initial).mpr hdeep)⟩
    | _ =>
      refine iff_of_false (not_tooDeep_of_provider (.error rfl)) ?_
      rintro ⟨-, initial, h, -⟩
      cases h

theorem tooDeep_readEvent (s : StreamState) (event : JsonObject) :
    TooDeep (readEvent json s event).ending ↔
      ∃ block initial index, DeepStart json s event block initial index := by
  have hno {x : Except Exn StreamState} (h : Raises (PyJson.silent.Caught classes) x) :
      ¬TooDeep x :=
    not_tooDeep_of_raises catches_no_recursion h
  have hother {name : String} (h : hasType event name = true) (hne : name ≠ "content_block_start") :
      ¬∃ block initial index, DeepStart json s event block initial index := by
    rintro ⟨block, initial, index, hdeep⟩
    exact hne (hasType_unique h hdeep.type)
  rw [readEvent]
  split
  · next htype =>
    exact iff_of_false (hno (raises_readMessageStart s event)) (hother htype (by decide))
  · split
    · next htype =>
      show TooDeep (readBlockStart json s event) ↔ _
      have hindex : ¬TooDeep (toolIndex (event.getD "index" (.int 0))) :=
        not_tooDeep_of_provider (raises_toolIndex _)
      rw [readBlockStart, tooDeep_bind_of_not hindex]
      constructor
      · rintro ⟨index, hi, h⟩
        obtain ⟨block, hblock, h⟩ := (tooDeep_bind_of_not (not_tooDeep_object _ _)).mp h
        split at h
        · next htool =>
          obtain ⟨hfresh, initial, hinput, hid, hne, hdeep⟩ := (tooDeep_readToolStart _ _ _).mp h
          exact ⟨block, initial, index, htype, htool, hfresh, hinput, hid, hne, hdeep, hi,
            mapping_eq_ok.mp hblock⟩
        · exact absurd h (not_tooDeep_ok _)
      · rintro ⟨block, initial, index, h⟩
        refine ⟨index, h.index, (tooDeep_bind_of_not (not_tooDeep_object _ _)).mpr
          ⟨block, mapping_eq_ok.mpr h.block, ?_⟩⟩
        rw [if_pos h.tool]
        exact (tooDeep_readToolStart _ _ _).mpr
          ⟨h.fresh, initial, h.input, h.identity, h.nonempty, h.deep⟩
    · next htype =>
      have hnone : ¬∃ block initial index, DeepStart json s event block initial index := by
        rintro ⟨block, initial, index, h⟩
        exact htype h.type
      refine iff_of_false ?_ hnone
      split
      · exact hno (raises_readBlockDelta s event)
      · split
        · exact hno (raises_readMessageDelta s event)
        · exact not_tooDeep_ok _

theorem tooDeep_step (s : StreamState) (data : PyStr) :
    TooDeep (step json s data).ending ↔ data ≠ [] ∧ (TooDeep (json.loads data) ∨
      ∃ event, json.loads data = .ok (.dict event) ∧
        ∃ block initial index, DeepStart json s event block initial index) := by
  rw [step]
  by_cases hempty : data = []
  · rw [if_pos hempty]
    exact iff_of_false (not_tooDeep_ok _) fun h => h.1 hempty
  · rw [if_neg hempty, tooDeep_gen_bind]
    refine (or_congr_right ?_).trans (and_iff_right hempty).symm
    have hevent (event : JsonObject) : TooDeep (if hasType event "error" = true then
        .raise (.kit (.provider true) "Anthropic model stream returned an error")
        else if hasType event "message_stop" = true then pure (s, true)
        else readEvent json s event >>= fun s' => pure (s', false) :
          Gen Exn ModelStreamEvent (StreamState × Bool)).ending ↔
        ∃ block initial index, DeepStart json s event block initial index := by
      have hother {name : String} (h : hasType event name = true)
          (hne : name ≠ "content_block_start") :
          ¬∃ block initial index, DeepStart json s event block initial index := by
        rintro ⟨block, initial, index, hdeep⟩
        exact hne (hasType_unique h hdeep.type)
      by_cases herror : hasType event "error" = true
      · rw [if_pos herror]
        exact iff_of_false (not_tooDeep_of_provider (.error rfl)) (hother herror (by decide))
      · rw [if_neg herror]
        by_cases hstop : hasType event "message_stop" = true
        · rw [if_pos hstop]
          exact iff_of_false (not_tooDeep_ok _) (hother hstop (by decide))
        · rw [if_neg hstop, tooDeep_gen_bind, tooDeep_readEvent]
          refine or_iff_left ?_
          rintro ⟨s', -, h⟩
          exact not_tooDeep_ok _ h
    constructor
    · rintro ⟨value, hvalue, h⟩
      rcases tooDeep_gen_bind.mp h with h | ⟨event, hobject, h⟩
      · exact absurd h (not_tooDeep_object _ _)
      · obtain rfl := mapping_eq_ok.mp hobject
        exact ⟨event, hvalue, (hevent event).mp h⟩
    · rintro ⟨event, hvalue, h⟩
      exact ⟨_, hvalue, tooDeep_gen_bind.mpr (Or.inr ⟨event, rfl, (hevent event).mpr h⟩)⟩

/-- `message_stop` breaks the loop, and nothing else does. -/
theorem step_stop_iff {s s' : StreamState} {data : PyStr} :
    (step json s data).ending = .ok (s', true) ↔ s' = s ∧ data ≠ [] ∧
      ∃ event, json.loads data = .ok (.dict event) ∧ hasType event "message_stop" = true := by
  rw [step]
  by_cases hempty : data = []
  · rw [if_pos hempty]
    exact iff_of_false (fun h => by cases h) fun h => h.2.1 hempty
  · rw [if_neg hempty]
    constructor
    · intro h
      cases hloads : json.loads data with
      | error e =>
        rw [hloads] at h
        cases h
      | ok value =>
        rw [hloads] at h
        cases hobject : object "stream event" value with
        | error e =>
          have hending : (Gen.ofExcept (object "stream event" value) :
              Gen Exn ModelStreamEvent JsonObject).ending = .error e := hobject
          have hraise := (Gen.ending_bind_ok rfl _).symm.trans h
          rw [Gen.ending_bind_error hending] at hraise
          cases hraise
        | ok event =>
          obtain rfl := mapping_eq_ok.mp hobject
          have hrest : (if hasType event "error" = true then
              .raise (.kit (.provider true) "Anthropic model stream returned an error")
            else if hasType event "message_stop" = true then pure (s, true)
            else readEvent json s event >>= fun s' => pure (s', false) :
              Gen Exn ModelStreamEvent (StreamState × Bool)).ending = .ok (s', true) := h
          by_cases herror : hasType event "error" = true
          · rw [if_pos herror] at hrest
            cases hrest
          · rw [if_neg herror] at hrest
            by_cases hstop : hasType event "message_stop" = true
            · rw [if_pos hstop] at hrest
              cases hrest
              exact ⟨rfl, hempty, event, rfl, hstop⟩
            · rw [if_neg hstop] at hrest
              cases hread : (readEvent json s event).ending with
              | error e =>
                rw [Gen.ending_bind_error hread] at hrest
                cases hrest
              | ok s'' =>
                rw [Gen.ending_bind_ok hread] at hrest
                cases hrest
    · rintro ⟨rfl, -, event, hloads, hstop⟩
      have herror : ¬hasType event "error" = true := fun herror =>
        absurd (hasType_unique herror hstop) (by decide)
      rw [hloads]
      show (if hasType event "error" = true then _ else _ :
        Gen Exn ModelStreamEvent (StreamState × Bool)).ending = _
      rw [if_neg herror, if_pos hstop]
      rfl

/-- What is made of the end of the loop. -/
def finish (json : PyJson) (id : Uuid) (next : StreamState × Bool) : Except Exn ModelResult :=
  if !next.2 then
    .error (.kit (.provider true) "Anthropic model stream ended before completion")
  else streamUsage next.1 >>= fun usage =>
    assembled json id next.1.textChunks next.1.toolChunks usage

theorem stream_eq (id : Uuid) (datas : List PyStr) : stream json id (dataSource datas) =
    (translated classes (requestFailure "Anthropic model stream failed")
      (Gen.consume (step json) (.ok ()) datas .start) >>= fun next =>
        concluded (finish json id next)) := by
  rw [stream, dataSource, readStream_eq]
  refine bind_congr fun next => ?_
  obtain ⟨s, completed⟩ := next
  cases completed with
  | false => rfl
  | true =>
    show (Gen.ofExcept (streamUsage s) >>= fun usage =>
      Gen.ofExcept (assembled json id s.textChunks s.toolChunks usage) >>= fun result =>
        Gen.yield (.completed result.object)) = concluded (streamUsage s >>= fun usage =>
          assembled json id s.textChunks s.toolChunks usage)
    cases streamUsage s with
    | error e => rfl
    | ok usage => rfl

theorem tooDeep_finish (id : Uuid) (next : StreamState × Bool) :
    TooDeep (finish json id next) ↔ next.2 = true ∧ ((∃ closed chunk rest,
      next.1.toolChunks.sorted = closed ++ chunk :: rest ∧
        (∀ c ∈ closed, ∃ call, closeChunk json c = .ok call) ∧
          TooDeep (json.loads (inputText chunk))) ∨
      ∃ calls, next.1.toolChunks.sorted.mapM (closeChunk json) = .ok calls ∧
        DeepCalls json next.1.textChunks calls) := by
  rw [finish]
  cases next.2 with
  | false => exact iff_of_false (not_tooDeep_of_provider (.error rfl)) fun h => by cases h.1
  | true =>
    have husage : RaisesProvider (streamUsage next.1) := by
      rw [streamUsage]
      exact raises_tokenUsage _ _ _
    have hok : ∃ usage, streamUsage next.1 = .ok usage := by
      rw [streamUsage]
      cases next.1.inputTokens with
      | none =>
        cases next.1.outputTokens with
        | none => exact ⟨_, rfl⟩
        | some o => exact ⟨_, rfl⟩
      | some i =>
        cases next.1.outputTokens with
        | none => exact ⟨_, rfl⟩
        | some o => exact ⟨_, rfl⟩
    obtain ⟨usage, hok⟩ := hok
    show TooDeep (streamUsage next.1 >>= _) ↔ _
    rw [bind_of_ok hok, tooDeep_assembled]
    simp only [true_and]

theorem tooDeep_stream (id : Uuid) (datas : List PyStr) :
    TooDeep (stream json id (dataSource datas)).ending ↔ DeepStream json datas := by
  rw [stream_eq, tooDeep_gen_bind, translated, tooDeep_translate (fun _ => rfl) rfl,
    tooDeep_consume]
  simp only [mapError_eq_ok, tooDeep_concluded, tooDeep_finish, tooDeep_step]
  constructor
  · rintro (⟨before, data, after, s, hdatas, hbefore, hne,
      h | ⟨event, hloads, block, initial, index, h⟩⟩ | ⟨⟨s, stop⟩, hloop, hstop, h⟩)
    · exact .data before after data s hdatas hbefore hne h
    · exact .input before after data s event block initial index hdatas hbefore hne hloads h
    · subst hstop
      obtain ⟨before, data, after, s₁, hdatas, hbefore, hd⟩ := Gen.consume_stop_iff.mp hloop
      obtain ⟨rfl, hne, event, hloads, htype⟩ := step_stop_iff.mp hd
      rcases h with ⟨closed, chunk, rest, hsorted, hclosed, h⟩ | ⟨calls, hcalls, h⟩
      · exact .arguments before after data _ event closed rest chunk hdatas hbefore hne hloads htype
          hsorted hclosed h
      · exact .calls before after data _ event calls hdatas hbefore hne hloads htype hcalls h
  · -- what follows `message_stop`
    have hend {before after : List PyStr} {stop : PyStr} {s : StreamState} {event : JsonObject}
        (hdatas : datas = before ++ stop :: after)
        (hbefore : Gen.Consumes (step json) .start before s) (hne : stop ≠ [])
        (hloads : json.loads stop = .ok (.dict event))
        (htype : hasType event "message_stop" = true) :
        (Gen.consume (step json) (.ok ()) datas .start).ending = .ok (s, true) :=
      Gen.consume_stop_iff.mpr ⟨before, stop, after, s, hdatas, hbefore,
        step_stop_iff.mpr ⟨rfl, hne, event, hloads, htype⟩⟩
    rintro (⟨before, after, data, s, hdatas, hbefore, hne, h⟩ |
      ⟨before, after, data, s, event, block, initial, index, hdatas, hbefore, hne, hloads, h⟩ |
      ⟨before, after, data, s, event, closed, rest, chunk, hdatas, hbefore, hne, hloads, htype,
        hsorted, hclosed, h⟩ |
      ⟨before, after, data, s, event, calls, hdatas, hbefore, hne, hloads, htype, hcalls, h⟩)
    · exact Or.inl ⟨before, data, after, s, hdatas, hbefore, hne, Or.inl h⟩
    · exact Or.inl ⟨before, data, after, s, hdatas, hbefore, hne,
        Or.inr ⟨event, hloads, block, initial, index, h⟩⟩
    · exact Or.inr ⟨(s, true), hend hdatas hbefore hne hloads htype, rfl,
        Or.inl ⟨closed, chunk, rest, hsorted, hclosed, h⟩⟩
    · exact Or.inr ⟨(s, true), hend hdatas hbefore hne hloads htype, rfl,
        Or.inr ⟨calls, hcalls, h⟩⟩

/-- The plain call is safe, and so is the stream, unless something nests too deeply. -/
theorem safe_iff (id : Uuid) :
    (∀ bytes, SafeAnswer (generate json id bytes) ↔ ¬DeepBody json bytes) ∧
      ∀ datas, SafeStream (Told json datas) (stream json id (dataSource datas)) ↔
        ¬DeepStream json datas := by
  refine ⟨fun bytes => ?_, fun datas => ?_⟩
  · rw [safeAnswer_iff (raises_generate id bytes), tooDeep_generate]
  · have hsafe : Raises json.Safe (stream json id (dataSource datas)).ending :=
      raises_stream (.ok ()) id
    rw [← tooDeep_stream id datas]
    rw [stream_eq] at hsafe ⊢
    refine safeStream_iff ?_ hsafe ?_
    · exact Gen.Yields.consume (fun s d => onlyDeltas_step s d) datas .start
    · rintro ⟨s, stop⟩ r hloop hresult
      have hstop : stop = true := by
        cases stop with
        | true => rfl
        | false => cases hresult
      subst hstop
      obtain ⟨before, data, after, s₁, hdatas, hbefore, hd⟩ :=
        Gen.consume_stop_iff.mp (mapError_eq_ok.mp hloop)
      obtain ⟨-, -, event, hloads, htype⟩ := step_stop_iff.mp hd
      exact ⟨before, after, data, s₁, event, hdatas, hbefore, hloads, htype⟩

end Anthropic

namespace Gemini

-- ---------------------------------------------------------------------------
-- Gemini: what nests too deeply
-- ---------------------------------------------------------------------------

/-- Arguments come decoded, so that nothing but the body itself is decoded; they are written when
the calls of an answer that fits are compared. -/
inductive DeepBody (json : PyJson) (uuids : Nat → Uuid) (bytes : List Byte) : Prop
  | body : TooDeep (json.loadsBytes bytes) → DeepBody json uuids bytes
  | calls (body candidate : JsonObject) (parts : List JsonObject) (calls : List ToolCall)
      (usage : Option Usage) :
    json.loadsBytes bytes = .ok (.dict body) →
      readCandidate "Gemini response did not finish successfully" body = .ok candidate →
        readParts (candidate.get "content") = .ok parts →
          parts.foldlM (readCall json uuids) [] = .ok calls → readUsage body = .ok usage →
            DeepCalls json (parts.flatMap fun part => textOf (part.get "text")) calls →
              DeepBody json uuids bytes

/-- What the loop makes of one item. -/
def step (json : PyJson) (uuids : Nat → Uuid) (s : StreamState) (data : PyStr) :
    Gen Exn ModelStreamEvent (StreamState × Bool) :=
  if data = [] then pure (s, false)
  else readEvent json uuids s data >>= fun s' => pure (s', false)

/-- The data of a chunk that is reached, or the arguments of a call of a stream that has
finished. -/
inductive DeepStream (json : PyJson) (uuids : Nat → Uuid) (datas : List PyStr) : Prop
  | data (before after : List PyStr) (data : PyStr) (s : StreamState) :
    datas = before ++ data :: after → Gen.Consumes (step json uuids) .start before s →
      data ≠ [] → TooDeep (json.loads data) → DeepStream json uuids datas
  | calls (s : StreamState) :
    Gen.Consumes (step json uuids) .start datas s → s.completed = true →
      DeepCalls json s.textChunks s.toolCalls → DeepStream json uuids datas

/-- A chunk whose candidate has finished with `STOP`. -/
def StopChunk (json : PyJson) (data : PyStr) : Prop :=
  data ≠ [] ∧ ∃ body candidate, json.loads data = .ok (.dict body) ∧
    readCandidate "Gemini model stream did not finish successfully" body = .ok candidate ∧
      isStop candidate = true

/-- The loop gets through everything, and the last chunk that is not empty has finished. -/
def Told (json : PyJson) (uuids : Nat → Uuid) (datas : List PyStr) : Prop :=
  (∃ s, Gen.Consumes (step json uuids) .start datas s) ∧
    ∃ before after stop, datas = before ++ stop :: after ∧ StopChunk json stop ∧ ∀ d ∈ after, d = []

theorem catches_no_recursion (message : String) :
    (Exn.py .recursionError message).isOneOf classes = false := rfl

theorem tooDeep_assembled (id : Uuid) (texts : List PyStr) (calls : List ToolCall)
    (usage : Option Usage) :
    TooDeep (assembled json id texts calls usage) ↔ DeepCalls json texts calls :=
  (assembly_nonempty json id texts calls usage _).deep_iff

theorem tooDeep_result (id : Uuid) (uuids : Nat → Uuid) (body : JsonObject) :
    TooDeep (result json id uuids body) ↔ ∃ candidate parts calls usage,
      readCandidate "Gemini response did not finish successfully" body = .ok candidate ∧
        readParts (candidate.get "content") = .ok parts ∧
          parts.foldlM (readCall json uuids) [] = .ok calls ∧ readUsage body = .ok usage ∧
            DeepCalls json (parts.flatMap fun part => textOf (part.get "text")) calls := by
  have hno {α : Type} {x : Except Exn α} (h : Raises (PyJson.silent.Caught classes) x) :
      ¬TooDeep x := not_tooDeep_of_raises catches_no_recursion h
  have hcalls (parts : List JsonObject) : ¬TooDeep (parts.foldlM (readCall json uuids) []) :=
    hno (Raises.foldlM (fun calls part _ => raises_readCall json uuids calls part) _)
  have husage : ¬TooDeep (readUsage body) := not_tooDeep_of_provider (raises_tokenUsage _ _ _)
  rw [result, tooDeep_bind_of_not (hno (raises_readCandidate _ body))]
  constructor
  · rintro ⟨candidate, hcandidate, h⟩
    obtain ⟨parts, hparts, h⟩ := (tooDeep_bind_of_not (hno (raises_readParts _))).mp h
    obtain ⟨calls, hread, h⟩ := (tooDeep_bind_of_not (hcalls parts)).mp h
    obtain ⟨usage, hu, h⟩ := (tooDeep_bind_of_not husage).mp h
    exact ⟨candidate, parts, calls, usage, hcandidate, hparts, hread, hu,
      (tooDeep_assembled id _ calls usage).mp h⟩
  · rintro ⟨candidate, parts, calls, usage, hcandidate, hparts, hread, hu, h⟩
    refine ⟨candidate, hcandidate, ?_⟩
    refine (tooDeep_bind_of_not (hno (raises_readParts _))).mpr ⟨parts, hparts, ?_⟩
    refine (tooDeep_bind_of_not (hcalls parts)).mpr ⟨calls, hread, ?_⟩
    exact (tooDeep_bind_of_not husage).mpr ⟨usage, hu, (tooDeep_assembled id _ calls usage).mpr h⟩

theorem tooDeep_generate (id : Uuid) (uuids : Nat → Uuid) (bytes : List Byte) :
    TooDeep (generate json id uuids bytes) ↔ DeepBody json uuids bytes := by
  have hobject (raw : PyValue) : ¬TooDeep (object "response" raw) :=
    not_tooDeep_of_raises catches_no_recursion (raises_mapping type_mem _ raw)
  rw [generate, tooDeep_translate catches_no_recursion rfl, tooDeep_bind]
  constructor
  · rintro (h | ⟨raw, hraw, h⟩)
    · exact .body h
    · obtain ⟨body, hbody, h⟩ := (tooDeep_bind_of_not (hobject raw)).mp h
      obtain rfl := mapping_eq_ok.mp hbody
      obtain ⟨candidate, parts, calls, usage, hcandidate, hparts, hcalls, husage, hdeep⟩ :=
        (tooDeep_result id uuids body).mp h
      exact .calls body candidate parts calls usage hraw hcandidate hparts hcalls husage hdeep
  · rintro (h | ⟨body, candidate, parts, calls, usage, hraw, hcandidate, hparts, hcalls, husage,
      hdeep⟩)
    · exact Or.inl h
    · refine Or.inr ⟨_, hraw, (tooDeep_bind_of_not (hobject _)).mpr ⟨body, rfl, ?_⟩⟩
      exact (tooDeep_result id uuids body).mpr
        ⟨candidate, parts, calls, usage, hcandidate, hparts, hcalls, husage, hdeep⟩

/-! ## The stream -/

theorem readStream_eq (uuids : Nat → Uuid) (ending : Except Exn Unit) (datas : List PyStr)
    (s : StreamState) : (readStream json uuids ending datas s >>= fun s' => pure (s', false)) =
      Gen.consume (step json uuids) ending datas s := by
  induction datas generalizing s with
  | nil =>
    rw [readStream, Gen.consume, bind_assoc]
    rfl
  | cons data rest ih =>
    rw [readStream, Gen.consume, step]
    by_cases hempty : data = []
    · rw [if_pos hempty, if_pos hempty, pure_bind]
      exact ih s
    · rw [if_neg hempty, if_neg hempty, bind_assoc, bind_assoc]
      refine bind_congr fun s' => ?_
      rw [pure_bind]
      exact ih s'

theorem onlyDeltas_readPart (uuids : Nat → Uuid) (s : StreamState) (part : JsonObject) :
    OnlyDeltas (readPart json uuids s part) := by
  rw [readPart]
  refine (Gen.Yields.forM onlyDeltas_yieldText).bind fun _ => ?_
  exact (Gen.Yields.ofExcept _).bind fun calls => .pure _

theorem onlyDeltas_readEvent (uuids : Nat → Uuid) (s : StreamState) (data : PyStr) :
    OnlyDeltas (readEvent json uuids s data) := by
  rw [readEvent]
  refine (Gen.Yields.ofExcept _).bind fun value => ?_
  rw [readValue]
  refine (Gen.Yields.ofExcept _).bind fun body => ?_
  split
  · exact .raise _
  · refine (Gen.Yields.ofExcept _).bind fun candidate => ?_
    split
    · exact .raise _
    · refine (Gen.Yields.ofExcept _).bind fun parts => ?_
      refine (Gen.Yields.foldlM (fun s part => onlyDeltas_readPart uuids s part) _).bind
        fun s' => ?_
      exact (Gen.Yields.ofExcept _).bind fun usage => .pure _

theorem onlyDeltas_step (uuids : Nat → Uuid) (s : StreamState) (data : PyStr) :
    OnlyDeltas (step json uuids s data) := by
  rw [step]
  split
  · exact .pure _
  · exact (onlyDeltas_readEvent uuids s data).bind fun s' => .pure _

theorem tooDeep_step (uuids : Nat → Uuid) (s : StreamState) (data : PyStr) :
    TooDeep (step json uuids s data).ending ↔ data ≠ [] ∧ TooDeep (json.loads data) := by
  rw [step]
  by_cases hempty : data = []
  · rw [if_pos hempty]
    exact iff_of_false (not_tooDeep_ok _) fun h => h.1 hempty
  · have hvalue (value : PyValue) : ¬TooDeep (readValue json uuids s value).ending :=
      not_tooDeep_of_raises catches_no_recursion (raises_readValue json uuids s value)
    rw [if_neg hempty, tooDeep_gen_bind, readEvent, tooDeep_gen_bind]
    constructor
    · rintro ((h | ⟨value, -, h⟩) | ⟨s', -, h⟩)
      · exact ⟨hempty, h⟩
      · exact absurd h (hvalue value)
      · exact absurd h (not_tooDeep_ok _)
    · exact fun h => Or.inl (Or.inl h.2)

/-- The parts of a chunk leave alone whether it was the last one. -/
theorem completed_foldlM (uuids : Nat → Uuid) {parts : List JsonObject} {s s' : StreamState}
    (h : (parts.foldlM (readPart json uuids) s).ending = .ok s') : s'.completed = s.completed := by
  induction parts generalizing s with
  | nil =>
    cases h
    rfl
  | cons part parts ih =>
    rw [List.foldlM_cons] at h
    cases hpart : (readPart json uuids s part).ending with
    | error e =>
      rw [Gen.ending_bind_error hpart] at h
      cases h
    | ok s₁ =>
      rw [Gen.ending_bind_ok hpart] at h
      have hsame : s₁.completed = s.completed := by
        rw [readPart] at hpart
        obtain ⟨u, -, hpart⟩ := Gen.ending_bind_eq_ok hpart
        obtain ⟨calls, -, hpart⟩ := Gen.ending_bind_eq_ok hpart
        cases hpart
        rfl
      exact (ih h).trans hsame

/-- An item is empty and changes nothing, or it is a chunk that says whether it is the last. -/
theorem step_ok {uuids : Nat → Uuid} {s s' : StreamState} {data : PyStr} {stop : Bool}
    (h : (step json uuids s data).ending = .ok (s', stop)) :
    stop = false ∧ (data = [] ∧ s' = s ∨ (s'.completed = true → StopChunk json data)) := by
  rw [step] at h
  by_cases hempty : data = []
  · rw [if_pos hempty] at h
    cases h
    exact ⟨rfl, Or.inl ⟨hempty, rfl⟩⟩
  · rw [if_neg hempty] at h
    obtain ⟨s'', hread, h⟩ := Gen.ending_bind_eq_ok h
    cases h
    refine ⟨rfl, Or.inr fun hcompleted => ⟨hempty, ?_⟩⟩
    rw [readEvent] at hread
    obtain ⟨value, hloads, hvalue⟩ := Gen.ending_bind_eq_ok hread
    rw [readValue] at hvalue
    obtain ⟨body, hbody, hread⟩ := Gen.ending_bind_eq_ok hvalue
    rw [mapping_eq_ok.mp hbody] at hloads
    by_cases herror : body.contains "error" = true
    · rw [if_pos herror] at hread
      cases hread
    · rw [if_neg herror] at hread
      obtain ⟨candidate, hcandidate, hread⟩ := Gen.ending_bind_eq_ok hread
      by_cases hdone : s.completed = true
      · rw [if_pos hdone] at hread
        cases hread
      · rw [if_neg hdone] at hread
        obtain ⟨parts, -, hread⟩ := Gen.ending_bind_eq_ok hread
        obtain ⟨s₁, hparts, hread⟩ := Gen.ending_bind_eq_ok hread
        obtain ⟨usage, -, hread⟩ := Gen.ending_bind_eq_ok hread
        cases hread
        exact ⟨body, candidate, hloads, hcandidate, (completed_foldlM uuids hparts).symm.trans
          hcompleted⟩

/-- The loop is completed only by its last chunk. -/
theorem stop_of_consumes {uuids : Nat → Uuid} {s s' : StreamState} {datas : List PyStr}
    (h : Gen.Consumes (step json uuids) s datas s') (hcompleted : s'.completed = true) :
    (s.completed = true ∧ ∀ d ∈ datas, d = []) ∨
      ∃ before after stop, datas = before ++ stop :: after ∧ StopChunk json stop ∧
        ∀ d ∈ after, d = [] := by
  induction h with
  | nil s => exact Or.inl ⟨hcompleted, fun d hd => absurd hd List.not_mem_nil⟩
  | @cons s s₁ s₂ d ds hstep _ ih =>
    rcases ih hcompleted with ⟨hs₁, hempty⟩ | ⟨before, after, stop, rfl, hstop, hafter⟩
    · rcases (step_ok hstep).2 with ⟨hd, rfl⟩ | hd
      · refine Or.inl ⟨hs₁, fun x hx => ?_⟩
        rcases List.mem_cons.mp hx with rfl | hx
        · exact hd
        · exact hempty x hx
      · exact Or.inr ⟨[], ds, d, rfl, hd hs₁, hempty⟩
    · exact Or.inr ⟨d :: before, after, stop, rfl, hstop, hafter⟩

/-- What is made of the end of the loop. -/
def finish (json : PyJson) (id : Uuid) (next : StreamState × Bool) : Except Exn ModelResult :=
  if !next.1.completed then
    .error (.kit (.provider true) "Gemini model stream ended before completion")
  else assembled json id next.1.textChunks next.1.toolCalls next.1.usage

theorem stream_eq (id : Uuid) (uuids : Nat → Uuid) (datas : List PyStr) :
    stream json id uuids (dataSource datas) =
      (translated classes (requestFailure "Gemini model stream failed")
        (Gen.consume (step json uuids) (.ok ()) datas .start) >>= fun next =>
          concluded (finish json id next)) := by
  have htranslated (g : Gen Exn ModelStreamEvent StreamState) :
      translated classes (requestFailure "Gemini model stream failed")
        (g >>= fun s' => pure (s', false)) =
      (translated classes (requestFailure "Gemini model stream failed") g >>= fun s' =>
        pure (s', false)) := by
    obtain ⟨ys, r⟩ := g
    cases r with
    | error e => rfl
    | ok s => rfl
  rw [stream, ← readStream_eq, htranslated, bind_assoc, dataSource]
  refine bind_congr fun s => ?_
  rw [pure_bind]
  by_cases hcompleted : s.completed = true
  · have hfinish :
        finish json id (s, false) = assembled json id s.textChunks s.toolCalls s.usage := by
      rw [finish, hcompleted]
      rfl
    rw [hcompleted, hfinish]
    rfl
  · have hfinish : finish json id (s, false) =
        .error (.kit (.provider true) "Gemini model stream ended before completion") := by
      rw [finish, Bool.eq_false_iff.mpr hcompleted]
      rfl
    rw [Bool.eq_false_iff.mpr hcompleted, hfinish]
    rfl

/-- No item breaks the loop. -/
theorem loop_iff {uuids : Nat → Uuid} {datas : List PyStr} {s : StreamState} {stop : Bool} :
    (Gen.consume (step json uuids) (.ok ()) datas .start).ending = .ok (s, stop) ↔
      Gen.Consumes (step json uuids) .start datas s ∧ stop = false := by
  constructor
  · intro hloop
    rcases Gen.consume_cases (step json uuids) datas .start with
      ⟨s', hall⟩ | ⟨before, d, after, s₁, rfl, hbefore, ⟨s₂, hd⟩ | ⟨e, hd⟩⟩
    · have hend := (Gen.consume_of_all hall).symm.trans hloop
      cases hend
      exact ⟨hall, rfl⟩
    · cases (step_ok hd).1
    · have hend := (Gen.consume_of_error hbefore hd).symm.trans hloop
      cases hend
  · rintro ⟨hall, rfl⟩
    exact Gen.consume_of_all hall

theorem tooDeep_finish (id : Uuid) (next : StreamState × Bool) :
    TooDeep (finish json id next) ↔
      next.1.completed = true ∧ DeepCalls json next.1.textChunks next.1.toolCalls := by
  rw [finish]
  by_cases hcompleted : next.1.completed = true
  · rw [hcompleted]
    exact (tooDeep_assembled id _ _ _).trans (and_iff_right rfl).symm
  · rw [Bool.eq_false_iff.mpr hcompleted]
    exact iff_of_false (not_tooDeep_of_provider (.error rfl)) fun h => by cases h.1

theorem tooDeep_stream (id : Uuid) (uuids : Nat → Uuid) (datas : List PyStr) :
    TooDeep (stream json id uuids (dataSource datas)).ending ↔ DeepStream json uuids datas := by
  rw [stream_eq, tooDeep_gen_bind, translated, tooDeep_translate catches_no_recursion rfl,
    tooDeep_consume]
  simp only [mapError_eq_ok, tooDeep_concluded, tooDeep_finish, tooDeep_step]
  constructor
  · rintro (⟨before, data, after, s, hdatas, hbefore, hne, h⟩ | ⟨⟨s, stop⟩, hloop, hcompleted, h⟩)
    · exact .data before after data s hdatas hbefore hne h
    · exact .calls s (loop_iff.mp hloop).1 hcompleted h
  · rintro (⟨before, after, data, s, hdatas, hbefore, hne, h⟩ | ⟨s, hall, hcompleted, h⟩)
    · exact Or.inl ⟨before, data, after, s, hdatas, hbefore, hne, h⟩
    · exact Or.inr ⟨(s, false), loop_iff.mpr ⟨hall, rfl⟩, hcompleted, h⟩

/-- The plain call is safe, and so is the stream, unless something nests too deeply. -/
theorem safe_iff (id : Uuid) (uuids : Nat → Uuid) :
    (∀ bytes, SafeAnswer (generate json id uuids bytes) ↔ ¬DeepBody json uuids bytes) ∧
      ∀ datas, SafeStream (Told json uuids datas) (stream json id uuids (dataSource datas)) ↔
        ¬DeepStream json uuids datas := by
  refine ⟨fun bytes => ?_, fun datas => ?_⟩
  · rw [safeAnswer_iff (raises_generate id uuids bytes), tooDeep_generate]
  · have hsafe : Raises json.Safe (stream json id uuids (dataSource datas)).ending :=
      raises_stream uuids (.ok ()) id
    rw [← tooDeep_stream id uuids datas]
    rw [stream_eq] at hsafe ⊢
    refine safeStream_iff ?_ hsafe ?_
    · exact Gen.Yields.consume (fun s d => onlyDeltas_step uuids s d) datas .start
    · rintro ⟨s, stop⟩ r hloop hresult
      have hcompleted : s.completed = true := by
        by_contra hno
        rw [finish, Bool.eq_false_iff.mpr hno] at hresult
        cases hresult
      have hall : Gen.Consumes (step json uuids) .start datas s :=
        (loop_iff.mp (mapError_eq_ok.mp hloop)).1
      rcases stop_of_consumes hall hcompleted with ⟨hstart, -⟩ | hstop
      · cases hstart
      · exact ⟨⟨s, hall⟩, hstop⟩

end Gemini

-- ---------------------------------------------------------------------------
-- The three adapters
-- ---------------------------------------------------------------------------

inductive Adapter
  | openAI
  | anthropic
  | gemini
  deriving DecidableEq

namespace Adapter

/-- `generate`, given the body of a response. -/
def generate (json : PyJson) (id : Uuid) (uuids : Nat → Uuid) :
    Adapter → List Byte → Except Exn ModelResult
  | openAI => OpenAI.generate json id
  | anthropic => Anthropic.generate json id
  | gemini => Gemini.generate json id uuids

/-- `stream`, given the data of the events. -/
def stream (json : PyJson) (id : Uuid) (uuids : Nat → Uuid) :
    Adapter → Gen Exn PyStr Unit → Gen Exn ModelStreamEvent Unit
  | openAI => OpenAI.stream json id
  | anthropic => Anthropic.stream json id
  | gemini => Gemini.stream json id uuids

/-- The body makes the adapter decode or encode something that nests too deeply. -/
def DeepBody (json : PyJson) (uuids : Nat → Uuid) : Adapter → List Byte → Prop
  | openAI => OpenAI.DeepBody json
  | anthropic => Anthropic.DeepBody json
  | gemini => Gemini.DeepBody json uuids

def DeepStream (json : PyJson) (uuids : Nat → Uuid) : Adapter → List PyStr → Prop
  | openAI => OpenAI.DeepStream json
  | anthropic => Anthropic.DeepStream json
  | gemini => Gemini.DeepStream json uuids

/-- The provider tells its success. -/
def Told (json : PyJson) (uuids : Nat → Uuid) : Adapter → List PyStr → Prop
  | openAI => OpenAI.Told json
  | anthropic => Anthropic.Told json
  | gemini => Gemini.Told json uuids

/-- Whatever a provider answers, a call is safe exactly if nothing that it gets to decode or to
encode nests too deeply. Both modes, all three adapters, any `json`: each conjunct is the `safe_iff`
of the adapter. -/
theorem safe_iff_not_deep (json : PyJson) (id : Uuid) (uuids : Nat → Uuid) (adapter : Adapter) :
    (∀ bytes, SafeAnswer (adapter.generate json id uuids bytes) ↔
        ¬adapter.DeepBody json uuids bytes) ∧
      ∀ datas, SafeStream (adapter.Told json uuids datas)
          (adapter.stream json id uuids (dataSource datas)) ↔
        ¬adapter.DeepStream json uuids datas := by
  cases adapter with
  | openAI => exact OpenAI.safe_iff id
  | anthropic => exact Anthropic.safe_iff id
  | gemini => exact Gemini.safe_iff id uuids

/-- 100,000 opening brackets. -/
def brackets : List Byte := List.replicate 100000 91

/-- A reader that gives up on them, and that knows nothing else. -/
def shallowReader : PyJson where
  loads _ := .error (.py .valueError "Expecting value")
  loadsBytes bytes := if bytes = brackets
    then .error (.py .recursionError "maximum recursion depth exceeded")
    else .error (.py .valueError "Expecting value")
  dumps _ := .ok []
  walks _ := true
  dumpsSorted := sortedText
  raises text e h := by
    cases h
    rfl
  raisesBytes bytes e h := by
    split at h
    · cases h
      rfl
    · cases h
      rfl
  raisesDumps := PyJson.silent.raisesDumps
  raisesSorted := isJsonError_sortedText
  text_of_sorted := sortedText_eq_ok

theorem loadsBytes_brackets : shallowReader.loadsBytes brackets =
    .error (.py .recursionError "maximum recursion depth exceeded") := by
  simp only [shallowReader, if_true]

theorem brackets_escape : ¬∀ (json : PyJson) (id : Uuid) (uuids : Nat → Uuid) (adapter : Adapter),
    (∀ bytes, SafeAnswer (adapter.generate json id uuids bytes)) ∧
      ∀ datas, SafeStream (adapter.Told json uuids datas)
        (adapter.stream json id uuids (dataSource datas)) := by
  intro h
  have hsafe : SafeAnswer (OpenAI.generate shallowReader 0 brackets) :=
    (h shallowReader 0 (fun n => n) .openAI).1 brackets
  refine ((OpenAI.safe_iff 0).1 brackets).mp hsafe (.body ?_)
  exact ⟨_, loadsBytes_brackets, rfl⟩

end Adapter

end AgentRuntimeKit
