import AgentRuntimeKit.Clients.OpenAIChunks

/-!
# Streamed chat completions

`generate` on the body of a completion and `stream` on any rendering of it in chunks agree, unless
the completion is one of those on which they part.

A rendering cuts the text and the arguments of the calls into any pieces, in chunks that interleave
as they like; the pieces of one call keep their order, and each chunk may be any JSON text of it.

The plain call decodes the arguments of a call as they are; the stream reads `{}` where they are
empty, and it checks the usage and the text before it looks at any call. So there are three ways to
part (`Completion.Parts`):

* `emptyArguments` — a call has empty arguments, and with `{}` for them the calls are read: the
  plain call raises a `ProviderError`, and the stream goes on to a result or, where the arguments
  nest too deeply to be compared, to a `RecursionError`;
* `laterDeep` — empty arguments stop the plain call before arguments that nest too deeply, which the
  stream reaches;
* `deep`      — the usage or the text is wrong, which the stream sees before such arguments.

The theorems here assume of `json`, which is a parameter, that the empty text is no JSON, and that
the error it raises for it is no `RecursionError` (`hempty`, `hvalueError`); the body and each chunk
are read as the objects they are texts of.

`readWith` reads the calls with a text in place of empty arguments, so that the modes are two
readings of one list (`readWith_eq_or`). The proof splits by what the stream checks first: the
finish reason, then usage and text, then whether the readings are the same.

## Results

* `agrees_iff_of_unfinished`, `agrees_iff_of_unsound`, `agrees_of_same_reading`,
  `agrees_iff_of_first` — the four cases.
* `stream_agrees_iff` — the modes agree iff the completion is not one of those on which they part.
-/

namespace AgentRuntimeKit

open Lib Utf8

namespace OpenAI

variable {json : PyJson} {c : Completion}

/-- The completions on which the modes part. -/
inductive Completion.Parts (json : PyJson) (c : Completion) : Prop
  | emptyArguments (calls : List ToolCall) :
    isNoneOr finishReasons c.finish = true → c.Sound → (∃ call ∈ c.calls, call.arguments = []) →
      c.readWith json (PyStr.ofString "\x7b\x7d") = .ok calls →
        Assembles json (textOf (optional c.content)) calls ∨
          DeepCalls json (textOf (optional c.content)) calls → Parts json c
  | laterDeep :
    isNoneOr finishReasons c.finish = true → c.Sound → ¬TooDeep (c.readWith json []) →
      TooDeep (c.readWith json (PyStr.ofString "\x7b\x7d")) → Parts json c
  | deep :
    isNoneOr finishReasons c.finish = true → ¬c.Sound → TooDeep (c.readWith json []) → Parts json c

-- ---------------------------------------------------------------------------
-- The two readings of the calls
-- ---------------------------------------------------------------------------

theorem raises_readWith {classes : List PyClass} (hvalue : PyClass.valueError ∈ classes)
    (empty : PyStr) (c : Completion) : Raises (json.Caught classes) (c.readWith json empty) :=
  Raises.mapM fun _ _ => raises_decodeCall hvalue _ (.ok _)

/-- The readings differ only in what they make of the first call with empty arguments. -/
theorem readWith_eq_or {e : Exn} (hempty : json.loads [] = .error e) (empty : PyStr) :
    c.readWith json [] = c.readWith json empty ∨ c.readWith json [] = .error e := by
  refine mapM_eq_or_error fun call _ => ?_
  by_cases hcall : call.arguments = []
  · rw [if_pos hcall, decodeCall, bind_of_error hempty]
    exact Or.inr rfl
  · rw [if_neg hcall, if_neg hcall]
    exact Or.inl rfl

theorem readWith_of_nonempty (hcalls : ∀ call ∈ c.calls, call.arguments ≠ []) (s t : PyStr) :
    c.readWith json s = c.readWith json t :=
  mapM_congr_of_mem fun call hcall => by rw [if_neg (hcalls call hcall), if_neg (hcalls call hcall)]

theorem nonempty_of_readWith {e : Exn} (hempty : json.loads [] = .error e) {calls : List ToolCall}
    (h : c.readWith json [] = .ok calls) : ∀ call ∈ c.calls, call.arguments ≠ [] := by
  intro call hcall hnil
  obtain ⟨b, hb⟩ := ok_of_mapM h hcall
  rw [if_pos hnil, decodeCall, bind_of_error hempty] at hb
  cases hb

theorem flatten_textOf (c : Completion) :
    (textOf (optional c.content)).flatten = c.content.getD [] := by
  cases c.content with
  | none => rfl
  | some text =>
    by_cases hnil : text = []
    · rw [hnil]
      rfl
    · rw [optional, textOf, if_neg hnil, List.flatten_cons, List.flatten_nil, List.append_nil]
      rfl

/-! ## The plain call, from what it reads -/

section Outcome

variable {bytes : List Byte} {body choice message : JsonObject}
  (hbody : json.loadsBytes bytes = .ok (.dict body)) (h : CompletionJson c body choice message)
  (id : Uuid) (hfinish : isNoneOr finishReasons c.finish = true)
include hbody h hfinish

/-- A call that cannot be read ends the plain call. -/
theorem generate_of_read_error {e : Exn} (he : c.readWith json [] = .error e) :
    (∃ e', generate json id bytes = .error e') ∧
      (Rejects (generate json id bytes) ↔ ¬TooDeep (c.readWith json [])) := by
  have hraises : Raises (json.Caught [.keyError, .typeError, .valueError]) (c.readWith json []) :=
    raises_readWith (by decide) [] c
  have hrejects : Rejects ((c.readWith json []).mapError (translate _ invalidCall)) ↔ _ :=
    rejects_translate hraises rfl fun _ => rfl
  have hgenerate : generate json id bytes =
      .error (translate [.keyError, .typeError, .valueError] invalidCall e) := by
    rw [generate_of_read hbody h id hfinish, he]
    rfl
  rw [he] at hrejects ⊢
  rw [hgenerate, rejects_error, ← hrejects.trans (and_iff_right ⟨e, rfl⟩)]
  exact ⟨⟨_, rfl⟩, (rejects_error _).symm⟩

theorem generate_of_calls {calls : List ToolCall} (hcalls : c.readWith json [] = .ok calls)
    {u : Option Usage} (husage : readUsage c.usage = .ok u) :
    Assembly json (textOf (optional c.content)) calls u (generate json id bytes) := by
  have hgenerate := generate_of_read hbody h id hfinish
  rw [hcalls, husage] at hgenerate
  rw [hgenerate]
  exact assembly_nonempty json id _ calls u "Model returned an empty assistant message"

theorem generate_of_unsound {calls : List ToolCall} (hcalls : c.readWith json [] = .ok calls)
    (hsound : ¬c.Sound) : Rejects (generate json id bytes) := by
  cases husage : readUsage c.usage with
  | error e =>
    have hprovider : e.isProvider = true := raises_tokenUsage _ _ _ e husage
    have hgenerate := generate_of_read hbody h id hfinish
    rw [hcalls, husage] at hgenerate
    rw [hgenerate]
    show Rejects (if _ ∧ _ then Except.error _ else Except.error e)
    split
    · exact ⟨_, rfl, rfl⟩
    · exact ⟨e, rfl, hprovider⟩
  | ok u =>
    have hassembly := generate_of_calls hbody h id hfinish hcalls husage
    refine hassembly.rejects_of_not_fits fun hfits => hsound ⟨⟨u, husage⟩, ?_⟩
    rw [← flatten_textOf]
    exact hfits.encodable

end Outcome

/-! ## The stream, from what it reads -/

section Streamed

variable {source : Gen Exn PyStr Unit} {chunks : List Chunk} {datas rest : List PyStr}
  (hdatas : List.Forall₂ (ChunkText json) chunks datas)
  (hsource : source.yields = datas ++ PyStr.ofString "[DONE]" :: rest) (h : Renders c chunks)
  (id : Uuid) (hfinish : isNoneOr finishReasons c.finish = true) {u : Option Usage}
  (husage : readUsage c.usage = .ok u) (htext : PyStr.encodable (c.content.getD []) = true)
include hdatas hsource h hfinish husage htext

theorem stream_of_read_error {e : Exn}
    (he : c.readWith json (PyStr.ofString "{}") = .error e) :
    (∃ e', (stream json id source).ending = .error e') ∧
      (Rejects (stream json id source).ending ↔
        ¬TooDeep (c.readWith json (PyStr.ofString "{}"))) := by
  have hraises : Raises (json.Caught [.typeError, .valueError])
      (c.readWith json (PyStr.ofString "{}")) := raises_readWith (by decide) _ c
  have hrejects : Rejects ((c.readWith json (PyStr.ofString "{}")).mapError
      (translate _ (rejected "Model returned an invalid streamed tool call"))) ↔ _ :=
    rejects_translate hraises rfl fun _ => rfl
  obtain ⟨y, hstream, hy⟩ := stream_of_accepted hdatas hsource h id hfinish husage htext
  rw [he] at hy hrejects ⊢
  rw [hstream, rejects_concluded, hy, ← hrejects.trans (and_iff_right ⟨e, rfl⟩)]
  exact ⟨⟨_, rfl⟩, Iff.trans (rejects_error _) (rejects_error _).symm⟩

theorem stream_of_calls {calls : List ToolCall}
    (hcalls : c.readWith json (PyStr.ofString "{}") = .ok calls) :
    ∃ y, stream json id source =
        ⟨(chunks.flatMap Chunk.texts).map .textDelta ++ (concluded y).yields,
          (concluded y).ending⟩ ∧
      Assembly json (chunks.flatMap Chunk.texts) calls u y := by
  obtain ⟨y, hstream, hy⟩ := stream_of_accepted hdatas hsource h id hfinish husage htext
  refine ⟨y, hstream, ?_⟩
  rw [hcalls] at hy
  rw [hy]
  exact assembly_nonempty json id _ calls u "Model returned an empty streamed assistant message"

end Streamed

/-- The chunks cut the text of the body. -/
theorem sameText_of_renders {chunks : List Chunk} (h : Renders c chunks) :
    SameText (textOf (optional c.content)) (chunks.flatMap Chunk.texts) := by
  have hchunks : ∀ p ∈ chunks.flatMap Chunk.texts, p ≠ [] := by
    intro p hp
    obtain ⟨k, -, hmem⟩ := List.mem_flatMap.mp hp
    exact of_decide_eq_true (List.mem_filter.mp hmem).2
  have hplain : ∀ p ∈ textOf (optional c.content), p ≠ [] := by
    intro p hp
    rw [textOf_optional] at hp
    exact of_decide_eq_true (List.mem_filter.mp hp).2
  exact .of_flatten hplain hchunks (h.text.trans (flatten_textOf c).symm)

/-! ## The comparison -/

section Comparison

variable {bytes : List Byte} {body choice message : JsonObject} {e : Exn}
  (hempty : json.loads [] = .error e) (hvalueError : e.isRecursion = false)
  (hbody : json.loadsBytes bytes = .ok (.dict body)) (h : CompletionJson c body choice message)
  {source : Gen Exn PyStr Unit} {chunks : List Chunk} {datas rest : List PyStr}
  (hrenders : Renders c chunks) (hdatas : List.Forall₂ (ChunkText json) chunks datas)
  (hsource : source.yields = datas ++ PyStr.ofString "[DONE]" :: rest) (id id' : Uuid)
include hbody h hrenders hdatas hsource

/-- Both modes reject the finish reason. -/
theorem agrees_iff_of_unfinished (hfinish : ¬isNoneOr finishReasons c.finish = true) :
    StreamAgrees (generate json id bytes) (stream json id' source) ↔ ¬c.Parts json := by
  have hplain := generate_of_finish hbody h id (Bool.eq_false_iff.mpr hfinish)
  have hstream := stream_of_not_accepted hdatas hsource hrenders id' fun hok => hfinish hok.1
  refine iff_of_true (.of_rejects hplain hstream) ?_
  rintro (⟨_, hf, -⟩ | ⟨hf, -⟩ | ⟨hf, -⟩)
  · exact hfinish hf
  · exact hfinish hf
  · exact hfinish hf

/-- The stream rejects the usage or the text before it looks at the calls. -/
theorem agrees_iff_of_unsound (hfinish : isNoneOr finishReasons c.finish = true)
    (hsound : ¬c.Sound) :
    StreamAgrees (generate json id bytes) (stream json id' source) ↔ ¬c.Parts json := by
  have hstream := stream_of_not_accepted hdatas hsource hrenders id' fun hok => hsound hok.2
  cases hread : c.readWith json [] with
  | ok calls =>
    refine iff_of_true (.of_rejects (generate_of_unsound hbody h id hfinish hread hsound)
      hstream) ?_
    rintro (⟨_, -, hs, -⟩ | ⟨-, hs, -⟩ | ⟨-, -, hdeep⟩)
    · exact hsound hs
    · exact hsound hs
    · obtain ⟨e', he', -⟩ := hdeep
      rw [hread] at he'
      cases he'
  | error e' =>
    obtain ⟨⟨e₁, hplain⟩, hrejects⟩ := generate_of_read_error hbody h id hfinish hread
    have hstream' := hstream
    obtain ⟨e₂, hending, -⟩ := hstream'
    rw [StreamAgrees.iff_of_error hplain hending, hrejects, iff_true_left hstream, not_iff_not]
    constructor
    · exact fun hdeep => .deep hfinish hsound hdeep
    · rintro (⟨_, -, hs, -⟩ | ⟨-, hs, -⟩ | ⟨-, -, hdeep⟩)
      · exact absurd hs hsound
      · exact absurd hs hsound
      · exact hdeep

/-- The calls read alike. -/
theorem agrees_of_same_reading (hfinish : isNoneOr finishReasons c.finish = true)
    (hsound : c.Sound)
    (hsame : c.readWith json [] = c.readWith json (PyStr.ofString "\x7b\x7d")) :
    StreamAgrees (generate json id bytes) (stream json id' source) := by
  obtain ⟨u, husage⟩ := hsound.usage
  cases hread : c.readWith json [] with
  | ok calls =>
    have hx := generate_of_calls hbody h id hfinish hread husage
    obtain ⟨y, hstream, hy⟩ :=
      stream_of_calls hdatas hsource hrenders id' hfinish husage hsound.text (hsame ▸ hread)
    rw [hstream]
    exact .of_assembly hx hy (sameText_of_renders hrenders)
  | error e' =>
    obtain ⟨⟨e₁, hplain⟩, hrejects⟩ := generate_of_read_error hbody h id hfinish hread
    obtain ⟨⟨e₂, hending⟩, hrejects'⟩ :=
      stream_of_read_error hdatas hsource hrenders id' hfinish husage hsound.text (hsame ▸ hread)
    rw [StreamAgrees.iff_of_error hplain hending, hrejects, hrejects', hsame]

omit hbody h hrenders hdatas hsource in
include hempty in
theorem not_parts_of_same_reading (hsound : c.Sound)
    (hsame : c.readWith json [] = c.readWith json (PyStr.ofString "\x7b\x7d")) :
    ¬c.Parts json := by
  rintro (⟨calls, -, -, ⟨call, hcall, hnil⟩, hcalls, -⟩ | ⟨-, -, hno, hdeep⟩ | ⟨-, hno, -⟩)
  · rw [← hsame] at hcalls
    exact nonempty_of_readWith hempty hcalls call hcall hnil
  · rw [hsame] at hno
    exact hno hdeep
  · exact hno hsound

include hvalueError in
/-- The plain call rejects empty arguments, and the stream goes on. -/
theorem agrees_iff_of_first (hfinish : isNoneOr finishReasons c.finish = true) (hsound : c.Sound)
    (hfirst : c.readWith json [] = .error e) :
    StreamAgrees (generate json id bytes) (stream json id' source) ↔ ¬c.Parts json := by
  obtain ⟨u, husage⟩ := hsound.usage
  obtain ⟨⟨e₁, hplain⟩, hrejects⟩ := generate_of_read_error hbody h id hfinish hfirst
  have hnotDeep : ¬TooDeep (c.readWith json []) := by
    rw [hfirst, tooDeep_error, hvalueError]
    exact Bool.false_ne_true
  have hplain_rejects := hrejects.mpr hnotDeep
  cases hread : c.readWith json (PyStr.ofString "\x7b\x7d") with
  | ok calls =>
    obtain ⟨y, hstream, hy⟩ :=
      stream_of_calls hdatas hsource hrenders id' hfinish husage hsound.text hread
    have hsame := sameText_of_renders hrenders
    have hassembles := assembles_congr json hsame calls
    have hdeep := deepCalls_congr json hsame calls
    by_cases hcalls : Assembles json (textOf (optional c.content)) calls ∨
        DeepCalls json (textOf (optional c.content)) calls
    · -- the stream goes on to a result, or to a `RecursionError`
      have hnil : ∃ call ∈ c.calls, call.arguments = [] := by
        by_contra hnone
        have hsame : c.readWith json [] = c.readWith json (PyStr.ofString "{}") :=
          readWith_of_nonempty (fun call hcall hnil => hnone ⟨call, hcall, hnil⟩) _ _
        rw [hfirst, hread] at hsame
        cases hsame
      refine iff_of_false (fun hagrees => ?_) fun hno =>
        hno (.emptyArguments calls hfinish hsound hnil hread hcalls)
      have hstream_rejects := hagrees.rejects.mpr hplain_rejects
      rw [hstream, rejects_concluded, hy.rejects_iff, hassembles, hdeep] at hstream_rejects
      exact hcalls.elim hstream_rejects.1 hstream_rejects.2
    · have hstream_rejects : Rejects (stream json id' source).ending := by
        rw [hstream, rejects_concluded, hy.rejects_iff, hassembles, hdeep]
        exact not_or.mp hcalls
      refine iff_of_true (.of_rejects hplain_rejects hstream_rejects) ?_
      rintro (⟨calls', -, -, -, hcalls', hassembles'⟩ | ⟨-, -, -, hdeep⟩ | ⟨-, hno, -⟩)
      · rw [hread] at hcalls'
        rw [Except.ok.inj hcalls'] at hcalls
        exact hcalls hassembles'
      · obtain ⟨e', he', -⟩ := hdeep
        rw [hread] at he'
        cases he'
      · exact hno hsound
  | error e' =>
    obtain ⟨⟨e₂, hending⟩, hrejects'⟩ :=
      stream_of_read_error hdatas hsource hrenders id' hfinish husage hsound.text hread
    rw [StreamAgrees.iff_of_error hplain hending, iff_true_right hplain_rejects, hrejects',
      not_iff_not]
    constructor
    · exact fun hdeep => .laterDeep hfinish hsound hnotDeep hdeep
    · rintro (⟨calls', -, -, -, hcalls', -⟩ | ⟨-, -, -, hdeep⟩ | ⟨-, hno, -⟩)
      · rw [hread] at hcalls'
        cases hcalls'
      · exact hdeep
      · exact absurd hsound hno

end Comparison

/-- The modes agree on every rendering of a completion exactly if it is not one of those on which
they part. The rendering does not matter: `Completion.Parts` is about the completion and `json`
only. -/
theorem stream_agrees_iff {bytes : List Byte} {body choice message : JsonObject} {e : Exn}
    (hempty : json.loads [] = .error e) (hvalueError : e.isRecursion = false)
    (hbody : json.loadsBytes bytes = .ok (.dict body)) (h : CompletionJson c body choice message)
    {source : Gen Exn PyStr Unit} {chunks : List Chunk} {datas rest : List PyStr}
    (hrenders : Renders c chunks) (hdatas : List.Forall₂ (ChunkText json) chunks datas)
    (hsource : source.yields = datas ++ PyStr.ofString "[DONE]" :: rest) (id id' : Uuid) :
    StreamAgrees (generate json id bytes) (stream json id' source) ↔ ¬c.Parts json := by
  by_cases hfinish : isNoneOr finishReasons c.finish = true
  · by_cases hsound : c.Sound
    · rcases readWith_eq_or (c := c) hempty (PyStr.ofString "\x7b\x7d") with hsame | hfirst
      · exact iff_of_true
          (agrees_of_same_reading hbody h hrenders hdatas hsource id id' hfinish hsound hsame)
          (not_parts_of_same_reading hempty hsound hsame)
      · exact agrees_iff_of_first hvalueError hbody h hrenders hdatas hsource id id' hfinish
          hsound hfirst
    · exact agrees_iff_of_unsound hbody h hrenders hdatas hsource id id' hfinish hsound
  · exact agrees_iff_of_unfinished hbody h hrenders hdatas hsource id id' hfinish

-- ---------------------------------------------------------------------------
-- Two completions
-- ---------------------------------------------------------------------------

namespace Sample

def callJson (call : ToolChunk) : JsonObject :=
  [(PyValue.key "id", .str call.id),
    (PyValue.key "function", .dict [(PyValue.key "name", .str call.name),
      (PyValue.key "arguments", .str call.arguments)])]

def message (c : Completion) : JsonObject :=
  [(PyValue.key "content", optional c.content),
    (PyValue.key "tool_calls", .list (c.calls.map fun call => .dict (callJson call)))]

def choice (c : Completion) : JsonObject :=
  [(PyValue.key "finish_reason", c.finish), (PyValue.key "message", .dict (message c))]

def body (c : Completion) : JsonObject :=
  [(PyValue.key "choices", .list [.dict (choice c)]), (PyValue.key "usage", c.usage)]

theorem callsJson (calls : List ToolChunk) :
    List.Forall₂ CallJson calls (calls.map fun call => .dict (callJson call)) :=
  List.forall₂_map_right_iff.mpr (List.forall₂_same.mpr fun _ _ => ⟨_, _, rfl, rfl, rfl, rfl⟩)

theorem completionJson (c : Completion) : CompletionJson c (body c) (choice c) (message c) where
  choices := rfl
  usage := rfl
  index := rfl
  finish := rfl
  content := rfl
  calls := .list _ (callsJson c.calls)
  message := rfl

def fragmentJson (f : Fragment) : JsonObject :=
  [(PyValue.key "index", .int f.index), (PyValue.key "id", optional f.id),
    (PyValue.key "function", .dict [(PyValue.key "name", optional f.name),
      (PyValue.key "arguments", optional f.arguments)])]

def deltaJson (d : Delta) : JsonObject :=
  [(PyValue.key "content", optional d.content),
    (PyValue.key "tool_calls", .list (d.fragments.map fun f => .dict (fragmentJson f)))]

/-- The event of a chunk; one without a delta has no choices. -/
def event (k : Chunk) : JsonObject :=
  match k.delta with
  | none => [(PyValue.key "choices", .list []), (PyValue.key "usage", k.usage)]
  | some d => [(PyValue.key "choices", .list [.dict [(PyValue.key "finish_reason", d.finish),
      (PyValue.key "delta", .dict (deltaJson d))]]), (PyValue.key "usage", k.usage)]

theorem fragmentsJson (fs : List Fragment) :
    List.Forall₂ FragmentJson fs (fs.map fun f => .dict (fragmentJson f)) :=
  List.forall₂_map_right_iff.mpr (List.forall₂_same.mpr fun _ _ =>
    .function _ _ rfl rfl rfl rfl rfl)

theorem chunkJson (k : Chunk) : ChunkJson k (.dict (event k)) := by
  obtain ⟨usage, delta⟩ := k
  cases delta with
  | none => exact .usage _ rfl rfl rfl rfl
  | some d =>
    have hfragments : FragmentsJson d.fragments ((deltaJson d).getD "tool_calls" (.list [])) :=
      .list _ (fragmentsJson d.fragments)
    exact .delta _ _ (deltaJson d) d rfl rfl rfl rfl ⟨rfl, rfl, rfl, hfragments, rfl⟩

def bytes (c : Completion) : List Byte := Utf8.encode ((PyValue.dict (body c)).dumps (.plain true))

def data (k : Chunk) : PyStr := (PyValue.dict (event k)).dumps (.plain true)

def source (chunks : List Chunk) : Gen Exn PyStr Unit :=
  ⟨chunks.map data ++ [PyStr.ofString "[DONE]"], .ok ()⟩

/-- `json`, on the texts of a completion, of its chunks and of some arguments. -/
def reader (c : Completion) (chunks : List Chunk) (arguments : List PyValue) : PyJson :=
  Sample.readerOf (.dict (body c) :: chunks.map (fun k => .dict (event k)) ++ arguments)

/-- A text, a call without parameters and a call with one. -/
def mixed : Completion where
  content := some (PyStr.ofString "look")
  calls := [⟨PyStr.ofString "x", PyStr.ofString "list", PyStr.ofString "\x7b\x7d"⟩,
    ⟨PyStr.ofString "y", PyStr.ofString "find", PyStr.ofString "\x7b\"q\": 1\x7d"⟩]
  usage := .dict [(PyValue.key "prompt_tokens", .int 3), (PyValue.key "completion_tokens", .int 5)]
  finish := .text "tool_calls"

def fragment (index : Nat) (announced : Option (String × String)) (arguments : String) : Fragment :=
  ⟨index, announced.map fun a => PyStr.ofString a.1, announced.map fun a => PyStr.ofString a.2,
    some (PyStr.ofString arguments)⟩

/-- Both calls are cut in two, and their pieces lie between those of the text. -/
def mixedChunks : List Chunk :=
  [⟨.none, some ⟨some (PyStr.ofString "lo"), [fragment 0 (some ("x", "list")) "\x7b"], .none⟩⟩,
    ⟨.none, some ⟨none, [fragment 1 (some ("y", "find")) "\x7b\"q\""], .none⟩⟩,
    ⟨.none, some ⟨some (PyStr.ofString "ok"), [fragment 1 none ": 1\x7d", fragment 0 none "\x7d"],
      .none⟩⟩,
    ⟨.none, some ⟨none, [], .text "tool_calls"⟩⟩,
    ⟨mixed.usage, none⟩]

def mixedReader : PyJson :=
  reader mixed mixedChunks [.dict [], .dict [(PyValue.key "q", .int 1)]]

theorem renders_mixed : Renders mixed mixedChunks where
  text := rfl
  announced i := by
    have hbelow : ∀ f ∈ mixedChunks.flatMap Chunk.fragments, f.index < 2 := by decide
    constructor
    · rintro ⟨f, hf, rfl⟩
      exact hbelow f hf
    · intro hi
      have hcases : i = 0 ∨ i = 1 := by
        have hlt : i < 2 := hi
        omega
      rcases hcases with rfl | rfl
      · exact ⟨fragment 0 (some ("x", "list")) "\x7b", List.mem_cons_self, rfl⟩
      · exact ⟨fragment 1 (some ("y", "find")) "\x7b\"q\"",
          List.mem_cons_of_mem _ List.mem_cons_self, rfl⟩
  calls i call h := by
    match i, h with
    | 0, h =>
      rw [← Option.some.inj h]
      rfl
    | 1, h =>
      rw [← Option.some.inj h]
      rfl
    | _ + 2, h => cases h
  usage := ⟨by simp [mixedChunks, mixed], Or.inr ⟨⟨mixed.usage, none⟩, by simp [mixedChunks], rfl⟩⟩
  finish := ⟨by simp [mixedChunks, mixed, Chunk.finish],
    Or.inr ⟨⟨.none, some ⟨none, [], .text "tool_calls"⟩⟩, by simp [mixedChunks], rfl⟩⟩

/-- A completion that is one call with empty arguments, and the chunk that renders it. -/
def bare : Completion :=
  ⟨none, [⟨PyStr.ofString "call", PyStr.ofString "search", []⟩], .none, .none⟩

def bareChunk : Chunk := ⟨.none, some ⟨none, [fragment 0 (some ("call", "search")) ""], .none⟩⟩

def bareReader : PyJson := reader bare [bareChunk] [.dict []]

theorem renders_bare : Renders bare [bareChunk] where
  text := rfl
  announced i := by
    constructor
    · rintro ⟨f, hf, rfl⟩
      rw [List.mem_singleton.mp hf]
      exact Nat.zero_lt_one
    · intro hi
      have hzero : i = 0 := Nat.lt_one_iff.mp hi
      exact ⟨_, List.mem_singleton.mpr rfl, hzero.symm⟩
  calls i expected h := by
    match i, h with
    | 0, h =>
      rw [← Option.some.inj h]
      rfl
    | _ + 1, h => cases h
  usage := ⟨fun k hk => Or.inl (by rw [List.mem_singleton.mp hk]; rfl), Or.inl rfl⟩
  finish := ⟨fun k hk => Or.inl (by rw [List.mem_singleton.mp hk]; rfl), Or.inl rfl⟩

end Sample

set_option maxRecDepth 16000 in
/-- The modes agree on a text and two calls whose pieces interleave, and there is a result. -/
theorem stream_agrees_on_mixed :
    (generate Sample.mixedReader 1 (Sample.bytes Sample.mixed)).isOk = true ∧
      StreamAgrees (generate Sample.mixedReader 1 (Sample.bytes Sample.mixed))
        (stream Sample.mixedReader 2 (Sample.source Sample.mixedChunks)) := by
  have hempty : Sample.mixedReader.loads [] = .error (.py .valueError "Expecting value") := rfl
  have hbody : Sample.mixedReader.loadsBytes (Sample.bytes Sample.mixed) =
      .ok (.dict (Sample.body Sample.mixed)) := rfl
  have htext {k : Chunk} (hk : k ∈ Sample.mixedChunks) :
      ChunkText Sample.mixedReader k (Sample.data k) := by
    simp only [Sample.mixedChunks, List.mem_cons, List.not_mem_nil, or_false] at hk
    rcases hk with rfl | rfl | rfl | rfl | rfl
    all_goals exact ⟨by decide, by decide, _, rfl, Sample.chunkJson _⟩
  have hdatas : List.Forall₂ (ChunkText Sample.mixedReader) Sample.mixedChunks
      (Sample.mixedChunks.map Sample.data) :=
    List.forall₂_map_right_iff.mpr (List.forall₂_same.mpr fun k hk => htext hk)
  have hsource : (Sample.source Sample.mixedChunks).yields =
      Sample.mixedChunks.map Sample.data ++ PyStr.ofString "[DONE]" :: [] := rfl
  have hread (t : PyStr) : (Sample.mixed.readWith Sample.mixedReader t).isOk = true := rfl
  have hshallow (t : PyStr) : ¬TooDeep (Sample.mixed.readWith Sample.mixedReader t) := by
    rintro ⟨e, he, -⟩
    have hok := hread t
    rw [he] at hok
    cases hok
  refine ⟨rfl, (stream_agrees_iff hempty rfl hbody (Sample.completionJson _) Sample.renders_mixed
    hdatas hsource 1 2).mpr ?_⟩
  rintro (⟨_, -, -, ⟨call, hcall, hnil⟩, -⟩ | ⟨-, -, -, hdeep⟩ | ⟨-, -, hdeep⟩)
  · have hnonempty : ∀ call ∈ Sample.mixed.calls, call.arguments ≠ [] := by decide
    exact hnonempty call hcall hnil
  · exact hshallow _ hdeep
  · exact hshallow _ hdeep

set_option maxRecDepth 8000 in
/-- A call with empty arguments is rejected by one mode and accepted by the other. -/
theorem empty_arguments_part :
    (∃ e, Sample.bareReader.loads [] = .error e ∧ e.isRecursion = false) ∧
      Sample.bareReader.loadsBytes (Sample.bytes Sample.bare) =
        .ok (.dict (Sample.body Sample.bare)) ∧
      CompletionJson Sample.bare (Sample.body Sample.bare) (Sample.choice Sample.bare)
        (Sample.message Sample.bare) ∧
      Renders Sample.bare [Sample.bareChunk] ∧
      List.Forall₂ (ChunkText Sample.bareReader) [Sample.bareChunk] [Sample.data Sample.bareChunk] ∧
      (Sample.source [Sample.bareChunk]).yields =
        [Sample.data Sample.bareChunk] ++ [PyStr.ofString "[DONE]"] ∧
      ¬StreamAgrees (generate Sample.bareReader 1 (Sample.bytes Sample.bare))
        (stream Sample.bareReader 2 (Sample.source [Sample.bareChunk])) := by
  have hplain : (generate Sample.bareReader 1 (Sample.bytes Sample.bare)).isOk = false := by rfl
  have hstream : (stream Sample.bareReader 2 (Sample.source [Sample.bareChunk])).ending =
      .ok () := by rfl
  refine ⟨⟨_, rfl, rfl⟩, rfl, Sample.completionJson _, Sample.renders_bare,
    .cons ⟨by decide, by decide, _, rfl, Sample.chunkJson _⟩ .nil, rfl, fun hagrees => ?_⟩
  obtain ⟨r, hr⟩ := hagrees.completed hstream
  rw [hr] at hplain
  cases hplain

end OpenAI

end AgentRuntimeKit
