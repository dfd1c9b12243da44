import AgentRuntimeKit.Clients.AnthropicEvents

/-!
# Streamed Messages responses

`_result` on the body of a response and `stream` on any rendering of it agree: both succeed, with
the same parts, calls and usage after deltas that spell the text, or both raise a `ProviderError`
(`StreamAgrees`).

A rendering (`Renders`) opens with one `message_start` and closes with one `message_delta`; between
them each block has its events, in order, its text or its input cut into any pieces; events of other
types, such as `ping`, may stand anywhere. The data of each event may be any JSON text of it.

The theorems here assume of `json`, which is a parameter:

* `hobject` — the text of two braces is read as an empty object;
* `hround`  — the inputs of the response survive `dumps` and `loads` (`RoundTrips`); an input given
  whole at the start of its block is written and read again by the stream;
* the body and each data text are read as the objects they are texts of.

A count of `message_delta` stands for the one of `message_start` only where that one was a count at
all (`Merged`); the stream rejects any other at once, before it sees the later one.

Both modes end in the same function, on texts and tool inputs that they have collected in different
pieces. `Collected` says what these have in common, whatever the pieces, and
`assembled_of_collected` that nothing else matters for the end. So the proof runs the events, keeps
`Collected`, and compares the ends; where the loop raises, `run_events` finds a reason in the
response, on which the plain call raises as well.

## Results

* `assembled_of_collected` — the end of both modes, on what they have collected.
* `generate_spec`          — what the plain call makes of a response.
* `run_events`             — all events are collected, or there is a reason in the response.
* `messages_agree`         — both modes agree, on every response and every rendering of it.
-/

namespace AgentRuntimeKit

open Lib Utf8

namespace Anthropic

variable {json : PyJson}

-- ---------------------------------------------------------------------------
-- The blocks of a body
-- ---------------------------------------------------------------------------

/-- The loop of `_result` collects every block. -/
theorem readBlocks_of_json {blocks : List Block} {xs : List PyValue}
    (h : List.Forall₂ BlockJson blocks xs)
    (hround : ∀ t ∈ blocks.filterMap Block.tool?, RoundTrips json t.input) (k : Nat) (acc : Blocks)
    (hbelow : acc.toolChunks.Below k)
    (hincreasing : acc.toolChunks.Pairwise fun a b => a.1 < b.1) :
    ∃ texts chunks, Collected json blocks texts chunks ∧
      (acc.toolChunks ++ chunks).Pairwise (fun a b => a.1 < b.1) ∧
      readBlocks json k xs acc = .ok ⟨acc.textChunks ++ texts, acc.toolChunks ++ chunks⟩ := by
  induction h generalizing k acc with
  | nil =>
    refine ⟨[], [], .nil, ?_, ?_⟩
    · rw [List.append_nil]
      exact hincreasing
    · rw [List.append_nil, List.append_nil]
      rfl
  | @cons b x blocks xs hb hblocks ih =>
    have hobject (block : JsonObject) : object "content block" (.dict block) = .ok block := rfl
    cases hb with
    | text t block hkind htext =>
      have hrest := fun t ht => hround t (by rwa [List.filterMap_cons_none rfl])
      obtain ⟨texts, chunks, hc, hsorted, hread⟩ :=
        ih hrest (k + 1) { acc with textChunks := acc.textChunks ++ textOf (.str t) }
          (hbelow.mono (Nat.le_succ k)) hincreasing
      have hflat : (textOf (.str t)).flatten = t := by
        by_cases ht : t = []
        · rw [ht]
          rfl
        · rw [textOf, if_neg ht, List.flatten_cons, List.flatten_nil, List.append_nil]
      have hne : ∀ p ∈ textOf (.str t), p ≠ [] := by
        intro p hp
        by_cases ht : t = []
        · rw [textOf, if_pos ht] at hp
          exact absurd hp List.not_mem_nil
        · rw [textOf, if_neg ht, List.mem_singleton] at hp
          rw [hp]
          exact ht
      refine ⟨textOf (.str t) ++ texts, chunks, hc.cons_text hflat hne, hsorted, ?_⟩
      rw [readBlocks, bind_of_ok (hobject block), hasType_of hkind, htext]
      show readBlocks json (k + 1) xs _ = _
      rw [hread, List.append_assoc]
    | tool id name input block hkind hid hname hinput =>
      have hrest := fun t ht => hround t (List.mem_cons_of_mem _ ht)
      obtain ⟨arguments, hne, hdumps, hloads⟩ := hround ⟨id, name, input⟩ List.mem_cons_self
      obtain ⟨texts, chunks, hc, hsorted, hread⟩ :=
        ih hrest (k + 1) { acc with toolChunks := acc.toolChunks ++ [(k, ⟨id, name, arguments⟩)] }
          (hbelow.append _) (IntDict.increasing_append hincreasing hbelow _)
      rw [List.append_assoc] at hsorted
      refine ⟨texts, (k, ⟨id, name, arguments⟩) :: chunks, hc.cons_tool ⟨rfl, rfl, ?_⟩, hsorted, ?_⟩
      · rw [if_neg hne]
        exact hloads
      · rw [readBlocks, bind_of_ok (hobject block), hasType_of hkind, hasType_of hkind]
        show (readIdentity block >>= _) = _
        rw [bind_of_ok (readIdentity_of hid hname), hinput]
        show (json.dumps input >>= _) = _
        rw [bind_of_ok hdumps]
        show readBlocks json (k + 1) xs { acc with toolChunks := acc.toolChunks.insert k _ } = _
        rw [hbelow.insert, hread, List.append_assoc]
        rfl

-- ---------------------------------------------------------------------------
-- Calls and counts
-- ---------------------------------------------------------------------------

/-- The calls of a response. -/
def Response.calls (json : PyJson) (r : Response) : Except Exn (List ToolCall) :=
  (r.blocks.filterMap Block.tool?).mapM (ToolUse.call json)

theorem raises_call {json : PyJson} (json' : PyJson) (t : ToolUse) :
    Raises (json.Caught [.typeError, .valueError]) (t.call json') := by
  rw [ToolUse.call]
  split
  · exact raises_toolCall json' (by decide) _ _ _
  · exact .error (caught_py (by decide) _)

/-- The end of both modes, on what they have collected. -/
theorem assembled_of_collected {blocks : List Block} {texts : List PyStr}
    {chunks : IntDict ToolChunk} (hc : Collected json blocks texts chunks)
    (hsorted : chunks.Pairwise fun a b => a.1 < b.1) (id : Uuid) (usage : Option Usage) :
    assembled json id texts chunks usage =
      (((blocks.filterMap Block.tool?).mapM (ToolUse.call json)).mapError
        (translate [.typeError, .valueError]
          (rejected "Anthropic returned an invalid tool call")) >>=
          fun calls => if texts = [] ∧ calls = [] then
            .error (rejected "Anthropic returned an empty assistant message")
          else assembledResult json id texts calls usage) := by
  have hcalls : chunks.sorted.mapM (closeChunk json) =
      (blocks.filterMap Block.tool?).mapM (ToolUse.call json) := by
    rw [IntDict.sorted_of_increasing hsorted]
    exact (mapM_congr_of_forall₂ hc.tools fun t chunk h => (closeChunk_of_holds h).symm).symm
  rw [assembled, hcalls]

theorem assembly_of_collected {r : Response} {calls : List ToolCall}
    (hcalls : r.calls json = .ok calls) {texts : List PyStr} {chunks : IntDict ToolChunk}
    (hc : Collected json r.blocks texts chunks)
    (hsorted : chunks.Pairwise fun a b => a.1 < b.1) (id : Uuid) (usage : Option Usage) :
    Assembly json texts calls usage (assembled json id texts chunks usage) := by
  rw [Response.calls] at hcalls
  rw [assembled_of_collected hc hsorted, hcalls]
  exact assembly_nonempty json id texts calls usage "Anthropic returned an empty assistant message"

theorem rejects_of_collected {r : Response} {e : Exn} (hcalls : r.calls json = .error e)
    {texts : List PyStr} {chunks : IntDict ToolChunk} (hc : Collected json r.blocks texts chunks)
    (hsorted : chunks.Pairwise fun a b => a.1 < b.1) (id : Uuid) (usage : Option Usage) :
    Rejects (assembled json id texts chunks usage) := by
  rw [Response.calls] at hcalls
  have hcaught : PyJson.silent.Caught [.typeError, .valueError] e :=
    Raises.mapM (fun t _ => raises_call json t) e hcalls
  rw [assembled_of_collected hc hsorted, hcalls]
  exact ⟨_, rfl, caught_silent hcaught rfl⟩

/-- Both counts, or no usage. -/
def usageOf (input output : Option Nat) : Option Usage :=
  match input, output with
  | some i, some o => some ⟨i, o⟩
  | _, _ => none

theorem tokenUsage_of_json {input output raw : PyValue} (h : UsageJson input output raw) :
    tokenUsage raw "input_tokens" "output_tokens" =
      (tokenCount input >>= fun i => tokenCount output >>= fun o => .ok (usageOf i o)) := by
  have hread {usage : JsonObject} (hi : usage.get "input_tokens" = input)
      (ho : usage.get "output_tokens" = output) :
      tokenUsage (.dict usage) "input_tokens" "output_tokens" =
        (tokenCount input >>= fun i => tokenCount output >>= fun o => .ok (usageOf i o)) := by
    rw [tokenUsage, hi, ho]
    refine bind_congr fun i => bind_congr fun o => ?_
    cases i with
    | none => rfl
    | some i =>
      cases o with
      | none => rfl
      | some o => rfl
  cases h with
  | null hi ho =>
    rw [hi, ho]
    rfl
  | counts usage hi ho => exact hread hi ho

theorem streamUsage_eq (s : StreamState) :
    streamUsage s = .ok (usageOf s.inputTokens s.outputTokens) := by
  rw [streamUsage]
  cases s.inputTokens with
  | none =>
    cases s.outputTokens with
    | none => rfl
    | some o => rfl
  | some i =>
    cases s.outputTokens with
    | none => rfl
    | some o => rfl

/-- A count that the start got wrong is not replaced. -/
theorem Merged.start_error {earlier count : PyValue} {change : Option PyValue} {e : Exn}
    (h : Merged earlier change count) (he : tokenCount earlier = .error e) :
    tokenCount count = .error e := by
  cases h with
  | kept => exact he
  | replaced _ hlegal =>
    rcases hlegal with hnone | ⟨n, hn⟩
    · rw [hnone] at he
      cases he
    · rw [hn] at he
      cases he

theorem Merged.changed {earlier count : PyValue} {change : Option PyValue} {a : Option Nat}
    (h : Merged earlier change count) (ha : tokenCount earlier = .ok a) :
    Anthropic.changed change a = tokenCount count := by
  cases h with
  | kept => exact ha.symm
  | replaced => rfl

-- ---------------------------------------------------------------------------
-- The two modes
-- ---------------------------------------------------------------------------

/-- The checks on everything but the blocks. -/
structure Response.Sound (r : Response) : Prop where
  stop : isNoneOr stopReasons r.stop = true
  input : ∃ i, tokenCount r.input = .ok i
  output : ∃ o, tokenCount r.output = .ok o

theorem Response.exists_dict {r : Response} {calls : List ToolCall} (h : r.calls json = .ok calls)
    {id name : PyStr} {input : PyValue} (hb : Block.tool id name input ∈ r.blocks) :
    ∃ kvs, input = .dict kvs := by
  have hmem : ⟨id, name, input⟩ ∈ r.blocks.filterMap Block.tool? :=
    List.mem_filterMap.mpr ⟨_, hb, rfl⟩
  obtain ⟨call, hcall⟩ := ok_of_mapM h hmem
  rw [ToolUse.call.eq_def] at hcall
  cases input with
  | dict kvs => exact ⟨kvs, rfl⟩
  | _ => cases hcall

section Plain

variable {r : Response} {bytes : List Byte} {body : JsonObject}
  (hbody : json.loadsBytes bytes = .ok (.dict body)) (h : ResponseJson r body)
  (hround : ∀ t ∈ r.blocks.filterMap Block.tool?, RoundTrips json t.input) (id : Uuid)
include hbody

theorem generate_eq : generate json id bytes = (result json id body).mapError
    (translate classes (requestFailure "Anthropic model request failed")) := by
  rw [generate, bind_of_ok hbody]
  rfl

include h

theorem generate_of_stop (hstop : isNoneOr stopReasons r.stop = false) :
    Rejects (generate json id bytes) := by
  have hresult : Rejects (result json id body) := by
    rw [result, h.stop, hstop]
    exact ⟨_, rfl, rfl⟩
  rw [generate_eq hbody id]
  exact hresult.translate rfl

include hround in
/-- The body, up to its usage. -/
theorem generate_of_blocks (hstop : isNoneOr stopReasons r.stop = true) :
    ∃ texts chunks, Collected json r.blocks texts chunks ∧
      chunks.Pairwise (fun a b => a.1 < b.1) ∧
      generate json id bytes = ((tokenCount r.input >>= fun i => tokenCount r.output >>= fun o =>
        assembled json id texts chunks (usageOf i o)).mapError
          (translate classes (requestFailure "Anthropic model request failed"))) := by
  obtain ⟨xs, hxs, hblocks⟩ := h.content
  obtain ⟨texts, chunks, hc, hsorted, hread⟩ := readBlocks_of_json hblocks hround 0 ⟨[], []⟩
    (fun kv hkv => absurd hkv List.not_mem_nil) List.Pairwise.nil
  refine ⟨texts, chunks, hc, hsorted, ?_⟩
  have hsequence : sequence "content" (body.get "content") = .ok xs := by
    rw [hxs]
    rfl
  have hresult : result json id body = (tokenCount r.input >>= fun i =>
      tokenCount r.output >>= fun o => assembled json id texts chunks (usageOf i o)) := by
    rw [result, h.stop, hstop]
    show (sequence "content" (body.get "content") >>= _) = _
    rw [bind_of_ok hsequence, bind_of_ok hread, tokenUsage_of_json h.usage, bind_assoc]
    refine bind_congr fun i => ?_
    rw [bind_assoc]
    rfl
  rw [generate_eq hbody id, hresult]

include hround in
/-- What the plain call makes of a response. -/
theorem generate_spec :
    (∀ calls i o, r.calls json = .ok calls → isNoneOr stopReasons r.stop = true →
      tokenCount r.input = .ok i → tokenCount r.output = .ok o →
        ∃ texts, texts.flatten = r.blocks.flatMap Block.spelled ∧ (∀ t ∈ texts, t ≠ []) ∧
          Assembly json texts calls (usageOf i o) (generate json id bytes)) ∧
      (¬r.Sound ∨ (∃ e, r.calls json = .error e) → Rejects (generate json id bytes)) := by
  by_cases hstop : isNoneOr stopReasons r.stop = true
  · obtain ⟨texts, chunks, hc, hsorted, hgenerate⟩ := generate_of_blocks hbody h hround id hstop
    refine ⟨fun calls i o hcalls _ hi ho => ?_, fun hbad => ?_⟩
    · rw [hi, ho] at hgenerate
      rw [hgenerate]
      have hassembly := assembly_of_collected hcalls hc hsorted id (usageOf i o)
      exact ⟨texts, hc.text, hc.nonempty, hassembly.translate (fun _ => rfl) rfl⟩
    · rw [hgenerate]
      refine Rejects.translate ?_ rfl
      cases hi : tokenCount r.input with
      | error e => exact ⟨e, rfl, raises_tokenCount _ e hi⟩
      | ok i =>
        cases ho : tokenCount r.output with
        | error e => exact ⟨e, rfl, raises_tokenCount _ e ho⟩
        | ok o =>
          rcases hbad with hno | ⟨e, he⟩
          · exact absurd ⟨hstop, ⟨i, hi⟩, ⟨o, ho⟩⟩ hno
          · exact rejects_of_collected he hc hsorted id _
  · refine ⟨fun calls i o _ hs => absurd hs hstop, fun _ => ?_⟩
    exact generate_of_stop hbody h id (Bool.eq_false_iff.mpr hstop)

end Plain

section Streamed

variable {r : Response} {events : List Event} (hrenders : Renders json r events)
  (hobject : json.loads (PyStr.ofString "\x7b\x7d") = .ok (.dict []))
  (hround : ∀ t ∈ r.blocks.filterMap Block.tool?, RoundTrips json t.input)

theorem handled_of_count {v : PyValue} {e : Exn} (he : tokenCount v = .error e)
    (f : Option Nat → Except Exn StreamState) : Handled (Gen.ofExcept (tokenCount v >>= f)) := by
  refine ⟨e, ?_, Or.inl (Or.inl (raises_tokenCount v e he))⟩
  show (tokenCount v >>= f) = _
  exact bind_of_error he f

/-- The start of the message. -/
theorem run_messageStart {input output : PyValue} {i o : Option Nat}
    (hi : tokenCount input = .ok i) (ho : tokenCount output = .ok o) :
    (Event.messageStart input output).run json .start = pure ⟨[], [], i, o⟩ := by
  show Gen.ofExcept (tokenCount input >>= fun i => tokenCount output >>= fun o => _) = _
  rw [hi, ho]
  rfl

/-- The end of the message. -/
theorem run_messageDelta (r : Response) {input output : Option PyValue} (s : StreamState)
    (hi : changed input s.inputTokens = tokenCount r.input)
    (ho : changed output s.outputTokens = tokenCount r.output) :
    (∃ i o, r.Sound ∧ tokenCount r.input = .ok i ∧ tokenCount r.output = .ok o ∧
      (Event.messageDelta r.stop input output).run json s =
        pure { s with inputTokens := i, outputTokens := o }) ∨
      (Handled ((Event.messageDelta r.stop input output).run json s) ∧ ¬r.Sound) := by
  have hrun : (Event.messageDelta r.stop input output).run json s =
      .ofExcept (if !isNoneOr stopReasons r.stop then
        .error (rejected "Anthropic model stream did not finish successfully")
      else (tokenCount r.input >>= fun i => tokenCount r.output >>= fun o =>
        .ok { s with inputTokens := i, outputTokens := o })) := by
    rw [← hi, ← ho]
    rfl
  rw [hrun]
  by_cases hstop : isNoneOr stopReasons r.stop = true
  · rw [hstop]
    show _ ∨ Handled (Gen.ofExcept (tokenCount r.input >>= fun i => _)) ∧ _
    cases hinput : tokenCount r.input with
    | error e =>
      right
      refine ⟨hinput ▸ handled_of_count hinput _, fun hsound => ?_⟩
      obtain ⟨i, hok⟩ := hsound.input
      rw [hinput] at hok
      cases hok
    | ok i =>
      cases houtput : tokenCount r.output with
      | error e =>
        right
        refine ⟨houtput ▸ handled_of_count houtput _, fun hsound => ?_⟩
        obtain ⟨o, hok⟩ := hsound.output
        rw [houtput] at hok
        cases hok
      | ok o => exact Or.inl ⟨i, o, ⟨hstop, ⟨i, hinput⟩, ⟨o, houtput⟩⟩, rfl, rfl, rfl⟩
  · right
    rw [Bool.eq_false_iff.mpr hstop]
    exact ⟨⟨_, rfl, caught_rejected _⟩, fun hsound => hstop hsound.stop⟩

include hrenders hobject hround in
/-- All events of a rendering: everything is collected, or the loop raises and there is a reason
for it in the response. -/
theorem run_events :
    (∃ texts chunks i o, r.Sound ∧ tokenCount r.input = .ok i ∧ tokenCount r.output = .ok o ∧
      Collected json r.blocks texts chunks ∧ chunks.Pairwise (fun a b => a.1 < b.1) ∧
      runAll json .start events = ⟨texts.map .textDelta, .ok ⟨texts, chunks, i, o⟩⟩) ∨
      (Handled (runAll json .start events) ∧ (r.Sound → ∃ b ∈ r.blocks, ¬b.Readable)) := by
  obtain ⟨input, output, input', output', blocks, hevents, hblocks, hinput, houtput⟩ := hrenders
  rw [← runAll_filter, hevents, runAll_cons]
  cases hi : tokenCount input with
  | error e =>
    right
    refine ⟨Handled.bind (handled_of_count hi _) _, fun hsound => ?_⟩
    obtain ⟨i, hok⟩ := hsound.input
    rw [hinput.start_error hi] at hok
    cases hok
  | ok i =>
    cases ho : tokenCount output with
    | error e =>
      right
      refine ⟨Handled.bind ⟨e, ?_, Or.inl (Or.inl (raises_tokenCount _ e ho))⟩ _, fun hsound => ?_⟩
      · show (tokenCount input >>= fun i => tokenCount output >>= fun o => _) = _
        rw [bind_of_ok hi, bind_of_error ho]
      · obtain ⟨o, hok⟩ := hsound.output
        rw [houtput.start_error ho] at hok
        cases hok
    | ok o =>
      rw [run_messageStart hi ho, pure_bind, runAll_append]
      have hrun := run_blocks hobject hblocks hround (s := ⟨[], [], i, o⟩)
        (fun kv hkv => absurd hkv List.not_mem_nil) List.Pairwise.nil
      cases hrun with
      | unreadable hhandled hbad => exact Or.inr ⟨hhandled.bind _, fun _ => hbad⟩
      | collected texts chunks hc _ hsorted hrun =>
        have hblocks' : runAll json ⟨[], [], i, o⟩ blocks =
            ⟨texts.map .textDelta, .ok ⟨texts, chunks, i, o⟩⟩ := hrun
        have hend : _ ∨ (Handled ((Event.messageDelta r.stop input' output').run json
            ⟨texts, chunks, i, o⟩) ∧ _) :=
          run_messageDelta r _ (hinput.changed hi) (houtput.changed ho)
        rw [hblocks', Gen.ok_bind, runAll_cons]
        rcases hend with ⟨i', o', hsound, hi', ho', hend⟩ | ⟨⟨e, he, hcaught⟩, hno⟩
        · left
          refine ⟨texts, chunks, i', o', hsound, hi', ho', hc, hsorted, ?_⟩
          rw [hend, pure_bind]
          show Gen.mk (texts.map ModelStreamEvent.textDelta ++ []) _ = _
          rw [List.append_nil]
          rfl
        · right
          exact ⟨⟨e, Gen.ending_bind_error he _, hcaught⟩, fun hs => absurd hs hno⟩

end Streamed

/-- Both modes agree, on every response and every rendering of it. Besides the two facts about
`json`, the one condition is part of `Renders`: where `message_delta` has a count, the count of
`message_start` that it replaces is null or a natural number (`Merged.replaced`), since the stream
checks it when it comes, and the plain call never sees it. -/
theorem messages_agree {r : Response} {bytes : List Byte} {body : JsonObject}
    (hobject : json.loads (PyStr.ofString "\x7b\x7d") = .ok (.dict []))
    (hround : ∀ t ∈ r.blocks.filterMap Block.tool?, RoundTrips json t.input)
    (hbody : json.loadsBytes bytes = .ok (.dict body)) (h : ResponseJson r body)
    {source : Gen Exn PyStr Unit} {events : List Event} {datas rest : List PyStr} {stop : PyStr}
    (hrenders : Renders json r events) (hdatas : List.Forall₂ (EventText json) events datas)
    (hstop : StopText json stop) (hsource : source.yields = datas ++ stop :: rest)
    (id id' : Uuid) : StreamAgrees (generate json id bytes) (stream json id' source) := by
  obtain ⟨hplain, hrejects⟩ := generate_spec hbody h hround id
  have hread : readStream json source.ending source.yields .start =
      (runAll json .start events >>= fun s => pure (s, true)) := by
    rw [hsource]
    exact readStream_of_json hdatas hstop .start
  rcases run_events hrenders hobject hround with
    ⟨texts, chunks, i, o, hsound, hi, ho, hc, hsorted, hrun⟩ | ⟨⟨e, he, hcaught⟩, hreason⟩
  · -- the events are collected, and both modes end in `assembled`
    have hstream : stream json id' source =
        ⟨texts.map .textDelta ++ (concluded (assembled json id' texts chunks (usageOf i o))).yields,
          (concluded (assembled json id' texts chunks (usageOf i o))).ending⟩ := by
      have hloop : readStream json source.ending source.yields .start =
          ⟨texts.map .textDelta, .ok (⟨texts, chunks, i, o⟩, true)⟩ := by
        rw [hread, hrun, Gen.ok_bind, Gen.pure_def, List.append_nil]
      have hend : (Gen.ofExcept (streamUsage ⟨texts, chunks, i, o⟩) >>= fun usage =>
          Gen.ofExcept (assembled json id' texts chunks usage) >>= fun result =>
            Gen.yield (.completed result.object)) =
          concluded (assembled json id' texts chunks (usageOf i o)) := by
        rw [streamUsage_eq]
        rfl
      rw [stream, translated, hloop]
      exact congrArg
        (fun g => Gen.mk (texts.map ModelStreamEvent.textDelta ++ g.yields) g.ending) hend
    rw [hstream]
    cases hcalls : r.calls json with
    | ok calls =>
      obtain ⟨texts', hflat, hne, hassembly⟩ := hplain calls i o hcalls hsound.stop hi ho
      refine .of_assembly hassembly (assembly_of_collected hcalls hc hsorted id' _) ?_
      exact SameText.of_flatten hne hc.nonempty (hc.text.trans hflat.symm)
    | error e =>
      -- a call that cannot be read ends the plain call at once, and the stream at its end
      refine .of_rejects (hrejects (Or.inr ⟨e, hcalls⟩)) ?_
      rw [rejects_concluded]
      exact rejects_of_collected hcalls hc hsorted id' _
  · -- the loop of the stream raises, and what is left to show is that the plain call does
    have hstream : Rejects (stream json id' source).ending := by
      have hloop : (readStream json source.ending source.yields .start).ending = .error e := by
        rw [hread]
        exact Gen.ending_bind_error he _
      refine ⟨translate classes (requestFailure "Anthropic model stream failed") e, ?_,
        caught_silent hcaught rfl⟩
      rw [stream]
      refine Gen.ending_bind_error ?_ _
      rw [translated, hloop]
      rfl
    by_cases hsound : r.Sound
    · cases hcalls : r.calls json with
      | error e' => exact .of_rejects (hrejects (Or.inr ⟨e', hcalls⟩)) hstream
      | ok calls =>
        -- then a text has half a surrogate pair
        obtain ⟨b, hb, hno⟩ := hreason hsound
        obtain ⟨i, hi⟩ := hsound.input
        obtain ⟨o, ho⟩ := hsound.output
        obtain ⟨texts, hflat, -, hassembly⟩ := hplain calls i o hcalls hsound.stop hi ho
        refine .of_rejects (hassembly.rejects_of_not_fits fun hfits => hno ?_) hstream
        cases b with
        | tool id name input => exact r.exists_dict hcalls hb
        | text t =>
          have htext := hfits.encodable
          rw [hflat, List.flatMap_def, encodable_flatten] at htext
          exact htext t (List.mem_map.mpr ⟨_, hb, rfl⟩)
    · -- the stop reason or a count is wrong for both
      exact .of_rejects (hrejects (Or.inl hsound)) hstream

-- ---------------------------------------------------------------------------
-- A text and a call
-- ---------------------------------------------------------------------------

namespace Sample

def obj (fields : List (String × PyValue)) : JsonObject :=
  fields.map fun f => (PyValue.key f.1, f.2)

def input : PyValue := .dict (obj [("q", .int 1)])

def response : Response :=
  ⟨[.text (PyStr.ofString "hi"), .tool (PyStr.ofString "call") (PyStr.ofString "search") input],
    .text "tool_use", .int 1, .int 2⟩

def body : JsonObject :=
  obj [("content", .list [
      .dict (obj [("type", .text "text"), ("text", .text "hi")]),
      .dict (obj [("type", .text "tool_use"), ("id", .text "call"), ("name", .text "search"),
        ("input", input)])]),
    ("stop_reason", .text "tool_use"),
    ("usage", .dict (obj [("input_tokens", .int 1), ("output_tokens", .int 2)]))]

/-- The first half of `{"q": 1}`, and the second. -/
def pieces : List PyStr := [PyStr.ofString "\x7b\"q\"", PyStr.ofString ": 1\x7d"]

def events : List Event :=
  [.messageStart (.int 1) (.int 1), .textStart 0, .textDelta 0 (PyStr.ofString "hi"),
    .toolStart 1 (PyStr.ofString "call") (PyStr.ofString "search") (.dict []),
    .jsonDelta 1 (PyStr.ofString "\x7b\"q\""), .jsonDelta 1 (PyStr.ofString ": 1\x7d"),
    .messageDelta (.text "tool_use") none (some (.int 2))]

def blockDelta (index : Int) (kind field : String) (text : PyStr) : JsonObject :=
  obj [("type", .text "content_block_delta"), ("index", .int index),
    ("delta", .dict (obj [("type", .text kind), (field, .str text)]))]

def blockStart (index : Int) (block : JsonObject) : JsonObject :=
  obj [("type", .text "content_block_start"), ("index", .int index), ("content_block", .dict block)]

def objects : List JsonObject :=
  [obj [("type", .text "message_start"), ("message", .dict (obj [("usage",
      .dict (obj [("input_tokens", .int 1), ("output_tokens", .int 1)]))]))],
    blockStart 0 (obj [("type", .text "text")]),
    blockDelta 0 "text_delta" "text" (PyStr.ofString "hi"),
    blockStart 1 (obj [("type", .text "tool_use"), ("id", .text "call"), ("name", .text "search")]),
    blockDelta 1 "input_json_delta" "partial_json" (PyStr.ofString "\x7b\"q\""),
    blockDelta 1 "input_json_delta" "partial_json" (PyStr.ofString ": 1\x7d"),
    obj [("type", .text "message_delta"),
      ("delta", .dict (obj [("stop_reason", .text "tool_use")])),
      ("usage", .dict (obj [("output_tokens", .int 2)]))]]

def stop : JsonObject := obj [("type", .text "message_stop")]

def reader : PyJson :=
  Sample.readerOf (.dict [] :: input :: .dict body :: .dict stop :: objects.map .dict)

def bytes : List Byte := Utf8.encode ((PyValue.dict body).dumps (.plain true))

def datas : List PyStr := objects.map fun o => (PyValue.dict o).dumps (.plain true)

def source : Gen Exn PyStr Unit := ⟨datas ++ [(PyValue.dict stop).dumps (.plain true)], .ok ()⟩

theorem responseJson : ResponseJson response body where
  stop := rfl
  content := ⟨_, rfl, .cons (.text _ _ rfl rfl) (.cons (.tool _ _ _ _ rfl rfl rfl rfl) .nil)⟩
  usage := .counts _ rfl rfl

set_option maxRecDepth 8000 in
theorem renders : Renders reader response events := by
  have htext : BlockEvents reader 0 (.text (PyStr.ofString "hi"))
      [.textStart 0, .textDelta 0 (PyStr.ofString "hi")] := .text [PyStr.ofString "hi"]
  exact .mk (.int 1) (.int 1) none (some (.int 2)) _ rfl (.cons htext (.cons
    (.cut _ _ _ pieces (by decide) rfl) (.nil _))) (.kept _) (.replaced _ _ (Or.inr ⟨1, rfl⟩))

set_option maxRecDepth 8000 in
theorem eventTexts : List.Forall₂ (EventText reader) events datas := by
  refine .cons ⟨by decide, _, rfl, ?_⟩ (.cons ⟨by decide, _, rfl, ?_⟩ (.cons ⟨by decide, _, rfl, ?_⟩
    (.cons ⟨by decide, _, rfl, ?_⟩ (.cons ⟨by decide, _, rfl, ?_⟩ (.cons ⟨by decide, _, rfl, ?_⟩
      (.cons ⟨by decide, _, rfl, ?_⟩ .nil))))))
  · exact .messageStart _ _ _ _ rfl rfl (.counts _ rfl rfl)
  · exact .textStart _ _ _ rfl rfl rfl rfl
  · exact .textDelta _ _ _ _ rfl rfl rfl rfl rfl
  · exact .toolStart _ _ _ _ _ _ rfl rfl rfl (.tool _ _ _ _ rfl rfl rfl rfl)
  · exact .jsonDelta _ _ _ _ rfl rfl rfl rfl rfl
  · exact .jsonDelta _ _ _ _ rfl rfl rfl rfl rfl
  · exact .messageDelta _ _ _ _ _ _ rfl rfl rfl (Or.inr rfl) rfl rfl

end Sample

set_option maxRecDepth 8000 in
theorem messages_agree_on_call :
    StreamAgrees (generate Sample.reader 1 Sample.bytes)
    (stream Sample.reader 2 Sample.source) := by
  have hround : ∀ t ∈ Sample.response.blocks.filterMap Block.tool?,
      RoundTrips Sample.reader t.input := by
    intro t ht
    rw [List.mem_singleton.mp ht]
    exact ⟨_, by decide, rfl, rfl⟩
  have hbody : Sample.reader.loadsBytes Sample.bytes = .ok (.dict Sample.body) := rfl
  have hstop : StopText Sample.reader ((PyValue.dict Sample.stop).dumps (.plain true)) :=
    ⟨by decide, _, rfl, rfl⟩
  exact messages_agree rfl hround hbody Sample.responseJson Sample.renders Sample.eventTexts hstop
    rfl 1 2

end Anthropic

end AgentRuntimeKit
