import AgentRuntimeKit.Adapters.Attribution
import AgentRuntimeKit.Lib.Surrogates

/-!
# Translation and back

What `to_framework_message` and `from_framework_message` make of a canonical message, and what
follows for `framework_output` on a state that starts with the messages of the request.

A framework gets the history as its own messages and returns a state in which they stand before
what it adds. `framework_output` translates everything back and strips the request off by comparing:
if the first messages equal those of the request, only the rest is new; otherwise all of it is. So
one message that does not come back as it was makes the whole history new again.

Two things get lost on the way. The blocks of an assistant message hold texts, and its calls are a
list beside them, so calls come back after all texts (`textsFirst`). And a result becomes one text
block, which is read back with `json.loads`, or as a string where that fails. `MessageReturns` says
that neither happens.

The theorems here assume:

* `hsingle` — a tool message has one result, as `to_framework_message` needs;
* `Translates` — what the framework adds is not empty, can be translated, and gives a supported
  result wherever it is a tool message (`Supported`);
* nothing of `json`: it is a parameter, and `ResultReturns` says on which values its two functions
  are inverse to each other. Of CPython's `json` (`IsStandard`) these are known.

A round trip keeps the identifier of a message, whatever identifiers are drawn for others
(`identity_uuidText`), so a message that comes back as it was has its old identifier too.

## Results

* `roundTrip_iff`         — a message comes back as it was iff its calls follow its texts, and its
  results can be read back;
* `resultReturns_iff`     — which results come back through CPython's `json`;
* `exists_natives`        — messages that come back as they were come back so all together;
* `frameworkOutput_iff`   — the output has exactly the new messages iff every message of the request
  comes back as it was.
-/

namespace AgentRuntimeKit

open Lib Bindings
open PyValue (text)

variable {json : FrameworkJson} {ids : FrameworkIds}

/-- `from_framework_message(to_framework_message(message))`. -/
def roundTrip (json : FrameworkJson) (ids : FrameworkIds) (draw : Nat) (message : Message) :
    Except Exn Message := do
  let native ← toFrameworkMessage json message
  fromFrameworkMessage json ids draw native

/-- The text of the result can be a text block, and is read back as an equal value. -/
def ResultReturns (json : FrameworkJson) (v : PyValue) : Prop :=
  ∃ t v', json.dumps v = .ok t ∧ t.length ≤ 32000 ∧ t.encodable = true ∧
    readResult json t = .ok v' ∧ v'.isJson = true ∧ v'.eq v = true

/-- What CPython's `json` makes of lossless JSON with `ensure_ascii=False`, in an interpreter that
follows it `writeDepth` levels down and `readDepth` levels back. Beyond that each raises
`RecursionError`. -/
structure FrameworkJson.IsStandard (json : FrameworkJson) (writeDepth readDepth : Nat) : Prop where
  writes : ∀ v : PyValue, v.isJson = true →
    ((∃ t, json.dumps v = .ok t) ↔ v.printable = true ∧ v.depth ≤ writeDepth)
  text : ∀ (v : PyValue) t, v.isJson = true → json.dumps v = .ok t → t = v.dumps (.plain false)
  reads : ∀ v : PyValue, v.isJson = true → v.surrogateFree = true → v.printable = true →
    v.depth ≤ readDepth → json.loads (v.dumps (.plain false)) = .ok (some v)
  deep : ∀ v : PyValue, v.isJson = true → v.printable = true → readDepth < v.depth →
    ∃ e, json.loads (v.dumps (.plain false)) = .error e

/-- No text part follows a tool call, and results can be read back. -/
def MessageReturns (json : FrameworkJson) (m : Message) : Prop :=
  (m.content.Pairwise fun a b => a.isToolCall = true → b.text? = none) ∧
    ∀ r ∈ m.toolResults, ResultReturns json r.result

/-- **Which results come back through CPython's `json`**: those with at most 32,000 characters of
text and no surrogate, without an integer of more than 4,300 digits, that nest no deeper than the
interpreter can follow. -/
theorem resultReturns_iff {json : FrameworkJson} {writeDepth readDepth : Nat}
    (h : json.IsStandard writeDepth readDepth) {v : PyValue} (hv : v.isJson = true) :
    ResultReturns json v ↔ v.printable = true ∧ v.depth ≤ writeDepth ∧ v.depth ≤ readDepth ∧
      (v.dumps (.plain false)).length ≤ 32000 ∧ v.surrogateFree = true := by
  constructor
  · rintro ⟨t, v', hdumps, hlength, hencodable, hread, -⟩
    obtain ⟨hprintable, hwrite⟩ := (h.writes v hv).mp ⟨t, hdumps⟩
    rw [h.text v t hv hdumps] at hlength hencodable hread
    rw [PyValue.encodable_dumps v hv] at hencodable
    refine ⟨hprintable, hwrite, ?_, hlength, hencodable⟩
    by_contra hdeep
    obtain ⟨e, he⟩ := h.deep v hv hprintable (Nat.lt_of_not_le hdeep)
    rw [readResult, bind_of_error he] at hread
    cases hread
  · rintro ⟨hprintable, hwrite, hread, hlength, hfree⟩
    obtain ⟨t, hdumps⟩ := (h.writes v hv).mpr ⟨hprintable, hwrite⟩
    have hloads := h.reads v hv hfree hprintable hread
    rw [h.text v t hv hdumps] at hdumps
    refine ⟨_, v, hdumps, hlength, ?_, ?_, hv, PyValue.eq_of_isJson v hv⟩
    · rw [PyValue.encodable_dumps v hv, hfree]
    · rw [readResult, bind_of_ok hloads]
      rfl

/-- A `json` that reads the texts of lossless JSON and nothing else. -/
noncomputable def FrameworkJson.standard (writeDepth readDepth : Nat) : FrameworkJson where
  dumps := dumpsWithin (.plain false) writeDepth
  loads t :=
    match PyValue.readBack (.plain false) {v | v.isJson = true ∧ v.depth ≤ readDepth} t with
    | some v => .ok (some v)
    | none => .error (.py .recursionError "maximum recursion depth exceeded")

/-- What is assumed of CPython's `json` can be had. With `ensure_ascii=False` every character stands
for itself, so all texts of lossless JSON are told apart. -/
theorem FrameworkJson.isStandard_standard (writeDepth readDepth : Nat) :
    (FrameworkJson.standard writeDepth readDepth).IsStandard writeDepth readDepth := by
  have htold : ∀ v : PyValue, v.isJson = true → v.Told (.plain false) :=
    fun v hv => ⟨hv, fun hascii => by cases hascii⟩
  have hknown : ∀ v ∈ {v : PyValue | v.isJson = true ∧ v.depth ≤ readDepth},
      v.Told (.plain false) := fun v hv => htold v hv.1
  constructor
  · exact fun v _ => exists_dumpsWithin
  · exact fun v t _ h => text_of_dumpsWithin h
  · intro v hv _ _ hread
    have hback := PyValue.readBack_of_mem (PyValue.inOrder_plain false) hknown
      (v := v) ⟨hv, hread⟩
    simp only [FrameworkJson.standard, hback]
  · intro v hv _ hdeep
    have hback := PyValue.readBack_of_notMem (PyValue.inOrder_plain false) hknown
      (htold v hv) fun hmem => absurd hmem.2 (Nat.not_le_of_lt hdeep)
    simp only [FrameworkJson.standard, hback]
    exact ⟨_, rfl⟩

-- ---------------------------------------------------------------------------
-- Blocks
-- ---------------------------------------------------------------------------

def ContentPart.textContent? : ContentPart → Option TextContent
  | text part => some part
  | _ => none

/-- The text parts of a message. -/
def Message.textContents (m : Message) : List TextContent :=
  m.content.filterMap ContentPart.textContent?

theorem Message.texts_eq (m : Message) : m.texts = m.textContents.map TextContent.text := by
  rw [texts, textContents, List.map_filterMap]
  refine List.filterMap_congr fun part _ => ?_
  cases part with
  | text part => rfl
  | toolCall call => rfl
  | toolResult part => rfl

/-- The block of a text. -/
def textBlock (s : PyStr) : FrameworkBlock :=
  .dict [(PyValue.key "type", text "text"), (PyValue.key "text", .str s)]

theorem blockText_textBlock (s : PyStr) : blockText (textBlock s) = .ok s := by
  simp [blockText, textBlock, JsonObject.get, text]

theorem TextContent.new_text (part : TextContent) : TextContent.new part.text = .ok part := by
  rw [TextContent.new, dif_pos part.valid]

theorem TextContent.text_ne_nil (part : TextContent) : part.text ≠ [] := by
  intro h
  have hvalid := part.valid
  simp [isStrField, h] at hvalid

/-- The blocks of some text parts are read as these parts. -/
theorem textParts_textBlocks (parts : List TextContent) :
    textParts ((parts.map TextContent.text).map textBlock) = .ok parts := by
  induction parts with
  | nil => rfl
  | cons part parts ih =>
    rw [List.map_cons, List.map_cons, textParts, bind_of_ok (blockText_textBlock part.text),
      if_neg part.text_ne_nil, bind_of_ok part.new_text, bind_of_ok ih]
    rfl

/-- The calls of a message are read as they are. -/
theorem mapM_fromFrameworkCall (calls : List ToolCall) :
    (calls.map fun call => FrameworkCall.mk (some call.id) call.name call.arguments).mapM
      fromFrameworkCall = .ok calls := by
  induction calls with
  | nil => rfl
  | cons call calls ih =>
    have hcall : fromFrameworkCall ⟨some call.id, call.name, call.arguments⟩ = .ok call := by
      rw [fromFrameworkCall, Option.getD_some, ToolCall.new,
        dif_pos ⟨call.validId, call.validName, call.validArguments⟩]
    rw [List.map_cons, List.mapM_cons, bind_of_ok hcall, bind_of_ok ih]
    rfl

theorem identity_uuidText (draw : Nat) (u : Uuid) :
    identity ids draw (some (uuidText u)) = u := by
  rw [identity, parseUuid_uuidText]

-- ---------------------------------------------------------------------------
-- Messages of texts and calls
-- ---------------------------------------------------------------------------

/-- The parts, texts first. -/
def textsFirst (content : List ContentPart) : List ContentPart :=
  (content.filterMap ContentPart.textContent?).map .text ++
    (content.filterMap ContentPart.toolCall?).map .toolCall

theorem textsFirst_cons_text (part : TextContent) (content : List ContentPart) :
    textsFirst (.text part :: content) = .text part :: textsFirst content := rfl

/-- A call comes back where it was if no text follows it. -/
theorem partsEq_cons_toolCall (call : ToolCall) (content : List ContentPart) :
    partsEq (textsFirst (.toolCall call :: content)) (.toolCall call :: content) = true ↔
      (∀ part ∈ content, part.text? = none) ∧ partsEq (textsFirst content) content = true := by
  have htexts : textsFirst (.toolCall call :: content) =
      (content.filterMap ContentPart.textContent?).map .text ++
        .toolCall call :: (content.filterMap ContentPart.toolCall?).map .toolCall := rfl
  rw [htexts, textsFirst]
  have hnone : content.filterMap ContentPart.textContent? = [] ↔
      ∀ part ∈ content, part.text? = none := by
    rw [List.filterMap_eq_nil_iff]
    refine forall₂_congr fun part _ => ?_
    cases part <;> simp [ContentPart.textContent?, ContentPart.text?]
  cases hcontents : content.filterMap ContentPart.textContent? with
  | nil =>
    rw [List.map_nil, List.nil_append, List.nil_append, partsEq, ContentPart.eq_self, Bool.true_and]
    exact ⟨fun h => ⟨hnone.mp hcontents, h⟩, fun h => h.2⟩
  | cons part parts =>
    have hsome : ¬∀ part ∈ content, part.text? = none := by
      rw [← hnone, hcontents]
      exact List.cons_ne_nil _ _
    refine iff_of_false (fun h => ?_) fun h => hsome h.1
    cases h

theorem partsEq_textsFirst {content : List ContentPart}
    (h : ∀ part ∈ content, part.isToolResult = false) :
    partsEq (textsFirst content) content = true ↔
      content.Pairwise fun a b => a.isToolCall = true → b.text? = none := by
  induction content with
  | nil => exact iff_of_true rfl .nil
  | cons part content ih =>
    have hrest := ih fun part hpart => h part (List.mem_cons_of_mem _ hpart)
    rw [List.pairwise_cons]
    cases part with
    | text part =>
      rw [textsFirst_cons_text, partsEq, ContentPart.eq_self, Bool.true_and, hrest]
      exact ⟨fun hpairs => ⟨fun part _ hcall => (by cases hcall), hpairs⟩, fun hpairs => hpairs.2⟩
    | toolCall call =>
      rw [partsEq_cons_toolCall, hrest]
      exact and_congr_left fun _ => forall₂_congr fun part _ => ⟨fun h _ => h, fun h => h rfl⟩
    | toolResult part => cases h _ List.mem_cons_self

theorem length_textsFirst {content : List ContentPart}
    (h : ∀ part ∈ content, part.isToolResult = false) :
    (textsFirst content).length = content.length := by
  induction content with
  | nil => rfl
  | cons part content ih =>
    have hrest := ih fun part hpart => h part (List.mem_cons_of_mem _ hpart)
    cases part with
    | text part => rw [textsFirst_cons_text, List.length_cons, hrest, List.length_cons]
    | toolCall call =>
      simp only [textsFirst, List.filterMap_cons, ContentPart.textContent?, ContentPart.toolCall?,
        List.map_cons, List.length_append, List.length_map, List.length_cons] at hrest ⊢
      omega
    | toolResult part => cases h _ List.mem_cons_self

theorem validToolContent_textsFirst {m : Message} (h : m.role ≠ .tool) :
    validToolContent m.role (textsFirst m.content) = true := by
  have hvalid := m.validContent
  rw [validToolContent, if_neg h] at hvalid ⊢
  simp only [Bool.and_eq_true, Bool.or_eq_true, Bool.not_eq_true', List.any_eq_false,
    decide_eq_true_eq, Bool.not_eq_true] at hvalid ⊢
  constructor
  · intro part hpart
    rcases List.mem_append.mp hpart with hpart | hpart
    · obtain ⟨part, -, rfl⟩ := List.mem_map.mp hpart
      rfl
    · obtain ⟨call, -, rfl⟩ := List.mem_map.mp hpart
      rfl
  · refine hvalid.2.imp id fun hno part hpart => ?_
    rcases List.mem_append.mp hpart with hpart | hpart
    · obtain ⟨part, -, rfl⟩ := List.mem_map.mp hpart
      rfl
    · obtain ⟨call, hcall, rfl⟩ := List.mem_map.mp hpart
      obtain ⟨part, hpart, hcall⟩ := List.mem_filterMap.mp hcall
      have hfalse := hno part hpart
      cases part with
      | text part => cases hcall
      | toolCall call => cases hfalse
      | toolResult part => cases hcall

theorem textsFirst_of_ne_assistant {m : Message} (h : m.role ≠ .assistant) :
    textsFirst m.content = m.textContents.map .text := by
  have hcalls : m.content.filterMap ContentPart.toolCall? = [] := m.toolCalls_eq_nil h
  rw [textsFirst, hcalls, List.map_nil, List.append_nil]
  rfl

/-- A message without results is rebuilt with its texts first. -/
theorem roundTrip_eq_new {m : Message} (h : m.role ≠ .tool) (draw : Nat) :
    roundTrip json ids draw m = Message.new m.id m.role (textsFirst m.content) := by
  have hblocks : textParts (m.texts.map textBlock) = .ok m.textContents := by
    rw [m.texts_eq]
    exact textParts_textBlocks m.textContents
  rw [roundTrip]
  cases hrole : m.role with
  | tool => exact absurd hrole h
  | assistant =>
    have hto : toFrameworkMessage json m = .ok ⟨some (uuidText m.id), false,
        .blocks (m.texts.map textBlock), .ai (m.toolCalls.map fun call =>
          FrameworkCall.mk (some call.id) call.name call.arguments) false none⟩ := by
      rw [toFrameworkMessage, hrole]
      rfl
    rw [bind_of_ok hto, fromFrameworkMessage, if_neg Bool.false_ne_true]
    simp only [identity_uuidText, FrameworkContent.toBlocks]
    rw [bind_of_ok hblocks, if_neg Bool.false_ne_true,
      bind_of_ok (mapM_fromFrameworkCall m.toolCalls)]
    rfl
  | system =>
    have hto : toFrameworkMessage json m = .ok ⟨some (uuidText m.id), false,
        .blocks (m.texts.map textBlock), .system⟩ := by
      rw [toFrameworkMessage, hrole]
      rfl
    rw [bind_of_ok hto, fromFrameworkMessage, if_neg Bool.false_ne_true]
    simp only [identity_uuidText, FrameworkContent.toBlocks]
    rw [bind_of_ok hblocks, textsFirst_of_ne_assistant (by rw [hrole]; decide)]
  | user =>
    have hto : toFrameworkMessage json m = .ok ⟨some (uuidText m.id), false,
        .blocks (m.texts.map textBlock), .human⟩ := by
      rw [toFrameworkMessage, hrole]
      rfl
    rw [bind_of_ok hto, fromFrameworkMessage, if_neg Bool.false_ne_true]
    simp only [identity_uuidText, FrameworkContent.toBlocks]
    rw [bind_of_ok hblocks, textsFirst_of_ne_assistant (by rw [hrole]; decide)]

theorem roundTrip_iff_of_ne_tool {m : Message} (h : m.role ≠ .tool) (draw : Nat) :
    (∃ m', roundTrip json ids draw m = .ok m' ∧ m'.eq m = true) ↔ MessageReturns json m := by
  have hsize : 1 ≤ (textsFirst m.content).length ∧ (textsFirst m.content).length ≤ 64 := by
    rw [length_textsFirst (m.not_toolResult h)]
    exact m.size
  have hnew : Message.new m.id m.role (textsFirst m.content) =
      .ok ⟨m.id, m.role, textsFirst m.content, hsize, validToolContent_textsFirst h⟩ := by
    rw [Message.new, dif_pos ⟨hsize, validToolContent_textsFirst h⟩]
  have heq : (⟨m.id, m.role, textsFirst m.content, hsize, validToolContent_textsFirst h⟩ :
      Message).eq m = partsEq (textsFirst m.content) m.content := by
    simp only [Message.eq, decide_true, Bool.true_and]
  rw [roundTrip_eq_new h, hnew, MessageReturns, (m.toolParts_of_ne_tool h).2,
    ← partsEq_textsFirst (m.not_toolResult h)]
  constructor
  · rintro ⟨m', hm', hparts⟩
    cases hm'
    exact ⟨heq ▸ hparts, fun r hr => absurd hr List.not_mem_nil⟩
  · rintro ⟨hparts, -⟩
    exact ⟨_, rfl, heq ▸ hparts⟩

-- ---------------------------------------------------------------------------
-- Results
-- ---------------------------------------------------------------------------

/-- A text is one block, or none if it is empty. -/
theorem textParts_singleton {t : PyStr} {parts : List TextContent} :
    textParts [.str t] = .ok parts ↔
      t.length ≤ 32000 ∧ t.encodable = true ∧ parts.map TextContent.text = [t].filter (· ≠ []) := by
  rw [textParts, blockText, bind_of_ok rfl]
  by_cases hnil : t = []
  · subst hnil
    rw [if_pos rfl]
    constructor
    · intro h
      cases h
      exact ⟨Nat.zero_le _, rfl, rfl⟩
    · rintro ⟨-, -, h⟩
      rw [List.map_eq_nil_iff.mp h]
      rfl
  · have hlength : 1 ≤ t.length := List.length_pos_iff.mpr hnil
    have hfilter : [t].filter (fun s => decide (s ≠ [])) = [t] := by simp [hnil]
    rw [if_neg hnil, hfilter]
    by_cases hvalid : isStrField 1 32000 t = true
    · have hbounds := hvalid
      simp only [isStrField, Bool.and_eq_true, decide_eq_true_eq] at hbounds
      rw [TextContent.new, dif_pos hvalid, bind_of_ok rfl, textParts, bind_of_ok rfl]
      constructor
      · intro h
        cases h
        exact ⟨hbounds.1.2, hbounds.2, rfl⟩
      · rintro ⟨-, -, h⟩
        obtain ⟨part, rest, rfl, rfl, hrest⟩ := List.map_eq_cons_iff.mp h
        rw [List.map_eq_nil_iff.mp hrest]
        rfl
    · rw [TextContent.new, dif_neg hvalid]
      refine iff_of_false (fun h => by cases h) fun hparts => hvalid ?_
      obtain ⟨hle, hencodable, -⟩ := hparts
      simp only [isStrField, hle, hencodable, hlength, decide_true, Bool.true_and]

theorem flatMap_text {t : PyStr} {parts : List TextContent}
    (h : parts.map TextContent.text = [t].filter (· ≠ [])) :
    parts.flatMap TextContent.text = t := by
  rw [List.flatMap_def, h]
  by_cases hnil : t = []
  · rw [hnil]
    rfl
  · rw [List.filter_cons_of_pos (by simpa using hnil)]
    exact List.append_nil t

theorem roundTrip_iff_of_tool {m : Message} {part : ToolResultContent} (hrole : m.role = .tool)
    (hcontent : m.content = [.toolResult part]) (draw : Nat) :
    (∃ m', roundTrip json ids draw m = .ok m' ∧ m'.eq m = true) ↔
      ResultReturns json part.result := by
  have hto : toFrameworkMessage json m = (do
      let content ← json.dumps part.result
      return ⟨some (uuidText m.id), false, .str content, .tool part.toolCallId none false⟩) := by
    rw [toFrameworkMessage, hrole, hcontent]
  have hfrom (t : PyStr) : fromFrameworkMessage json ids draw
      ⟨some (uuidText m.id), false, .str t, .tool part.toolCallId none false⟩ = (do
        let parts ← textParts [.str t]
        let result ← readResult json (parts.flatMap TextContent.text)
        let part ← ToolResultContent.new part.toolCallId result
        Message.new m.id .tool [.toolResult part]) := by
    rw [fromFrameworkMessage, if_neg Bool.false_ne_true]
    simp only [identity_uuidText, FrameworkContent.toBlocks]
  constructor
  · -- read off the steps of the way back
    rintro ⟨m', hm', heq⟩
    obtain ⟨native, hnative, hm'⟩ := bind_eq_ok.mp hm'
    rw [hto] at hnative
    obtain ⟨t, ht, hnative⟩ := bind_eq_ok.mp hnative
    cases hnative
    rw [hfrom] at hm'
    obtain ⟨parts, hparts, hm'⟩ := bind_eq_ok.mp hm'
    obtain ⟨hle, hencodable, htexts⟩ := textParts_singleton.mp hparts
    rw [flatMap_text htexts] at hm'
    obtain ⟨v, hv, hm'⟩ := bind_eq_ok.mp hm'
    obtain ⟨part', hpart', hm'⟩ := bind_eq_ok.mp hm'
    have hresult : part'.result = v ∧ v.isJson = true := by
      obtain ⟨hid, hjson, rfl⟩ := ToolResultContent.new_eq_ok.mp hpart'
      exact ⟨rfl, hjson⟩
    refine ⟨t, v, ht, hle, hencodable, hv, hresult.2, ?_⟩
    unfold Message.new at hm'
    split at hm'
    · cases hm'
      simp only [Message.eq, hcontent, partsEq, ContentPart.eq, Bool.and_eq_true] at heq
      rw [← hresult.1]
      exact heq.2.1.2
    · cases hm'
  · -- an empty text is no block, and is read as an empty text again
    rintro ⟨t, v, ht, hle, hencodable, hv, hjson, heq⟩
    have hparts : ∃ parts, textParts [.str t] = .ok parts := by
      by_cases hnil : t = []
      · exact ⟨[], textParts_singleton.mpr ⟨hle, hencodable, by simp [hnil]⟩⟩
      · have hvalid : isStrField 1 32000 t = true := by
          have hlength : 1 ≤ t.length := List.length_pos_iff.mpr hnil
          simp only [isStrField, hle, hencodable, hlength, decide_true, Bool.true_and]
        exact ⟨[⟨t, hvalid⟩], textParts_singleton.mpr ⟨hle, hencodable, by simp [hnil]⟩⟩
    obtain ⟨parts, hparts⟩ := hparts
    have htexts := (textParts_singleton.mp hparts).2.2
    have hpart : ToolResultContent.new part.toolCallId v = .ok ⟨part.toolCallId, v, part.validId,
        hjson⟩ := ToolResultContent.new_eq_ok.mpr ⟨part.validId, hjson, rfl⟩
    have hnative : toFrameworkMessage json m =
        .ok ⟨some (uuidText m.id), false, .str t, .tool part.toolCallId none false⟩ := by
      rw [hto]
      exact bind_of_ok ht _
    rw [roundTrip, bind_of_ok hnative, hfrom, bind_of_ok hparts, flatMap_text htexts,
      bind_of_ok hv, bind_of_ok hpart]
    refine ⟨⟨m.id, .tool, [.toolResult ⟨part.toolCallId, v, part.validId, hjson⟩],
      ⟨Nat.le_refl 1, Nat.succ_le_succ (Nat.zero_le 63)⟩, rfl⟩, rfl, ?_⟩
    simp only [Message.eq, hrole, hcontent, partsEq, ContentPart.eq, heq, decide_true,
      Bool.true_and]

/-- A message comes back as it was if and only if its calls follow its texts and its result can be
read back. -/
theorem roundTrip_iff {m : Message} (hsingle : m.role = .tool → m.content.length = 1) (draw : Nat) :
    (∃ m', roundTrip json ids draw m = .ok m' ∧ m'.eq m = true) ↔ MessageReturns json m := by
  by_cases hrole : m.role = .tool
  · obtain ⟨part, hpart⟩ := List.length_eq_one_iff.mp (hsingle hrole)
    obtain ⟨r, rfl⟩ := m.isToolResult_of_tool hrole part (by rw [hpart]; exact List.mem_cons_self)
    have hresults : m.toolResults = [r] := by
      rw [Message.toolResults, hpart]
      rfl
    rw [roundTrip_iff_of_tool hrole hpart, MessageReturns, hpart, hresults]
    simp only [List.pairwise_singleton, true_and, List.mem_singleton, forall_eq]
  · exact roundTrip_iff_of_ne_tool hrole draw

-- ---------------------------------------------------------------------------
-- Output
-- ---------------------------------------------------------------------------

/-- A tool message has a name or a call, the counts of an answer are no negative numbers. -/
def Supported (names : PyStr → Option PyStr) (m : BaseMessage) : Prop :=
  match m.kind with
  | .tool toolCallId name _ =>
    ∃ n, toolName names toolCallId name = some n ∧ n ≠ [] ∧ n.encodable = true
  | .ai _ _ (some usage) => 0 ≤ usage.inputTokens ∧ 0 ≤ usage.outputTokens
  | _ => True

/-- New messages that the output supports, with their translations. -/
structure Translates (json : FrameworkJson) (ids : FrameworkIds) (request : InvocationInput)
    (new : List BaseMessage) (translations : List Message) : Prop where
  nonempty : new ≠ []
  translated :
    convertAll json ids request.messages.length (new.map .native) = .ok translations
  supported : ∀ m ∈ new, Supported (table (callNames (request.messages ++ translations))) m

/-- The messages of the request come back as they were, and the output of a framework that adds to
them has the translations of what it adds. -/
structure ExactOutput (json : FrameworkJson) (ids : FrameworkIds) (request : InvocationInput) :
    Prop where
  inverse : ∀ m ∈ request.messages, ∀ draw,
    ∃ m', roundTrip json ids draw m = .ok m' ∧ m'.eq m = true
  output : ∀ new translations, Translates json ids request new translations →
    ∃ natives output, frameworkInput json request = .ok natives ∧
      frameworkOutput json ids (.sequence ((natives ++ new).map .native)) request = .ok output ∧
        output.messages = translations

theorem convertAll_append {draw : Nat} {as bs : List FrameworkItem} {ms ms' : List Message}
    (ha : convertAll json ids draw as = .ok ms)
    (hb : convertAll json ids (draw + as.length) bs = .ok ms') :
    convertAll json ids draw (as ++ bs) = .ok (ms ++ ms') := by
  induction as generalizing draw ms with
  | nil =>
    cases ha
    exact hb
  | cons a as ih =>
    obtain ⟨m, hm, ha⟩ := bind_eq_ok.mp ha
    obtain ⟨ms₁, hms, ha⟩ := bind_eq_ok.mp ha
    cases ha
    have hlength : draw + (a :: as).length = draw + 1 + as.length := by
      rw [List.length_cons]
      omega
    rw [hlength] at hb
    rw [List.cons_append, convertAll, bind_of_ok hm, bind_of_ok (ih hms hb)]
    rfl

theorem messagesEq_length {as bs : List Message} (h : messagesEq as bs = true) :
    as.length = bs.length := by
  induction as generalizing bs with
  | nil =>
    cases bs with
    | nil => rfl
    | cons b bs => cases h
  | cons a as ih =>
    cases bs with
    | nil => cases h
    | cons b bs =>
      rw [messagesEq, Bool.and_eq_true] at h
      rw [List.length_cons, List.length_cons, ih h.2]

/-- Messages that come back as they were come back so all together. -/
theorem exists_natives {ms : List Message} (h : ∀ m ∈ ms, ∀ draw,
    ∃ m', roundTrip json ids draw m = .ok m' ∧ m'.eq m = true) :
    ∃ natives, ms.mapM (toFrameworkMessage json) = .ok natives ∧ natives.length = ms.length ∧
      ∀ draw, ∃ ms', convertAll json ids draw (natives.map .native) = .ok ms' ∧
        messagesEq ms' ms = true := by
  induction ms with
  | nil => exact ⟨[], rfl, rfl, fun draw => ⟨[], rfl, rfl⟩⟩
  | cons m ms ih =>
    obtain ⟨natives, hnatives, hlength, hback⟩ := ih fun m' hm' => h m' (List.mem_cons_of_mem m hm')
    obtain ⟨_, hround, -⟩ := h m List.mem_cons_self 0
    obtain ⟨native, hnative, -⟩ := bind_eq_ok.mp hround
    refine ⟨native :: natives, ?_, by rw [List.length_cons, hlength, List.length_cons], ?_⟩
    · rw [List.mapM_cons, bind_of_ok hnative, bind_of_ok hnatives]
      rfl
    · intro draw
      obtain ⟨m', hround, heq⟩ := h m List.mem_cons_self draw
      obtain ⟨native', hnative', hfrom⟩ := bind_eq_ok.mp hround
      rw [hnative] at hnative'
      cases hnative'
      obtain ⟨ms', hms', heqs⟩ := hback (draw + 1)
      refine ⟨m' :: ms', ?_, by rw [messagesEq, heq, heqs]; rfl⟩
      rw [List.map_cons, convertAll,
        bind_of_ok (show convert json ids draw (.native native) = .ok m'
        from hfrom), bind_of_ok hms']
      rfl

/-- One round of the loop over supported messages. -/
theorem collect_succeeds {names : PyStr → Option PyStr} {native : BaseMessage} {m : Message}
    {draw : Nat} (hsupported : Supported names native)
    (hconvert : convert json ids draw (.native native) = .ok m) (acc : Collected) :
    ∃ acc', collect ids names acc (.native native, m) = .ok acc' := by
  obtain ⟨id, chunk, content, kind⟩ := native
  cases kind with
  | human => exact ⟨acc, rfl⟩
  | system => exact ⟨acc, rfl⟩
  | other => exact ⟨acc, rfl⟩
  | ai calls invalidCalls usage =>
    cases usage with
    | none => exact ⟨acc, rfl⟩
    | some usage =>
      have hcounts : 0 ≤ usage.inputTokens ∧ 0 ≤ usage.outputTokens := hsupported
      have hnew : Usage.new usage = .ok ⟨usage.inputTokens.toNat, usage.outputTokens.toNat⟩ := by
        rw [Usage.new, if_pos hcounts]
      exact ⟨_, bind_of_ok hnew _⟩
  | tool toolCallId name failed =>
    obtain ⟨n, hname, hne, hencodable⟩ := hsupported
    obtain ⟨part, hcontent, -⟩ := content_of_convert hconvert rfl
    have hresult : ∃ r, toolResultOf ids names toolCallId name failed m = .ok r := by
      cases n with
      | nil => exact absurd rfl hne
      | cons c cs =>
        rw [toolResultOf, hname, hcontent]
        simp only
        rw [if_pos hencodable]
        exact ⟨_, rfl⟩
    obtain ⟨r, hr⟩ := hresult
    exact ⟨_, bind_of_ok hr _⟩

theorem foldlM_collect_succeeds {names : PyStr → Option PyStr} {new : List BaseMessage}
    {draw : Nat} {ms : List Message} (hsupported : ∀ m ∈ new, Supported names m)
    (hconvert : convertAll json ids draw (new.map .native) = .ok ms) (acc : Collected) :
    ∃ acc', ((new.map FrameworkItem.native).zip ms).foldlM (collect ids names) acc = .ok acc' := by
  induction new generalizing draw ms acc with
  | nil => exact ⟨acc, rfl⟩
  | cons native new ih =>
    obtain ⟨m, hm, hconvert⟩ := bind_eq_ok.mp hconvert
    obtain ⟨ms', hms', hconvert⟩ := bind_eq_ok.mp hconvert
    cases hconvert
    obtain ⟨acc₁, hacc⟩ := collect_succeeds (hsupported native List.mem_cons_self) hm acc
    obtain ⟨acc', hacc'⟩ := ih (fun m hm => hsupported m (List.mem_cons_of_mem native hm)) hms' acc₁
    refine ⟨acc', ?_⟩
    rw [List.map_cons, List.zip_cons_cons, List.foldlM_cons, bind_of_ok hacc]
    exact hacc'

/-- A table of names does not see that messages are repeated. -/
theorem table_repeat {as as' bs : List Message} (h : messagesEq as' as = true) :
    table (callNames (as ++ (as' ++ bs))) = table (callNames (as ++ bs)) := by
  funext id
  refine Option.ext fun name => ?_
  rw [table_eq_some, table_eq_some, callNames_append, callNames_append, callNames_append,
    callNames_of_messagesEq h]
  exact latest_repeat

theorem frameworkOutput_of_inverse {request : InvocationInput}
    (h : ∀ m ∈ request.messages, ∀ draw, ∃ m', roundTrip json ids draw m = .ok m' ∧ m'.eq m = true)
    {new : List BaseMessage} {translations : List Message}
    (hnew : Translates json ids request new translations) :
    ∃ natives output, frameworkInput json request = .ok natives ∧
      frameworkOutput json ids (.sequence ((natives ++ new).map .native)) request = .ok output ∧
        output.messages = translations := by
  obtain ⟨natives, hnatives, hlength, hback⟩ := exists_natives h
  obtain ⟨ms', hms', heq⟩ := hback 0
  have hms'length : ms'.length = request.messages.length := messagesEq_length heq
  have htranslated : convertAll json ids (0 + (natives.map FrameworkItem.native).length)
      (new.map .native) = .ok translations := by
    rw [List.length_map, hlength, Nat.zero_add]
    exact hnew.translated
  have hconverted : convertAll json ids 0 ((natives ++ new).map .native) =
      .ok (ms' ++ translations) := by
    rw [List.map_append]
    exact convertAll_append hms' htranslated
  have hrepeats : repeatsRequest request (ms' ++ translations) = true := by
    rw [repeatsRequest, ← hms'length, List.take_left']
    · exact heq
    · rfl
  have hleading : prefixLength request (ms' ++ translations) = request.messages.length := by
    rw [prefixLength, if_pos hrepeats]
  have horiginals : ((natives ++ new).map FrameworkItem.native).drop request.messages.length =
      new.map .native := by
    rw [List.map_append, List.drop_left' (by rw [List.length_map, hlength])]
  have hdrop : (ms' ++ translations).drop request.messages.length = translations :=
    List.drop_left' hms'length
  have hsupported : ∀ m ∈ new,
      Supported (table (callNames (request.messages ++ (ms' ++ translations)))) m := by
    rw [table_repeat heq]
    exact hnew.supported
  obtain ⟨collected, hcollected⟩ := foldlM_collect_succeeds hsupported hnew.translated ⟨[], none⟩
  have htranslations : translations ≠ [] := by
    intro hnil
    have hforall := (convertAll_forall₂ hnew.translated).length_eq
    rw [hnil, List.length_map, List.length_nil] at hforall
    exact hnew.nonempty (List.length_eq_zero_iff.mp hforall)
  refine ⟨natives, ⟨translations, collected.results, collected.usage, []⟩, hnatives, ?_, rfl⟩
  rw [frameworkOutput, FrameworkValue.envelope, bind_of_ok rfl]
  simp only
  rw [bind_of_ok hconverted]
  simp only [hleading, horiginals, hdrop]
  rw [bind_of_ok hcollected, messagesOutput]
  simp only [hrepeats, if_true, hdrop]
  exact InvocationOutput.new_eq_ok.mpr ⟨htranslations, rfl⟩

/-- The output has the new messages and nothing else exactly if every message of the request comes
back as it was. From right to left, the comparison with the request succeeds and its prefix is
dropped; from left to right, `ExactOutput.inverse` is about each message by itself, and
`roundTrip_iff` decides it. -/
theorem frameworkOutput_iff (json : FrameworkJson) (ids : FrameworkIds) (request : InvocationInput)
    (hsingle : ∀ m ∈ request.messages, m.role = .tool → m.content.length = 1) :
    ExactOutput json ids request ↔ ∀ m ∈ request.messages, MessageReturns json m := by
  constructor
  · intro h m hm
    exact (roundTrip_iff (hsingle m hm) 0).mp (h.inverse m hm 0)
  · intro h
    have hinverse : ∀ m ∈ request.messages, ∀ draw,
        ∃ m', roundTrip json ids draw m = .ok m' ∧ m'.eq m = true := fun m hm draw =>
      (roundTrip_iff (hsingle m hm) draw).mpr (h m hm)
    exact ⟨hinverse, fun new translations hnew => frameworkOutput_of_inverse hinverse hnew⟩

namespace Sample

/-- An answer of the model that calls a tool and then says something. -/
def callThenText : Message where
  id := 1
  role := .assistant
  content := [.toolCall ⟨nameA, nameA, [], isStrField_nameA, isToolName_nameA, isJson_empty⟩,
    .text ⟨nameA, rfl⟩]
  size := ⟨by decide, by decide⟩
  validContent := rfl

def callThenTextRequest : InvocationInput := ⟨⟨1, 2, none⟩, [callThenText], []⟩

def nativeHuman : BaseMessage := ⟨none, false, .str nameB, .human⟩

/-- The state of a framework that adds one message to the messages of the request. -/
def callThenTextOutput : Except Exn InvocationOutput := do
  let natives ← frameworkInput nullJson callThenTextRequest
  frameworkOutput nullJson countingIds
    (.sequence ((natives ++ [nativeHuman]).map .native)) callThenTextRequest

end Sample

namespace Sample

/-- `json`, on the texts of some values and on texts that are no JSON. -/
def jsonOf (values : List PyValue) : FrameworkJson where
  dumps v :=
    match v.dumps? (.plain false) with
    | some t => .ok t
    | none => .error (.py .valueError "Exceeds the limit for integer string conversion")
  loads t := .ok (values.find? fun v => v.dumps (.plain false) = t)

/-- `{"a": 1}`. -/
def found : PyValue := .dict [(.str nameA, .int 1)]

def roundJson : FrameworkJson := jsonOf [found, .none]

/-- The model says something and calls two tools, which answer one after the other. -/
def askedTools : List Message :=
  [{ id := 1, role := .system, content := [.text ⟨nameB, rfl⟩], size := one_part,
     validContent := rfl },
   { id := 2, role := .user, content := [.text ⟨nameA, rfl⟩, .text ⟨nameB, rfl⟩],
     size := ⟨by decide, by decide⟩, validContent := rfl },
   { id := 3, role := .assistant,
     content := [.text ⟨nameB, rfl⟩,
       .toolCall ⟨nameA, nameA, [(.str nameA, .int 1)], rfl, rfl, rfl⟩,
       .toolCall ⟨nameB, nameB, [], rfl, rfl, rfl⟩],
     size := ⟨by decide, by decide⟩, validContent := rfl },
   { id := 4, role := .tool, content := [.toolResult ⟨nameA, found, rfl, rfl⟩], size := one_part,
     validContent := rfl },
   { id := 5, role := .tool, content := [.toolResult ⟨nameB, .none, rfl, rfl⟩], size := one_part,
     validContent := rfl }]

def roundRequest : InvocationInput := ⟨⟨1, 2, none⟩, askedTools, []⟩

/-- A further round under an identifier of the history, and an answer. -/
def furtherRound : List BaseMessage :=
  [⟨none, false, .blocks [.str nameA], .ai [⟨some nameA, nameB, []⟩] false (some ⟨3, 1⟩)⟩,
   ⟨none, false, .str (PyStr.ofString "null"), .tool nameA none true⟩,
   ⟨none, false, .str nameB, .ai [] false (some ⟨5, 2⟩)⟩]

/-- What it is translated to. -/
def furtherMessages : List Message :=
  match convertAll roundJson countingIds 5 (furtherRound.map .native) with
  | .ok messages => messages
  | .error _ => []

theorem asked_returns : ∀ m ∈ askedTools, MessageReturns roundJson m := by
  have hno {m : Message} (hm : m.toolResults = []) :
      ∀ r ∈ m.toolResults, ResultReturns roundJson r.result := by
    rw [hm]
    exact fun r hr => absurd hr List.not_mem_nil
  have hfound : ResultReturns roundJson found :=
    ⟨_, found, rfl, by decide, rfl, rfl, rfl, rfl⟩
  have hnull : ResultReturns roundJson .none := ⟨_, .none, rfl, by decide, rfl, rfl, rfl, rfl⟩
  simp only [askedTools, List.forall_mem_cons]
  refine ⟨⟨by simp, hno rfl⟩, ⟨by simp [ContentPart.isToolCall], hno rfl⟩, ⟨?_, hno rfl⟩,
    ⟨by simp, ?_⟩, ⟨by simp, ?_⟩, fun m hm => absurd hm List.not_mem_nil⟩
  · simp [ContentPart.isToolCall, ContentPart.text?]
  · intro r hr
    rw [List.mem_singleton.mp hr]
    exact hfound
  · intro r hr
    rw [List.mem_singleton.mp hr]
    exact hnull

theorem translates_further :
    Translates roundJson countingIds roundRequest furtherRound furtherMessages where
  nonempty := List.cons_ne_nil _ _
  translated := rfl
  supported := by
    simp only [furtherRound, List.forall_mem_cons]
    refine ⟨⟨by decide, by decide⟩, ⟨nameB, rfl, by decide, rfl⟩, ⟨by decide, by decide⟩, ?_⟩
    exact fun m hm => absurd hm List.not_mem_nil

end Sample

/-- A history of five messages with two results, to which a framework adds a further round. -/
theorem frameworkOutput_exact_round : ∃ natives output,
    frameworkInput Sample.roundJson Sample.roundRequest = .ok natives ∧
      frameworkOutput Sample.roundJson Sample.countingIds
        (.sequence ((natives ++ Sample.furtherRound).map .native)) Sample.roundRequest =
          .ok output ∧
      output.messages = Sample.furtherMessages ∧
        output.messages.map Message.role = [.assistant, .tool, .assistant] := by
  have hsingle : ∀ m ∈ Sample.roundRequest.messages, m.role = .tool → m.content.length = 1 := by
    decide
  have hexact : ExactOutput Sample.roundJson Sample.countingIds Sample.roundRequest :=
    (frameworkOutput_iff _ _ _ hsingle).mpr Sample.asked_returns
  obtain ⟨natives, output, hnatives, houtput, hmessages⟩ :=
    hexact.output _ _ Sample.translates_further
  refine ⟨natives, output, hnatives, houtput, hmessages, ?_⟩
  rw [hmessages]
  rfl

/-- A text after a call comes back before it, and the output has the whole history again. -/
theorem call_then_text_repeated :
    ¬ExactOutput Sample.nullJson Sample.countingIds Sample.callThenTextRequest ∧
      ∃ output, Sample.callThenTextOutput = .ok output ∧ output.messages.length = 2 := by
  constructor
  · intro h
    have hinverse := h.inverse Sample.callThenText List.mem_cons_self 0
    have hfaithful :=
      (roundTrip_iff_of_ne_tool (m := Sample.callThenText) (by decide) 0).mp hinverse
    have hpair := (List.pairwise_cons.mp hfaithful.1).1 _ List.mem_cons_self rfl
    cases hpair
  · exact ⟨Sample.resultOf Sample.callThenTextOutput, rfl, rfl⟩

end AgentRuntimeKit
