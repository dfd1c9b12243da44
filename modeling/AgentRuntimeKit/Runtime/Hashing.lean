import AgentRuntimeKit.Lib.JsonOrder
import AgentRuntimeKit.Model.Documents

/-!
# Request hashing

`AgentRuntime.request_hash` (`runtime.py`): the digest of the canonical text of a request without
its identifiers. `sha256` is `hashlib.sha256(…).hexdigest()`. Three limits make it raise:
`model_dump` goes 255 levels into a value of type `Any`, `json.dumps` converts no integer of more
than 4,300 digits, and it recurs into the payload as deeply as the interpreter lets it. How deep
that is depends on the frames that the caller already has on the stack, so `maxDepth` is a
parameter, and two calls have one each.
-/

namespace AgentRuntimeKit

open Lib
open PyValue (object Clean clean_list clean_dict)

namespace Lib.PyValue

/-- `d.pop(key, None)`, and what is left of `d`. -/
def pop (name : String) : PyValue → PyValue
  | dict kvs => dict (kvs.filter fun kv => kv.1 ≠ key name)
  | v => v

end Lib.PyValue

/-- What `request_hash` makes of a request: `model_dump(mode="json", exclude={"request_id"})`,
with the `id` of each message popped. -/
def RuntimeRequest.payload (request : RuntimeRequest) : PyValue :=
  object [("metadata", request.metadata.dict.jsonForm), ("contract_version", PyValue.text "v1"),
    ("thread_id", dumpOptional uuidValue request.threadId),
    ("user_id", dumpOptional PyValue.text request.userId),
    ("messages", .list (request.messages.map fun m => m.modelDump.pop "id"))]

/-- `model_dump` writes the request. -/
def RuntimeRequest.dumpable (request : RuntimeRequest) : Bool :=
  request.metadata.dumpable && request.messages.all Message.dumpable

/-- `request_hash`. It raises where a payload nests too deeply or holds an integer that is too
long. -/
def RuntimeRequest.requestHash (sha256 : List Byte → String) (maxDepth : Nat)
    (request : RuntimeRequest) : Option String :=
  if request.dumpable && decide (request.payload.depth ≤ maxDepth) then
    (request.payload.dumps? .canonical).map fun encoded => sha256 (Utf8.encode encoded)
  else none

/-- `request_hash` returns. -/
structure RuntimeRequest.Encodable (maxDepth : Nat) (request : RuntimeRequest) : Prop where
  printable : request.payload.printable = true
  dumpable : request.dumpable = true
  depth : request.payload.depth ≤ maxDepth

/-- `validate_metadata`, and the sizes of the fields. -/
def RuntimeRequest.isValid (request : RuntimeRequest) : Bool :=
  validateMetadata request.metadata && request.userId.all (fun u => u.length ≤ 256) &&
    1 ≤ request.messages.length && request.messages.length ≤ 100

-- ---------------------------------------------------------------------------
-- The payload is lossless JSON
-- ---------------------------------------------------------------------------

/-- The payload of a tool part. -/
def ContentPart.payload : ContentPart → PyValue
  | text _ => .none
  | toolCall call => .dict call.arguments
  | toolResult part => part.result

/-- The metadata and the tool payloads are JSON with strings that hold no surrogate. -/
structure RuntimeRequest.IsJson (request : RuntimeRequest) : Prop where
  metadata : request.metadata.dict.Clean
  parts : ∀ m ∈ request.messages, ∀ p ∈ m.content, p.payload.Clean

theorem clean_str {s : PyStr} (h : s.encodable = true) : (PyValue.str s).Clean := ⟨rfl, h⟩

theorem clean_text (s : String) : (PyValue.text s).Clean := clean_str (PyStr.encodable_ofString s)

theorem clean_none : PyValue.none.Clean := ⟨rfl, rfl⟩

theorem clean_object {fields : List (String × PyValue)} (hnames : (fields.map Prod.fst).Nodup)
    (h : ∀ f ∈ fields, f.2.Clean) : (object fields).Clean := by
  refine clean_dict.mpr ⟨?_, List.forall_mem_map.mpr fun f hf => ?_⟩
  · have hkeys := hnames.map fun a b hab => PyValue.key_injective (a := a) (b := b) hab
    rwa [List.map_map] at hkeys ⊢
  · exact ⟨⟨_, rfl, PyStr.encodable_ofString f.1⟩, h f hf⟩

theorem clean_dumpOptional {α : Type} {write : α → PyValue} (h : ∀ x, (write x).Clean)
    (o : Option α) : (dumpOptional write o).Clean := by
  cases o with
  | none => exact clean_none
  | some x => exact h x

theorem encodable_of_forall {s : PyStr} (h : ∀ c ∈ s, c.val < 128) : s.encodable = true :=
  PyValue.IsAscii.encodable h

theorem clean_uuidValue (u : Uuid) : (uuidValue u).Clean := by
  refine clean_str (encodable_of_forall fun c hc => ?_)
  rcases mem_groupDigits hc with rfl | hc
  · decide
  · obtain ⟨d, hd, rfl⟩ := mem_hexDigits hc
    exact PyValue.isAscii_digitChar d hd

theorem encodable_of_isStrField {lo hi : Nat} {s : PyStr} (h : isStrField lo hi s = true) :
    s.encodable = true := by
  rw [isStrField, Bool.and_eq_true] at h
  exact h.2

theorem encodable_of_isToolName {s : PyStr} (h : isToolName s = true) : s.encodable = true := by
  have hletter : ∀ c : CodePoint, isLetter c = true → c.val < 128 := by
    intro c hc
    simp only [isLetter, Bool.or_eq_true, Bool.and_eq_true, decide_eq_true_eq] at hc
    omega
  have hchar : ∀ c : CodePoint, isNameChar c = true → c.val < 128 := by
    intro c hc
    simp only [isNameChar, isLetter, Bool.or_eq_true, Bool.and_eq_true, decide_eq_true_eq] at hc
    omega
  cases s with
  | nil => exact absurd h (by simp [isToolName])
  | cons c cs =>
    rw [isToolName, Bool.and_eq_true, Bool.and_eq_true] at h
    refine encodable_of_forall (List.forall_mem_cons.mpr ⟨hletter c h.1.1, fun a ha => ?_⟩)
    exact hchar a (List.all_eq_true.mp h.1.2 a ha)

theorem ContentPart.clean_modelDump {p : ContentPart} (h : p.payload.Clean) :
    p.modelDump.Clean := by
  cases p with
  | text part =>
    refine clean_object (by simp) ?_
    simp only [List.forall_mem_cons]
    exact ⟨clean_text _, clean_str (encodable_of_isStrField part.valid), by simp⟩
  | toolCall call =>
    have harguments : (PyValue.dict call.arguments).jsonForm.Clean := by
      rw [PyValue.jsonForm_of_isJson _ call.validArguments]
      exact h
    have hcall : call.modelDump.Clean := by
      refine clean_object (by simp) ?_
      simp only [List.forall_mem_cons]
      exact ⟨clean_str (encodable_of_isStrField call.validId),
        clean_str (encodable_of_isToolName call.validName), harguments, by simp⟩
    refine clean_object (by simp) ?_
    simp only [List.forall_mem_cons]
    exact ⟨clean_text _, hcall, by simp⟩
  | toolResult part =>
    have hresult : part.result.jsonForm.Clean := by
      rw [PyValue.jsonForm_of_isJson _ part.validResult]
      exact h
    refine clean_object (by simp) ?_
    simp only [List.forall_mem_cons]
    exact ⟨clean_text _, clean_str (encodable_of_isStrField part.validId), hresult, by simp⟩

theorem clean_pop {v : PyValue} (h : v.Clean) (name : String) : (v.pop name).Clean := by
  cases v with
  | dict kvs =>
    obtain ⟨hnodup, hentries⟩ := clean_dict.mp h
    exact clean_dict.mpr ⟨(List.filter_sublist.map Prod.fst).nodup hnodup,
      fun kv hkv => hentries kv (List.mem_filter.mp hkv).1⟩
  | _ => exact h

theorem Message.clean_modelDump {m : Message} (h : ∀ p ∈ m.content, p.payload.Clean) :
    m.modelDump.Clean := by
  have hcontent : (PyValue.list (m.content.map ContentPart.modelDump)).Clean :=
    clean_list.mpr (List.forall_mem_map.mpr fun p hp => ContentPart.clean_modelDump (h p hp))
  refine clean_object (by simp) ?_
  simp only [List.forall_mem_cons]
  exact ⟨clean_uuidValue _, clean_text _, hcontent, by simp⟩

theorem RuntimeRequest.IsJson.clean {request : RuntimeRequest} (h : request.IsJson) :
    request.payload.Clean := by
  have hmetadata : request.metadata.dict.jsonForm.Clean := by
    rw [PyValue.jsonForm_of_isJson _ h.metadata.json]
    exact h.metadata
  have hmessages : (PyValue.list (request.messages.map fun m => m.modelDump.pop "id")).Clean :=
    clean_list.mpr (List.forall_mem_map.mpr fun m hm =>
      clean_pop (Message.clean_modelDump (h.parts m hm)) "id")
  refine clean_object (by simp) ?_
  simp only [List.forall_mem_cons]
  exact ⟨hmetadata, clean_text _, clean_dumpOptional clean_uuidValue _,
    clean_dumpOptional clean_text _, hmessages, by simp⟩

-- ---------------------------------------------------------------------------
-- The digest
-- ---------------------------------------------------------------------------

/-- What is hashed is ASCII text. -/
theorem decode_payload (v : PyValue) :
    Utf8.decode (Utf8.encode (v.dumps .canonical)) = .ok (v.dumps .canonical) := by
  rw [PyValue.dumps_canonical]
  exact Utf8.decode_encode (PyValue.dumps_ascii v.sorted).encodable

variable {sha256 : List Byte → String} {maxDepth : Nat} {request : RuntimeRequest} {digest : String}

theorem RuntimeRequest.requestHash_eq_some : request.requestHash sha256 maxDepth = some digest ↔
    request.Encodable maxDepth ∧
      sha256 (Utf8.encode (request.payload.dumps .canonical)) = digest := by
  rw [requestHash, PyValue.dumps?]
  by_cases hbounds : (request.dumpable && decide (request.payload.depth ≤ maxDepth)) = true
  · obtain ⟨hdumpable, hdepth⟩ := (Bool.and_eq_true _ _).mp hbounds
    by_cases hprintable : request.payload.printable = true
    · rw [if_pos hbounds, if_pos hprintable, Option.map_some, Option.some.injEq]
      exact (and_iff_right ⟨hprintable, hdumpable, of_decide_eq_true hdepth⟩).symm
    · rw [if_pos hbounds, if_neg hprintable, Option.map_none]
      exact iff_of_false (by simp) fun h => hprintable h.1.printable
  · rw [if_neg hbounds]
    refine iff_of_false (by simp) fun h => hbounds ?_
    rw [Bool.and_eq_true, decide_eq_true_eq]
    exact ⟨h.1.dumpable, h.1.depth⟩

end AgentRuntimeKit
