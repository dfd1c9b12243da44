import AgentRuntimeKit.Clients.Payloads
import AgentRuntimeKit.Clients.Streaming
import AgentRuntimeKit.Lib.Surrogates

/-!
# What a payload says

Each of the three adapters turns a conversation into a request payload of its provider. A payload is
complete if the provider reads from it every text and every tool part, each once and in its place,
and nothing else.

`view` reads a payload as the documentation of a provider does: the texts and tool entries in their
order. A `WireFormat` says how a provider refers to a call, and how arguments and results are
written: as an object, as a text of JSON, or wrapped. `Complete` compares the view with the
conversation:

* one entry for each tool part, with its identifier, its name where the format has one, and its
  value (`Carries`);
* the system texts, and the texts of everybody else, in their order; an adapter may join some of
  them with line feeds into one (`Spells`).

Nothing is assumed of the conversation. Where a tool message has more than one result, the adapter
of OpenAI writes only the first; where `json.dumps` fails on a value, or `json.loads` reads another
one from its text, the value is lost (`Survives`). `json` is a parameter: the adapter of OpenAI
writes arguments and results with it, that of Anthropic results, and that of Gemini nothing.

Each adapter maps the messages one by one, so its view is a concatenation, and `Complete` is decided
message by message.

## Results

* `OpenAI.complete_iff`    — complete iff every tool message has one result and every payload
  survives `json`;
* `Anthropic.complete_iff` — complete iff every result survives `json`;
* `Gemini.complete`        — complete if every result has a call;
* `encodersComplete_iff`   — all three at once.
* `survives_iff`, `payloads_survive_iff` — which values survive CPython's `json`, of which
  `IsStandard` is assumed; `isStandard_standard` shows that it can be had.
-/

namespace AgentRuntimeKit

open Lib
open PyValue (text)

namespace Lib.PyValue

/-- The entries of an object. -/
def entries : PyValue → JsonObject
  | .dict kvs => kvs
  | _ => []

/-- The value under a name. -/
def get (v : PyValue) (name : String) : PyValue := JsonObject.get (entries v) name

/-- The values of an array. -/
def items : PyValue → List PyValue
  | .list xs => xs
  | _ => []

end Lib.PyValue

@[simp] theorem get_object (fields : List (String × PyValue)) (name : String) :
    PyValue.get (.object fields) name = (fields.lookup name).getD .none := by
  rw [PyValue.get, JsonObject.get, PyValue.object, PyValue.entries, PyValue.field_map]

@[simp] theorem lookup_field (name name' : String) (v : PyValue)
    (fields : List (String × PyValue)) :
    List.lookup name ((name', v) :: fields) =
      if name = name' then some v else fields.lookup name := by
  rw [List.lookup_cons]
  by_cases h : name = name'
  · rw [if_pos h, beq_iff_eq.mpr h]
  · rw [if_neg h, beq_eq_false_iff_ne.mpr h]

@[simp] theorem get_dict (entries : JsonObject) (name : String) :
    PyValue.get (.dict entries) name = entries.get name := rfl

@[simp] theorem get_none (name : String) : PyValue.get .none name = .none := rfl

@[simp] theorem items_list (xs : List PyValue) : PyValue.items (.list xs) = xs := rfl

@[simp] theorem items_none : PyValue.items .none = [] := rfl

-- ---------------------------------------------------------------------------
-- Views
-- ---------------------------------------------------------------------------

/-- A tool entry of a payload. -/
inductive WireEntry
  | call (id : Option PyStr) (name : PyStr) (arguments : PyValue)
  | result (reference : PyStr) (content : PyValue)

structure WireView where
  system : List PyStr
  texts : List PyStr
  entries : List WireEntry

namespace OpenAI

def callEntry (v : PyValue) : Option WireEntry :=
  match v.get "id", (v.get "function").get "name" with
  | .str id, .str name => some (.call (some id) name ((v.get "function").get "arguments"))
  | _, _ => none

def hasRole (role : String) (v : PyValue) : Bool := (v.get "role").asText = some role

def resultEntry (v : PyValue) : Option WireEntry :=
  match hasRole "tool" v, v.get "tool_call_id" with
  | true, .str id => some (.result id (v.get "content"))
  | _, _ => none

def messageEntries (v : PyValue) : List WireEntry :=
  (v.get "tool_calls").items.filterMap callEntry ++ (resultEntry v).toList

def messageTexts (v : PyValue) : List PyStr :=
  if hasRole "tool" v then [] else (v.get "content").asStr.toList

def view (payload : PyValue) : WireView where
  system := (payload.get "messages").items.flatMap fun v =>
    if hasRole "system" v then messageTexts v else []
  texts := (payload.get "messages").items.flatMap fun v =>
    if hasRole "system" v then [] else messageTexts v
  entries := (payload.get "messages").items.flatMap messageEntries

end OpenAI

namespace Anthropic

def partEntry (v : PyValue) : Option WireEntry :=
  match (v.get "type").asText, v.get "id", v.get "name", v.get "tool_use_id" with
  | some "tool_use", .str id, .str name, _ => some (.call (some id) name (v.get "input"))
  | some "tool_result", _, _, .str id => some (.result id (v.get "content"))
  | _, _, _, _ => none

def partText (v : PyValue) : Option PyStr :=
  if (v.get "type").asText = some "text" then (v.get "text").asStr else none

def messageParts (v : PyValue) : List PyValue := (v.get "content").items

def view (payload : PyValue) : WireView where
  system := (payload.get "system").asStr.toList
  texts := ((payload.get "messages").items.flatMap messageParts).filterMap partText
  entries := ((payload.get "messages").items.flatMap messageParts).filterMap partEntry

end Anthropic

namespace Gemini

def partEntry (v : PyValue) : Option WireEntry :=
  match (v.get "functionCall").get "name", (v.get "functionResponse").get "name" with
  | .str name, _ => some (.call none name ((v.get "functionCall").get "args"))
  | _, .str name => some (.result name ((v.get "functionResponse").get "response"))
  | _, _ => none

def partText (v : PyValue) : Option PyStr := (v.get "text").asStr

def messageParts (v : PyValue) : List PyValue := (v.get "parts").items

def view (payload : PyValue) : WireView where
  system := (((payload.get "systemInstruction").get "parts").items).filterMap partText
  texts := ((payload.get "contents").items.flatMap messageParts).filterMap partText
  entries := ((payload.get "contents").items.flatMap messageParts).filterMap partEntry

end Gemini

-- ---------------------------------------------------------------------------
-- Completeness
-- ---------------------------------------------------------------------------

/-- A tool call or a tool result. -/
inductive ToolPart
  | call (c : ToolCall)
  | result (part : ToolResultContent)

/-- The arguments, or the result. -/
def ToolPart.payload : ToolPart → PyValue
  | call c => .dict c.arguments
  | result part => part.result

def ContentPart.tool? : ContentPart → Option ToolPart
  | text _ => none
  | toolCall c => some (.call c)
  | toolResult part => some (.result part)

/-- The tool parts of a message. -/
def Message.toolParts (m : Message) : List ToolPart := m.content.filterMap ContentPart.tool?

/-- How a wire format writes the parts of a conversation. -/
structure WireFormat where
  callId : PyStr → Option PyStr
  arguments : PyValue → PyValue → Prop
  reference : List Message → ToolResultContent → PyStr → Prop
  result : PyValue → PyValue → Prop

/-- The entry carries the part. -/
def WireFormat.Carries (fmt : WireFormat) (messages : List Message) :
    ToolPart → WireEntry → Prop
  | .call c, .call id name arguments =>
    id = fmt.callId c.id ∧ name = c.name ∧ fmt.arguments (.dict c.arguments) arguments
  | .result part, .result reference content =>
    fmt.reference messages part reference ∧ fmt.result part.result content
  | _, _ => False

/-- The texts in their order, each on a line of its own or of a group of lines. -/
def Spells (texts written : List PyStr) : Prop :=
  ∃ groups : List (List PyStr), groups.flatten = texts ∧ written = groups.map joinLines

/-- The payload has one entry for each tool part and spells every text. -/
structure Complete (fmt : WireFormat) (messages : List Message) (v : WireView) : Prop where
  entries : List.Forall₂ (fmt.Carries messages) (messages.flatMap Message.toolParts) v.entries
  system : Spells (Anthropic.systemParts messages) v.system
  texts : Spells ((Anthropic.spoken messages).flatMap Message.texts) v.texts

/-- The content is a text that `json.loads` reads as an equal value. -/
def ReadsAs (json : PyJson) (v content : PyValue) : Prop :=
  ∃ t v', content = .str t ∧ json.loads t = .ok v' ∧ v.eq v' = true

/-- The reference is the identifier. -/
def SameId (_ : List Message) (part : ToolResultContent) (reference : PyStr) : Prop :=
  reference = part.toolCallId

/-- The reference is the name of a call with the identifier. -/
def NamesCall (messages : List Message) (part : ToolResultContent) (reference : PyStr) : Prop :=
  ∃ call ∈ messages.flatMap Message.toolCalls, call.id = part.toolCallId ∧ call.name = reference

/-- Objects stand as they are, other values under `result`. -/
def Wrapped (v content : PyValue) : Prop :=
  (∃ entries, v = .dict entries ∧ content = v) ∨
    (∀ entries, v ≠ .dict entries) ∧ content = .object [("result", v)]

def OpenAI.format (json : PyJson) : WireFormat := ⟨some, ReadsAs json, SameId, ReadsAs json⟩

def Anthropic.format (json : PyJson) : WireFormat :=
  ⟨some, (fun v w => w = v), SameId, ReadsAs json⟩

def Gemini.format : WireFormat := ⟨fun _ => none, (fun v w => w = v), NamesCall, Wrapped⟩

/-- `json.loads(json.dumps(v)) == v`. -/
def Survives (json : PyJson) (v : PyValue) : Prop :=
  ∃ t v', json.dumps v = .ok t ∧ json.loads t = .ok v' ∧ v.eq v' = true

/-- What CPython's `json` makes of lossless JSON, in an interpreter that follows it `writeDepth`
levels down and `readDepth` levels back. Beyond that each raises `RecursionError`. -/
structure PyJson.IsStandard (json : PyJson) (writeDepth readDepth : Nat) : Prop where
  writes : ∀ v : PyValue, v.isJson = true →
    ((∃ t, json.dumps v = .ok t) ↔ v.printable = true ∧ v.depth ≤ writeDepth)
  text : ∀ (v : PyValue) t, v.isJson = true → json.dumps v = .ok t → t = v.dumps (.plain true)
  /-- What has been written comes back, -/
  reads : ∀ v : PyValue, v.isJson = true → v.printable = true → v.isApart = true →
    v.depth ≤ readDepth → json.loads (v.dumps (.plain true)) = .ok v
  deep : ∀ v : PyValue, v.isJson = true → v.printable = true → v.isApart = true →
    readDepth < v.depth → ∃ e, json.loads (v.dumps (.plain true)) = .error e
  /-- but two escaped surrogates side by side are read as one character. -/
  joins : ∀ v v' : PyValue, v.isJson = true →
    json.loads (v.dumps (.plain true)) = .ok v' → v'.isApart = true

-- ---------------------------------------------------------------------------
-- Texts
-- ---------------------------------------------------------------------------

theorem joinLines_singleton (s : PyStr) : joinLines [s] = s := List.intercalate_singleton

theorem spells_each (texts : List PyStr) : Spells texts texts := by
  refine ⟨texts.map fun s => [s], ?_, ?_⟩
  · rw [← List.flatMap_def, List.flatMap_singleton']
  · rw [List.map_map]
    exact (List.map_id'' joinLines_singleton texts).symm

theorem spells_lines (texts : List PyStr) :
    Spells texts (if texts = [] then [] else [joinLines texts]) := by
  by_cases h : texts = []
  · rw [if_pos h, h]
    exact ⟨[], rfl, rfl⟩
  · rw [if_neg h]
    exact ⟨[texts], by rw [List.flatten_singleton], rfl⟩

theorem Spells.append {as bs written written' : List PyStr} (ha : Spells as written)
    (hb : Spells bs written') : Spells (as ++ bs) (written ++ written') := by
  obtain ⟨groups, rfl, rfl⟩ := ha
  obtain ⟨groups', rfl, rfl⟩ := hb
  exact ⟨groups ++ groups', List.flatten_append, List.map_append.symm⟩

theorem spells_flatMap {α : Type} {texts written : α → List PyStr} {xs : List α}
    (h : ∀ x ∈ xs, Spells (texts x) (written x)) :
    Spells (xs.flatMap texts) (xs.flatMap written) := by
  induction xs with
  | nil => exact ⟨[], rfl, rfl⟩
  | cons x xs ih =>
    rw [List.flatMap_cons, List.flatMap_cons]
    exact (h x List.mem_cons_self).append (ih fun y hy => h y (List.mem_cons_of_mem x hy))

/-- The texts of some of the elements. -/
theorem spells_filter {α : Type} {texts written : α → List PyStr} {p : α → Bool} {xs : List α}
    (h : ∀ x ∈ xs, Spells (texts x) (written x)) :
    Spells ((xs.filter p).flatMap texts) (xs.flatMap fun x => if p x then written x else []) := by
  have hfilter : (xs.filter p).flatMap texts = xs.flatMap fun x => if p x then texts x else [] := by
    induction xs with
    | nil => rfl
    | cons x xs ih =>
      have hrest := ih fun y hy => h y (List.mem_cons_of_mem x hy)
      rw [List.filter_cons, List.flatMap_cons]
      by_cases hx : p x = true
      · rw [if_pos hx, if_pos hx, List.flatMap_cons, hrest]
      · rw [if_neg hx, if_neg hx, hrest, List.nil_append]
  rw [hfilter]
  refine spells_flatMap fun x hx => ?_
  by_cases hp : p x = true
  · rw [if_pos hp, if_pos hp]
    exact h x hx
  · rw [if_neg hp, if_neg hp]
    exact spells_each []

/-- A text part is not empty. -/
theorem Message.ne_nil_of_mem_texts {m : Message} {s : PyStr} (h : s ∈ m.texts) : s ≠ [] := by
  obtain ⟨part, -, hpart⟩ := List.mem_filterMap.mp h
  cases part with
  | text part =>
    cases hpart
    have hvalid := part.valid
    simp only [isStrField, Bool.and_eq_true, decide_eq_true_eq] at hvalid
    intro hnil
    rw [hnil] at hvalid
    exact absurd hvalid.1.1 (by simp)
  | toolCall call => cases hpart
  | toolResult part => cases hpart

theorem Message.joinLines_texts {m : Message} : joinLines m.texts = [] ↔ m.texts = [] := by
  constructor
  · intro h
    cases htexts : m.texts with
    | nil => rfl
    | cons s rest =>
      have hs : s ≠ [] := m.ne_nil_of_mem_texts (by rw [htexts]; exact List.mem_cons_self)
      rw [htexts, joinLines] at h
      cases rest with
      | nil => exact absurd (List.intercalate_singleton.symm.trans h) hs
      | cons s' rest =>
        rw [List.intercalate_cons_cons] at h
        exact absurd (List.append_eq_nil_iff.mp (List.append_eq_nil_iff.mp h).1).1 hs
  · intro h
    rw [h]
    rfl

-- ---------------------------------------------------------------------------
-- Tool parts
-- ---------------------------------------------------------------------------

theorem Message.isToolResult_of_tool {m : Message} (h : m.role = .tool) :
    ∀ part ∈ m.content, ∃ r, part = .toolResult r := by
  intro part hpart
  have hvalid := m.validContent
  rw [validToolContent, if_pos h] at hvalid
  have hresult := List.all_eq_true.mp hvalid part hpart
  cases part with
  | text part => cases hresult
  | toolCall call => cases hresult
  | toolResult r => exact ⟨r, rfl⟩

theorem Message.not_toolResult {m : Message} (h : m.role ≠ .tool) :
    ∀ part ∈ m.content, part.isToolResult = false := by
  intro part hpart
  have hvalid := m.validContent
  rw [validToolContent, if_neg h, Bool.and_eq_true, Bool.not_eq_true', List.any_eq_false] at hvalid
  exact Bool.eq_false_iff.mpr (hvalid.1 part hpart)

/-- A tool message has its results, and nothing else. -/
theorem Message.toolParts_of_tool {m : Message} (h : m.role = .tool) :
    m.toolParts = m.toolResults.map .result ∧ m.toolResults.length = m.content.length ∧
      m.texts = [] ∧ m.toolCalls = [] := by
  have hall := m.isToolResult_of_tool h
  rw [toolParts, toolResults, texts, toolCalls]
  generalize m.content = content at hall
  induction content with
  | nil => exact ⟨rfl, rfl, rfl, rfl⟩
  | cons part content ih =>
    obtain ⟨r, rfl⟩ := hall part List.mem_cons_self
    obtain ⟨hparts, hlength, htexts, hcalls⟩ :=
      ih fun part hpart => hall part (List.mem_cons_of_mem _ hpart)
    refine ⟨?_, ?_, htexts, hcalls⟩
    · exact congrArg (ToolPart.result r :: ·) hparts
    · exact congrArg (· + 1) hlength

theorem Message.toolParts_of_ne_tool {m : Message} (h : m.role ≠ .tool) :
    m.toolParts = m.toolCalls.map .call ∧ m.toolResults = [] := by
  have hall := m.not_toolResult h
  rw [toolParts, toolResults, toolCalls]
  generalize m.content = content at hall
  induction content with
  | nil => exact ⟨rfl, rfl⟩
  | cons part content ih =>
    have hpart := hall part List.mem_cons_self
    obtain ⟨hparts, hresults⟩ := ih fun part hpart => hall part (List.mem_cons_of_mem _ hpart)
    cases part with
    | text part => exact ⟨hparts, hresults⟩
    | toolCall call => exact ⟨congrArg (ToolPart.call call :: ·) hparts, hresults⟩
    | toolResult part => cases hpart

/-- Only the assistant calls tools. -/
theorem Message.toolCalls_eq_nil {m : Message} (h : m.role ≠ .assistant) : m.toolCalls = [] := by
  by_cases htool : m.role = .tool
  · exact (m.toolParts_of_tool htool).2.2.2
  · have hvalid := m.validContent
    rw [validToolContent, if_neg htool] at hvalid
    simp only [Bool.and_eq_true, Bool.or_eq_true, decide_eq_true_eq, h, false_or,
      Bool.not_eq_true', List.any_eq_false, Bool.not_eq_true] at hvalid
    refine List.filterMap_eq_nil_iff.mpr fun part hpart => ?_
    have hno := hvalid.2 part hpart
    cases part with
    | text part => rfl
    | toolCall call => cases hno
    | toolResult part => rfl

theorem Message.toolParts_of_system {m : Message} (h : m.role = .system) : m.toolParts = [] := by
  obtain ⟨hparts, -⟩ := m.toolParts_of_ne_tool (by rw [h]; decide)
  rw [hparts, m.toolCalls_eq_nil (by rw [h]; decide), List.map_nil]

/-- The system messages have no tool parts. -/
theorem toolParts_spoken (messages : List Message) :
    (Anthropic.spoken messages).flatMap Message.toolParts = messages.flatMap Message.toolParts := by
  induction messages with
  | nil => rfl
  | cons m messages ih =>
    rw [List.flatMap_cons, ← ih, Anthropic.spoken, List.filter_cons]
    by_cases h : m.role = .system
    · rw [if_neg (by simpa using h), m.toolParts_of_system h, List.nil_append]
      rfl
    · rw [if_pos (by simpa using h), List.flatMap_cons]
      rfl

/-- A pass over lists that are no longer than others, and as long in all, is as long in each. -/
theorem length_eq_of_flatMap {α β γ : Type} {f : α → List β} {g : α → List γ} {xs : List α}
    (hle : ∀ x ∈ xs, (f x).length ≤ (g x).length)
    (h : (xs.flatMap g).length ≤ (xs.flatMap f).length) :
    ∀ x ∈ xs, (g x).length = (f x).length := by
  have hsum : ∀ {ys : List α}, (∀ y ∈ ys, (f y).length ≤ (g y).length) →
      (ys.flatMap f).length ≤ (ys.flatMap g).length := by
    intro ys hys
    induction ys with
    | nil => exact Nat.le_refl 0
    | cons y ys ih =>
      have hy := hys y List.mem_cons_self
      have hrest := ih fun z hz => hys z (List.mem_cons_of_mem y hz)
      rw [List.flatMap_cons, List.flatMap_cons, List.length_append, List.length_append]
      omega
  induction xs with
  | nil => exact fun x hx => absurd hx List.not_mem_nil
  | cons x xs ih =>
    have hx := hle x List.mem_cons_self
    have hxs := hsum fun y hy => hle y (List.mem_cons_of_mem x hy)
    rw [List.flatMap_cons, List.flatMap_cons, List.length_append, List.length_append] at h
    intro y hy
    rcases List.mem_cons.mp hy with rfl | hy
    · omega
    · exact ih (fun z hz => hle z (List.mem_cons_of_mem x hz)) (by omega) y hy

/-- The text of a value. -/
def written (json : PyJson) (v : PyValue) : PyValue :=
  match json.dumps v with
  | .ok t => .str t
  | .error _ => .none

theorem readsAs_written {json : PyJson} {v : PyValue} :
    ReadsAs json v (written json v) ↔ Survives json v := by
  unfold ReadsAs Survives written
  cases hdumps : json.dumps v with
  | error e =>
    constructor
    · rintro ⟨t, v', h, -⟩
      cases h
    · rintro ⟨t, v', h, -⟩
      cases h
  | ok t =>
    constructor
    · rintro ⟨t', v', h, hloads, heq⟩
      cases h
      exact ⟨t, v', rfl, hloads, heq⟩
    · rintro ⟨t', v', h, hloads, heq⟩
      cases h
      exact ⟨t, v', rfl, hloads, heq⟩

theorem Survives.dumps {json : PyJson} {v : PyValue} (h : Survives json v) :
    ∃ t, json.dumps v = .ok t := by
  obtain ⟨t, v', ht, -⟩ := h
  exact ⟨t, ht⟩

/-- **Which values survive CPython's `json`**: those without an integer of more than 4,300 digits,
that nest no deeper than the interpreter can follow, and in whose strings and keys no two surrogates
make one character. -/
theorem survives_iff {json : PyJson} {writeDepth readDepth : Nat}
    (h : json.IsStandard writeDepth readDepth) {v : PyValue} (hv : v.isJson = true) :
    Survives json v ↔ v.printable = true ∧ v.depth ≤ writeDepth ∧ v.depth ≤ readDepth ∧
      v.isApart = true := by
  constructor
  · rintro ⟨t, v', hdumps, hloads, heq⟩
    obtain ⟨hprintable, hwrite⟩ := (h.writes v hv).mp ⟨t, hdumps⟩
    rw [h.text v t hv hdumps] at hloads
    have hapart := PyValue.isApart_of_eq v v' hv heq (h.joins v v' hv hloads)
    refine ⟨hprintable, hwrite, ?_, hapart⟩
    by_contra hdeep
    obtain ⟨e, he⟩ := h.deep v hv hprintable hapart (Nat.lt_of_not_le hdeep)
    rw [he] at hloads
    cases hloads
  · rintro ⟨hprintable, hwrite, hread, hapart⟩
    obtain ⟨t, hdumps⟩ := (h.writes v hv).mpr ⟨hprintable, hwrite⟩
    refine ⟨t, v, hdumps, ?_, PyValue.eq_of_isJson v hv⟩
    rw [h.text v t hv hdumps]
    exact h.reads v hv hprintable hapart hread

/-- A `json` that reads the texts of lossless JSON and nothing else. -/
noncomputable def PyJson.standard (writeDepth readDepth : Nat) : PyJson where
  loads t :=
    match PyValue.readBack (.plain true) {v | v.Told (.plain true) ∧ v.depth ≤ readDepth} t with
    | some v => .ok v
    | none => .error (.py .recursionError "maximum recursion depth exceeded")
  loadsBytes _ := .error (.py .valueError "Expecting value")
  dumps := dumpsWithin (.plain true) writeDepth
  walks _ := true
  dumpsSorted := sortedText
  raises t e h := by
    split at h
    · cases h
    · rw [← Except.error.inj h]
      rfl
  raisesBytes b e h := by
    rw [← Except.error.inj h]
    rfl
  raisesDumps := isJsonError_dumpsWithin
  raisesSorted := isJsonError_sortedText
  text_of_sorted := sortedText_eq_ok

/-- What is assumed of CPython's `json` can be had: texts of lossless JSON are told apart
(`dumps_injective`), so they can be read back. -/
theorem PyJson.isStandard_standard (writeDepth readDepth : Nat) :
    (PyJson.standard writeDepth readDepth).IsStandard writeDepth readDepth := by
  have hknown : ∀ v ∈ {v : PyValue | v.Told (.plain true) ∧ v.depth ≤ readDepth},
      v.Told (.plain true) := fun v hv => hv.1
  constructor
  · exact fun v _ => exists_dumpsWithin
  · exact fun v t _ h => text_of_dumpsWithin h
  · intro v hv _ hapart hread
    have hback := PyValue.readBack_of_mem (PyValue.inOrder_plain true) hknown
      (v := v) ⟨⟨hv, fun _ => hapart⟩, hread⟩
    simp only [PyJson.standard, hback]
  · intro v hv _ hapart hdeep
    have hback := PyValue.readBack_of_notMem (PyValue.inOrder_plain true) hknown
      (v := v) ⟨hv, fun _ => hapart⟩ fun hmem => absurd hmem.2 (Nat.not_le_of_lt hdeep)
    simp only [PyJson.standard, hback]
    exact ⟨_, rfl⟩
  · intro v v' _ h
    simp only [PyJson.standard] at h
    split at h
    · next w hback =>
      rw [← Except.ok.inj h]
      exact (PyValue.mem_of_readBack hback).1.apart rfl
    · cases h

theorem ToolPart.isJson_payload (part : ToolPart) : part.payload.isJson = true := by
  cases part with
  | call c => exact c.validArguments
  | result part => exact part.validResult

/-- What has to survive of a conversation, for CPython's `json`. -/
theorem payloads_survive_iff {json : PyJson} {writeDepth readDepth : Nat}
    (h : json.IsStandard writeDepth readDepth) (messages : List Message) :
    (∀ part ∈ messages.flatMap Message.toolParts, Survives json part.payload) ↔
      ∀ part ∈ messages.flatMap Message.toolParts, part.payload.printable = true ∧
        part.payload.depth ≤ writeDepth ∧ part.payload.depth ≤ readDepth ∧
          part.payload.isApart = true := by
  constructor
  · intro hsurvive part hpart
    exact (survives_iff h part.isJson_payload).mp (hsurvive part hpart)
  · intro hconditions part hpart
    exact (survives_iff h part.isJson_payload).mpr (hconditions part hpart)

theorem written_of_ok {json : PyJson} {v : PyValue} {t : PyStr} (h : json.dumps v = .ok t) :
    written json v = .str t := by
  rw [written, h]

-- ---------------------------------------------------------------------------
-- OpenAI-compatible
-- ---------------------------------------------------------------------------

namespace OpenAI

variable {json : PyJson}

/-- The tool parts that reach the payload. -/
def kept (m : Message) : List ToolPart :=
  match resultPart m with
  | some part => [.result part]
  | none => m.toolCalls.map .call

/-- What a part is written as. -/
def entry (json : PyJson) : ToolPart → WireEntry
  | .call c => .call (some c.id) c.name (written json (.dict c.arguments))
  | .result part => .result part.toolCallId (written json part.result)

theorem kept_of_ne_tool {m : Message} (h : m.role ≠ .tool) : kept m = m.toolParts := by
  rw [kept, resultPart, if_neg h, (m.toolParts_of_ne_tool h).1]

theorem kept_of_tool {m : Message} (h : m.role = .tool) : kept m = m.toolParts.take 1 := by
  obtain ⟨hparts, hlength, -⟩ := m.toolParts_of_tool h
  have hsize := m.size.1
  rw [kept, resultPart, if_pos h, hparts]
  cases hresults : m.toolResults with
  | nil =>
    rw [hresults, List.length_nil] at hlength
    omega
  | cons part rest => rfl

theorem length_kept_le (m : Message) : (kept m).length ≤ m.toolParts.length := by
  by_cases h : m.role = .tool
  · rw [kept_of_tool h, List.length_take]
    exact Nat.min_le_right 1 _
  · rw [kept_of_ne_tool h]

theorem kept_eq_iff (m : Message) :
    m.toolParts.length = (kept m).length ↔ (m.role = .tool → m.content.length = 1) := by
  by_cases h : m.role = .tool
  · obtain ⟨hparts, hlength, -⟩ := m.toolParts_of_tool h
    have hsize := m.size.1
    have hcontent : m.toolParts.length = m.content.length := by
      rw [hparts, List.length_map, hlength]
    rw [kept_of_tool h, List.length_take, hcontent]
    constructor
    · intro heq _
      omega
    · intro hone
      have hone := hone h
      omega
  · rw [kept_of_ne_tool h]
    exact iff_of_true rfl fun htool => absurd htool h

theorem role_value_ne {role : Role} (h : role ≠ .tool) : role.value ≠ "tool" := by
  cases role with
  | system => decide
  | user => decide
  | assistant => decide
  | tool => exact absurd rfl h

theorem callPayload_entry {c : ToolCall} {v : PyValue} (h : callPayload json c = .ok v) :
    callEntry v = some (entry json (.call c)) := by
  rw [callPayload] at h
  obtain ⟨t, ht, h⟩ := bind_eq_ok.mp h
  cases h
  rw [entry, written_of_ok ht, callEntry]
  simp

/-- The texts of a message, as one content. -/
def lines (m : Message) : List PyStr := if m.texts = [] then [] else [joinLines m.texts]

/-- What one message says. -/
theorem messagePayload_view {m : Message} {v : PyValue} (h : messagePayload json m = .ok v) :
    messageEntries v = (kept m).map (entry json) ∧
      messageTexts v = lines m ∧ hasRole "system" v = decide (m.role = .system) := by
  rw [messagePayload] at h
  rw [kept, lines]
  cases hpart : resultPart m with
  | some part =>
    have hrole : m.role = .tool := by
      rw [resultPart] at hpart
      split at hpart
      · assumption
      · cases hpart
    obtain ⟨-, -, htexts, -⟩ := m.toolParts_of_tool hrole
    rw [hpart] at h
    obtain ⟨t, ht, h⟩ := bind_eq_ok.mp h
    cases h
    refine ⟨?_, ?_, ?_⟩
    · simp [messageEntries, resultEntry, hasRole, entry, written_of_ok ht]
    · simp [messageTexts, hasRole, htexts]
    · simp [hasRole, hrole]
  | none =>
    have hrole : m.role ≠ .tool := by
      intro hrole
      have hkept := kept_of_tool hrole
      obtain ⟨hparts, hlength, -, hcalls⟩ := m.toolParts_of_tool hrole
      have hsize := m.size.1
      rw [kept, hpart, hcalls, hparts, List.map_nil, eq_comm, List.take_eq_nil_iff] at hkept
      rcases hkept with hkept | hkept
      · cases hkept
      · rw [List.map_eq_nil_iff.mp hkept, List.length_nil] at hlength
        omega
    have hvalue := role_value_ne hrole
    rw [hpart] at h
    obtain ⟨calls, hcalls, h⟩ := bind_eq_ok.mp h
    cases h
    refine ⟨?_, ?_, ?_⟩
    · have hentries : calls.filterMap callEntry = (m.toolCalls.map .call).map (entry json) := by
        rw [filterMap_of_mapM hcalls fun c _ v => callPayload_entry, List.map_map,
          ← List.filterMap_eq_map]
        rfl
      rw [← hentries]
      by_cases hnil : calls = [] <;>
        simp [messageEntries, resultEntry, hasRole, hnil, hvalue]
    · by_cases htexts : m.texts = []
      · simp [messageTexts, hasRole, hvalue, htexts, joinLines, PyValue.asStr]
      · have hjoin : joinLines m.texts ≠ [] := fun h => htexts (Message.joinLines_texts.mp h)
        simp [messageTexts, hasRole, hvalue, htexts, hjoin, PyValue.asStr]
    · cases m.role <;> simp [hasRole, Role.value]

/-- A payload is built if every kept part has a text. -/
theorem payload_succeeds {messages : List Message} (model : PyStr) (tools : List ToolDefinition)
    (stream : Bool)
    (h : ∀ part ∈ messages.flatMap kept, ∃ t, json.dumps part.payload = .ok t) :
    ∃ p, payload json model messages tools stream = .ok p := by
  have hmessages : ∀ m ∈ messages, ∃ v, messagePayload json m = .ok v := by
    intro m hm
    have hkept : ∀ part ∈ kept m, ∃ t, json.dumps part.payload = .ok t := fun part hpart =>
      h part (List.mem_flatMap.mpr ⟨m, hm, hpart⟩)
    rw [kept] at hkept
    rw [messagePayload]
    cases hpart : resultPart m with
    | some part =>
      rw [hpart] at hkept
      obtain ⟨t, ht⟩ := hkept (.result part) List.mem_cons_self
      exact ⟨_, bind_of_ok ht _⟩
    | none =>
      rw [hpart] at hkept
      have hcalls : ∀ c ∈ m.toolCalls, ∃ v, callPayload json c = .ok v := by
        intro c hc
        obtain ⟨t, ht⟩ := hkept (.call c) (List.mem_map_of_mem hc)
        exact ⟨_, bind_of_ok ht _⟩
      obtain ⟨calls, hcalls⟩ := exists_mapM hcalls
      exact ⟨_, bind_of_ok hcalls _⟩
  obtain ⟨encoded, hencoded⟩ := exists_mapM hmessages
  exact ⟨_, bind_of_ok hencoded _⟩

theorem view_payload {model : PyStr} {messages : List Message} {tools : List ToolDefinition}
    {stream : Bool} {p : PyValue} (h : payload json model messages tools stream = .ok p) :
    (view p).entries = (messages.flatMap kept).map (entry json) ∧
      Spells (Anthropic.systemParts messages) (view p).system ∧
      Spells ((Anthropic.spoken messages).flatMap Message.texts) (view p).texts := by
  rw [payload] at h
  obtain ⟨encoded, hencoded, h⟩ := bind_eq_ok.mp h
  cases h
  have hlines (m : Message) : Spells m.texts (lines m) := spells_lines m.texts
  have hsystem : (encoded.flatMap fun v => if hasRole "system" v then messageTexts v else []) =
      messages.flatMap fun m => if decide (m.role = .system) then lines m else [] := by
    refine flatMap_of_mapM hencoded fun m _ v hv => ?_
    obtain ⟨-, htexts, hrole⟩ := messagePayload_view hv
    rw [htexts, hrole]
  have hspoken : (encoded.flatMap fun v => if hasRole "system" v then [] else messageTexts v) =
      messages.flatMap fun m => if decide (m.role ≠ .system) then lines m else [] := by
    refine flatMap_of_mapM hencoded fun m _ v hv => ?_
    obtain ⟨-, htexts, hrole⟩ := messagePayload_view hv
    rw [htexts, hrole]
    by_cases h : m.role = .system <;> simp [h]
  have hentries : encoded.flatMap messageEntries = (messages.flatMap kept).map (entry json) := by
    rw [flatMap_of_mapM hencoded fun m _ v hv => (messagePayload_view hv).1, List.map_flatMap]
  refine ⟨?_, ?_, ?_⟩
  · simpa [view] using hentries
  · have hspells := spells_filter (p := fun m => decide (m.role = .system))
      fun m (_ : m ∈ messages) => hlines m
    rw [← hsystem] at hspells
    simpa [view, Anthropic.systemParts] using hspells
  · have hspells := spells_filter (p := fun m => decide (m.role ≠ .system))
      fun m (_ : m ∈ messages) => hlines m
    rw [← hspoken] at hspells
    simpa [view, Anthropic.spoken] using hspells

theorem carries_entry {messages : List Message} {part : ToolPart} :
    (format json).Carries messages part (entry json part) ↔ Survives json part.payload := by
  cases part with
  | call c =>
    constructor
    · intro h
      exact readsAs_written.mp h.2.2
    · intro h
      exact ⟨rfl, rfl, readsAs_written.mpr h⟩
  | result part =>
    constructor
    · intro h
      exact readsAs_written.mp h.2
    · intro h
      exact ⟨rfl, readsAs_written.mpr h⟩

/-- A payload is complete if every tool message has a single result, and what is written as text
survives. -/
theorem complete_iff (json : PyJson) (model : PyStr) (messages : List Message)
    (tools : List ToolDefinition) (stream : Bool) :
    (∃ p, payload json model messages tools stream = .ok p ∧
        Complete (format json) messages (view p)) ↔
      (∀ m ∈ messages, m.role = .tool → m.content.length = 1) ∧
        ∀ part ∈ messages.flatMap Message.toolParts, Survives json part.payload := by
  have hkept (h : ∀ m ∈ messages, m.role = .tool → m.content.length = 1) :
      messages.flatMap kept = messages.flatMap Message.toolParts := by
    refine List.flatMap_congr fun m hm => ?_
    by_cases hrole : m.role = .tool
    · obtain ⟨hparts, hlength, -⟩ := m.toolParts_of_tool hrole
      have hone := h m hm hrole
      rw [kept_of_tool hrole, List.take_of_length_le]
      rw [hparts, List.length_map]
      omega
    · exact kept_of_ne_tool hrole
  constructor
  · rintro ⟨p, hp, hcomplete⟩
    obtain ⟨hentries, -⟩ := view_payload hp
    have hforall := hcomplete.entries
    rw [hentries] at hforall
    have hlength :
        (messages.flatMap Message.toolParts).length ≤ (messages.flatMap kept).length := by
      rw [hforall.length_eq, List.length_map]
    have hsingle : ∀ m ∈ messages, m.role = .tool → m.content.length = 1 := fun m hm =>
      (kept_eq_iff m).mp (length_eq_of_flatMap (fun m _ => length_kept_le m) hlength m hm)
    refine ⟨hsingle, ?_⟩
    rw [hkept hsingle, List.forall₂_map_right_iff, List.forall₂_same] at hforall
    intro part hpart
    exact carries_entry.mp (hforall part hpart)
  · rintro ⟨hsingle, hsurvives⟩
    have hdumps : ∀ part ∈ messages.flatMap kept, ∃ t, json.dumps part.payload = .ok t := by
      intro part hpart
      rw [hkept hsingle] at hpart
      exact (hsurvives part hpart).dumps
    obtain ⟨p, hp⟩ := payload_succeeds model tools stream hdumps
    obtain ⟨hentries, hsystem, htexts⟩ := view_payload hp
    refine ⟨p, hp, ?_, hsystem, htexts⟩
    rw [hentries, hkept hsingle, List.forall₂_map_right_iff, List.forall₂_same]
    intro part hpart
    exact carries_entry.mpr (hsurvives part hpart)

end OpenAI

-- ---------------------------------------------------------------------------
-- Anthropic
-- ---------------------------------------------------------------------------

namespace Anthropic

variable {json : PyJson}

/-- What a part is written as. -/
def entry (json : PyJson) : ToolPart → WireEntry
  | .call c => .call (some c.id) c.name (.dict c.arguments)
  | .result part => .result part.toolCallId (written json part.result)

theorem partPayload_view {part : ContentPart} {v : PyValue} (h : partPayload json part = .ok v) :
    partEntry v = part.tool?.map (entry json) ∧ partText v = part.text? := by
  cases part with
  | text part =>
    cases h
    exact ⟨by simp [partEntry, ContentPart.tool?],
      by simp [partText, ContentPart.text?, PyValue.asStr]⟩
  | toolCall call =>
    cases h
    exact ⟨by simp [partEntry, ContentPart.tool?, entry], by simp [partText, ContentPart.text?]⟩
  | toolResult part =>
    obtain ⟨t, ht, h⟩ := bind_eq_ok.mp h
    cases h
    exact ⟨by simp [partEntry, ContentPart.tool?, entry, written_of_ok ht],
      by simp [partText, ContentPart.text?]⟩

theorem messagePayload_view {m : Message} {v : PyValue} (h : messagePayload json m = .ok v) :
    (messageParts v).filterMap partEntry = m.toolParts.map (entry json) ∧
      (messageParts v).filterMap partText = m.texts := by
  rw [messagePayload] at h
  obtain ⟨content, hcontent, h⟩ := bind_eq_ok.mp h
  cases h
  have hparts : messageParts (.object [("role", text (if m.role = .tool then "user"
      else m.role.value)), ("content", .list content)]) = content := by
    simp [messageParts]
  rw [hparts]
  constructor
  · rw [filterMap_of_mapM hcontent fun part _ v hv => (partPayload_view hv).1, Message.toolParts,
      List.map_filterMap]
  · exact filterMap_of_mapM hcontent fun part _ v hv => (partPayload_view hv).2

theorem payload_succeeds {messages : List Message} (model : PyStr) (maxTokens : Nat)
    (tools : List ToolDefinition) (stream : Bool)
    (h : ∀ part, .result part ∈ messages.flatMap Message.toolParts →
      ∃ t, json.dumps part.result = .ok t) :
    ∃ p, payload json model maxTokens messages tools stream = .ok p := by
  have hmessages : ∀ m ∈ spoken messages, ∃ v, messagePayload json m = .ok v := by
    intro m hm
    have hparts : ∀ part ∈ m.content, ∃ v, partPayload json part = .ok v := by
      intro part hpart
      cases part with
      | text part => exact ⟨_, rfl⟩
      | toolCall call => exact ⟨_, rfl⟩
      | toolResult part =>
        obtain ⟨t, ht⟩ := h part (List.mem_flatMap.mpr
          ⟨m, List.mem_of_mem_filter hm, List.mem_filterMap.mpr ⟨_, hpart, rfl⟩⟩)
        exact ⟨_, bind_of_ok ht _⟩
    obtain ⟨content, hcontent⟩ := exists_mapM hparts
    exact ⟨_, bind_of_ok hcontent _⟩
  obtain ⟨encoded, hencoded⟩ := exists_mapM hmessages
  exact ⟨_, bind_of_ok hencoded _⟩

theorem view_payload {model : PyStr} {maxTokens : Nat} {messages : List Message}
    {tools : List ToolDefinition} {stream : Bool} {p : PyValue}
    (h : payload json model maxTokens messages tools stream = .ok p) :
    (view p).entries = (messages.flatMap Message.toolParts).map (entry json) ∧
      Spells (systemParts messages) (view p).system ∧
      Spells ((spoken messages).flatMap Message.texts) (view p).texts := by
  rw [payload] at h
  obtain ⟨encoded, hencoded, h⟩ := bind_eq_ok.mp h
  cases h
  have hentries : (encoded.flatMap messageParts).filterMap partEntry =
      (messages.flatMap Message.toolParts).map (entry json) := by
    rw [List.filterMap_flatMap, ← toolParts_spoken, List.map_flatMap]
    exact flatMap_of_mapM hencoded fun m _ v hv => (messagePayload_view hv).1
  have htexts : (encoded.flatMap messageParts).filterMap partText =
      (spoken messages).flatMap Message.texts := by
    rw [List.filterMap_flatMap]
    exact flatMap_of_mapM hencoded fun m _ v hv => (messagePayload_view hv).2
  refine ⟨?_, ?_, ?_⟩
  · simpa [view] using hentries
  · have hspells := spells_lines (systemParts messages)
    by_cases hnil : systemParts messages = []
    · by_cases htools : tools = [] <;> simpa [view, hnil, htools, PyValue.asStr] using hspells
    · simpa [view, hnil, PyValue.asStr] using hspells
  · have hspells := spells_each ((spoken messages).flatMap Message.texts)
    rw [← htexts] at hspells
    simpa [view, htexts] using hspells

/-- A payload is complete if every result survives as a text. -/
theorem complete_iff (json : PyJson) (model : PyStr) (maxTokens : Nat) (messages : List Message)
    (tools : List ToolDefinition) (stream : Bool) :
    (∃ p, payload json model maxTokens messages tools stream = .ok p ∧
        Complete (format json) messages (view p)) ↔
      ∀ part, .result part ∈ messages.flatMap Message.toolParts → Survives json part.result := by
  constructor
  · rintro ⟨p, hp, hcomplete⟩ part hpart
    obtain ⟨hentries, -⟩ := view_payload hp
    have hforall := hcomplete.entries
    rw [hentries, List.forall₂_map_right_iff, List.forall₂_same] at hforall
    exact readsAs_written.mp (hforall (.result part) hpart).2
  · intro hsurvives
    obtain ⟨p, hp⟩ := payload_succeeds model maxTokens tools stream fun part hpart =>
      (hsurvives part hpart).dumps
    obtain ⟨hentries, hsystem, htexts⟩ := view_payload hp
    refine ⟨p, hp, ?_, hsystem, htexts⟩
    rw [hentries, List.forall₂_map_right_iff, List.forall₂_same]
    intro part hpart
    cases part with
    | call c => exact ⟨rfl, rfl, rfl⟩
    | result part => exact ⟨rfl, readsAs_written.mpr (hsurvives part hpart)⟩

end Anthropic

-- ---------------------------------------------------------------------------
-- Gemini
-- ---------------------------------------------------------------------------

namespace Gemini

open Anthropic (systemParts spoken)

variable {names : PyStr → Option PyStr}

/-- What a part is written as. -/
def entry (names : PyStr → Option PyStr) : ToolPart → Option WireEntry
  | .call c => some (.call none c.name (.dict c.arguments))
  | .result part => (names part.toolCallId).map fun name => .result name (response part.result)

theorem partPayload_view {part : ContentPart} {v : PyValue} (h : partPayload names part = .ok v) :
    partEntry v = part.tool?.bind (entry names) ∧ partText v = part.text? := by
  cases part with
  | text part =>
    cases h
    exact ⟨by simp [partEntry, ContentPart.tool?],
      by simp [partText, ContentPart.text?, PyValue.asStr]⟩
  | toolCall call =>
    cases h
    exact ⟨by simp [partEntry, ContentPart.tool?, entry],
      by simp [partText, ContentPart.text?, PyValue.asStr]⟩
  | toolResult part =>
    rw [partPayload] at h
    cases hname : names part.toolCallId with
    | none =>
      rw [hname] at h
      cases h
    | some name =>
      rw [hname] at h
      cases h
      exact ⟨by simp [partEntry, ContentPart.tool?, entry, hname],
        by simp [partText, ContentPart.text?, PyValue.asStr]⟩

theorem messagePayload_view {m : Message} {v : PyValue} (h : messagePayload names m = .ok v) :
    (messageParts v).filterMap partEntry = m.toolParts.filterMap (entry names) ∧
      (messageParts v).filterMap partText = m.texts := by
  rw [messagePayload] at h
  obtain ⟨parts, hparts, h⟩ := bind_eq_ok.mp h
  cases h
  have hview : messageParts (.object [("role", text (if m.role = .assistant then "model"
      else "user")), ("parts", .list parts)]) = parts := by
    simp [messageParts]
  rw [hview]
  constructor
  · rw [filterMap_of_mapM hparts fun part _ v hv => (partPayload_view hv).1, Message.toolParts,
      List.filterMap_filterMap]
  · exact filterMap_of_mapM hparts fun part _ v hv => (partPayload_view hv).2

/-- A payload is built if every result has a name. -/
theorem payload_succeeds {messages : List Message} (tools : List ToolDefinition)
    (h : ∀ part, .result part ∈ messages.flatMap Message.toolParts →
      ∃ name, Bindings.table (callNames messages) part.toolCallId = some name) :
    ∃ p, payload messages tools = .ok p := by
  have hmessages : ∀ m ∈ spoken messages,
      ∃ v, messagePayload (Bindings.table (callNames messages)) m = .ok v := by
    intro m hm
    have hparts : ∀ part ∈ m.content,
        ∃ v, partPayload (Bindings.table (callNames messages)) part = .ok v := by
      intro part hpart
      cases part with
      | text part => exact ⟨_, rfl⟩
      | toolCall call => exact ⟨_, rfl⟩
      | toolResult part =>
        obtain ⟨name, hname⟩ := h part (List.mem_flatMap.mpr
          ⟨m, List.mem_of_mem_filter hm, List.mem_filterMap.mpr ⟨_, hpart, rfl⟩⟩)
        rw [partPayload, hname]
        exact ⟨_, rfl⟩
    obtain ⟨parts, hparts⟩ := exists_mapM hparts
    exact ⟨_, bind_of_ok hparts _⟩
  obtain ⟨contents, hcontents⟩ := exists_mapM hmessages
  exact ⟨_, bind_of_ok hcontents _⟩

theorem view_payload {messages : List Message} {tools : List ToolDefinition} {p : PyValue}
    (h : payload messages tools = .ok p) :
    (view p).entries = (messages.flatMap Message.toolParts).filterMap
        (entry (Bindings.table (callNames messages))) ∧
      Spells (systemParts messages) (view p).system ∧
      Spells ((spoken messages).flatMap Message.texts) (view p).texts := by
  rw [payload] at h
  obtain ⟨contents, hcontents, h⟩ := bind_eq_ok.mp h
  cases h
  have hentries : (contents.flatMap messageParts).filterMap partEntry =
      (messages.flatMap Message.toolParts).filterMap
        (entry (Bindings.table (callNames messages))) := by
    rw [List.filterMap_flatMap, ← toolParts_spoken, List.filterMap_flatMap]
    exact flatMap_of_mapM hcontents fun m _ v hv => (messagePayload_view hv).1
  have htexts : (contents.flatMap messageParts).filterMap partText =
      (spoken messages).flatMap Message.texts := by
    rw [List.filterMap_flatMap]
    exact flatMap_of_mapM hcontents fun m _ v hv => (messagePayload_view hv).2
  have hsystem : ((systemParts messages).map fun s => .object [("text", PyValue.str s)]).filterMap
      partText = systemParts messages := by
    rw [List.filterMap_map]
    simp [Function.comp_def, partText, PyValue.asStr]
  refine ⟨?_, ?_, ?_⟩
  · simpa [view] using hentries
  · have hspells := spells_each (systemParts messages)
    by_cases hnil : systemParts messages = []
    · by_cases htools : tools = [] <;> simpa [view, hnil, htools] using hspells
    · simpa [view, hnil, hsystem] using hspells
  · have hspells := spells_each ((spoken messages).flatMap Message.texts)
    rw [← htexts] at hspells
    simpa [view, htexts] using hspells

theorem wrapped_response (v : PyValue) : Wrapped v (response v) := by
  cases v with
  | dict entries => exact Or.inl ⟨entries, rfl, rfl⟩
  | _ => exact Or.inr ⟨fun entries h => (by cases h), rfl⟩

/-- A payload is complete where every result has a call. -/
theorem complete (messages : List Message) (tools : List ToolDefinition)
    (h : ∀ part, .result part ∈ messages.flatMap Message.toolParts →
      ∃ call ∈ messages.flatMap Message.toolCalls, call.id = part.toolCallId) :
    ∃ p, payload messages tools = .ok p ∧ Complete format messages (view p) := by
  have hnames : ∀ part, .result part ∈ messages.flatMap Message.toolParts →
      ∃ name, Bindings.table (callNames messages) part.toolCallId = some name := by
    intro part hpart
    obtain ⟨call, hcall, hid⟩ := h part hpart
    have hbound : (call.id, call.name) ∈ callNames messages := List.mem_map.mpr ⟨call, hcall, rfl⟩
    obtain ⟨name, hname⟩ := Bindings.exists_latest ⟨_, hbound, hid⟩
    exact ⟨name, Bindings.table_eq_some.mpr hname⟩
  obtain ⟨p, hp⟩ := payload_succeeds tools hnames
  obtain ⟨hentries, hsystem, htexts⟩ := view_payload hp
  refine ⟨p, hp, ?_, hsystem, htexts⟩
  rw [hentries]
  generalize messages.flatMap Message.toolParts = parts at hnames
  induction parts with
  | nil => exact .nil
  | cons part parts ih =>
    have hrest := ih fun part' hpart' => hnames part' (List.mem_cons_of_mem part hpart')
    cases part with
    | call c => exact .cons ⟨rfl, rfl, rfl⟩ hrest
    | result part =>
      obtain ⟨name, hname⟩ := hnames part List.mem_cons_self
      have hcall : NamesCall messages part name := by
        obtain ⟨call, hcall, hpair⟩ := List.mem_map.mp (Bindings.table_eq_some.mp hname).mem
        obtain ⟨hid, hcallname⟩ := Prod.mk.inj hpair
        exact ⟨call, hcall, hid, hcallname⟩
      rw [List.filterMap_cons, entry, hname]
      exact .cons ⟨hcall, wrapped_response part.result⟩ hrest

end Gemini

-- ---------------------------------------------------------------------------
-- The three adapters
-- ---------------------------------------------------------------------------

/-- No adapter drops a part of the conversation; `gemini.py` asks for a call of every result. -/
structure EncodersComplete (json : PyJson) (model : PyStr) (maxTokens : Nat)
    (messages : List Message) (tools : List ToolDefinition) (stream : Bool) : Prop where
  openai : ∃ p, OpenAI.payload json model messages tools stream = .ok p ∧
    Complete (OpenAI.format json) messages (OpenAI.view p)
  anthropic : ∃ p, Anthropic.payload json model maxTokens messages tools stream = .ok p ∧
    Complete (Anthropic.format json) messages (Anthropic.view p)
  gemini : (∀ part, .result part ∈ messages.flatMap Message.toolParts →
      ∃ call ∈ messages.flatMap Message.toolCalls, call.id = part.toolCallId) →
    ∃ p, Gemini.payload messages tools = .ok p ∧ Complete Gemini.format messages (Gemini.view p)

/-- The adapters are complete exactly on the conversations whose tool messages have one result each,
and whose payloads survive `json.dumps`. The condition is the one of the OpenAI adapter, which
writes arguments and results as texts; those of the other two follow from it. -/
theorem encodersComplete_iff (json : PyJson) (model : PyStr) (maxTokens : Nat)
    (messages : List Message) (tools : List ToolDefinition) (stream : Bool) :
    EncodersComplete json model maxTokens messages tools stream ↔
      (∀ m ∈ messages, m.role = .tool → m.content.length = 1) ∧
        ∀ part ∈ messages.flatMap Message.toolParts, Survives json part.payload := by
  constructor
  · intro h
    exact (OpenAI.complete_iff json model messages tools stream).mp h.openai
  · rintro ⟨hsingle, hsurvives⟩
    constructor
    · exact (OpenAI.complete_iff json model messages tools stream).mpr ⟨hsingle, hsurvives⟩
    · exact (Anthropic.complete_iff json model maxTokens messages tools stream).mpr
        fun part hpart => hsurvives (.result part) hpart
    · exact Gemini.complete messages tools

namespace Sample

/-- Two calls without arguments. -/
def twoCalls : Message where
  id := 1
  role := .assistant
  content := [.toolCall ⟨[97], [97], [], isStrField_a, isToolName_a, isJson_empty⟩,
    .toolCall ⟨[98], [97], [], rfl, isToolName_a, isJson_empty⟩]
  size := ⟨by decide, by decide⟩
  validContent := rfl

/-- Their results, in one message. -/
def twoResults : Message where
  id := 2
  role := .tool
  content := [.toolResult ⟨[97], .int 1, isStrField_a, rfl⟩, .toolResult ⟨[98], .int 2, rfl, rfl⟩]
  size := ⟨by decide, by decide⟩
  validContent := rfl

def twoReader : PyJson := readerOf [.dict [], .int 1, .int 2]

end Sample

/-- Of two results in one message the second one is dropped, although every payload survives. -/
theorem second_result_dropped :
    (∀ part ∈ [Sample.twoCalls, Sample.twoResults].flatMap Message.toolParts,
      Survives Sample.twoReader part.payload) ∧
    ¬EncodersComplete Sample.twoReader [] 1 [Sample.twoCalls, Sample.twoResults] [] false := by
  constructor
  · intro part hpart
    simp only [Sample.twoCalls, Sample.twoResults, Message.toolParts, ContentPart.tool?,
      List.flatMap_cons, List.flatMap_nil, List.filterMap_cons, List.filterMap_nil,
      List.cons_append, List.nil_append, List.mem_cons, List.not_mem_nil, or_false] at hpart
    rcases hpart with rfl | rfl | rfl | rfl
    · exact ⟨_, .dict [], rfl, rfl, rfl⟩
    · exact ⟨_, .dict [], rfl, rfl, rfl⟩
    · exact ⟨_, .int 1, rfl, rfl, rfl⟩
    · exact ⟨_, .int 2, rfl, rfl, rfl⟩
  · intro h
    have hsingle := ((OpenAI.complete_iff _ _ _ _ _).mp h.openai).1 Sample.twoResults
      (by simp) rfl
    exact absurd hsingle (by decide)

end AgentRuntimeKit
