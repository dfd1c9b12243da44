import AgentRuntimeKit.Adapters.FrameworkMessages
import AgentRuntimeKit.Clients.Wire
import AgentRuntimeKit.Context.Groups

/-!
# Attribution of tool results

A canonical result part names its call by an identifier only; the tool it came from has to be
looked up. Two places of the package do so with a table from identifiers to names: `_payload` of
`gemini.py`, which puts a name on every `functionResponse`, and `framework_output`, which derives
`tool_results` from the new tool messages. Both tables are built over the whole conversation, and a
later call overwrites the name under its identifier.

Identifiers are unique within one model result only. So a result in the middle of a conversation may
be looked up under the name that a later call gave to its identifier. What a result should be named
after is the latest call *before* it with its identifier (`Latest`).

The theorems here assume:

* `WellFormed` — every result answers a call that is open, and every call is answered once, so that
  the latest call before a result is the one it answers;
* for the framework, a `FrameworkRun` — an output that was returned without an error and that the
  state gave no `tool_results` of its own. Tool messages with a name keep it (`isUnnamed`).

The reading of a table at an identifier is the last binding under it (`table_eq_some`). So what the
table of a list says agrees with `Latest` at a place exactly if no later binding under the
identifier is to another name, and the proofs carry this over the parts one by one. The framework
builds its table over the request and all converted messages, the repeated request among them; a
repetition changes nothing (`latest_names`).

## Results

* `Gemini.attributed_iff`    — the names are right iff no identifier has calls of two tools;
* `FrameworkRun.attributed_iff` — they are right iff the last later call with the identifier of an
  unnamed result, if there is one, is of the tool the result is of;
* `names_attributed_iff`     — both at once.
-/

namespace AgentRuntimeKit

open Lib Bindings

-- ---------------------------------------------------------------------------
-- Calls and results
-- ---------------------------------------------------------------------------

def ToolPart.event : ToolPart → Exchange.Event PyStr
  | call c => .opens c.id
  | result part => .closes part.toolCallId

def ToolPart.binding : ToolPart → Option (PyStr × PyStr)
  | call c => some (c.id, c.name)
  | result _ => none

def toolParts (messages : List Message) : List ToolPart := messages.flatMap Message.toolParts

/-- The names of the calls, under their identifiers. -/
def bindings (parts : List ToolPart) : List (PyStr × PyStr) := parts.filterMap ToolPart.binding

theorem bindings_append (as bs : List ToolPart) :
    bindings (as ++ bs) = bindings as ++ bindings bs :=
  List.filterMap_append

theorem toolEvents_eq (messages : List Message) :
    toolEvents messages = (toolParts messages).map ToolPart.event := by
  rw [toolEvents, toolParts, List.map_flatMap]
  refine List.flatMap_congr fun m _ => ?_
  rw [Message.toolParts, List.map_filterMap]
  refine List.filterMap_congr fun part _ => ?_
  cases part with
  | text part => rfl
  | toolCall call => rfl
  | toolResult part => rfl

theorem callNames_eq (messages : List Message) :
    callNames messages = bindings (toolParts messages) := by
  rw [callNames, bindings, toolParts, List.filterMap_flatMap, List.map_flatMap]
  refine List.flatMap_congr fun m _ => ?_
  rw [Message.toolCalls, Message.toolParts, List.filterMap_filterMap, List.map_filterMap]
  refine List.filterMap_congr fun part _ => ?_
  cases part with
  | text part => rfl
  | toolCall call => rfl
  | toolResult part => rfl

theorem callNames_append (as bs : List Message) :
    callNames (as ++ bs) = callNames as ++ callNames bs := by
  rw [callNames, List.flatMap_append, List.map_append]
  rfl

theorem mem_bindings {parts : List ToolPart} {id name : PyStr} :
    (id, name) ∈ bindings parts ↔ ∃ c, .call c ∈ parts ∧ c.id = id ∧ c.name = name := by
  rw [bindings, List.mem_filterMap]
  constructor
  · rintro ⟨part, hpart, hbinding⟩
    cases part with
    | call c =>
      obtain ⟨hid, hname⟩ := Prod.mk.inj (Option.some.inj hbinding)
      exact ⟨c, hpart, hid, hname⟩
    | result part => cases hbinding
  · rintro ⟨c, hc, rfl, rfl⟩
    exact ⟨.call c, hc, rfl⟩

/-- The parts of a list of events that are mapped from them. -/
theorem split_of_map {α β : Type} {f : α → β} {xs : List α} {before after : List β} {b : β}
    (h : xs.map f = before ++ b :: after) :
    ∃ l x r, xs = l ++ x :: r ∧ l.map f = before ∧ f x = b ∧ r.map f = after := by
  obtain ⟨l, rest, rfl, hl, hrest⟩ := List.map_eq_append_iff.mp h
  obtain ⟨x, r, rfl, hx, hr⟩ := List.map_eq_cons_iff.mp hrest
  exact ⟨l, x, r, rfl, hl, hx, hr⟩

section WellFormed

variable {parts before after : List ToolPart}

/-- A result answers a call before it. -/
theorem exists_latest_call (h : Exchange.WellFormed (parts.map ToolPart.event))
    {r : ToolResultContent} (heq : parts = before ++ .result r :: after) :
    ∃ name, Latest r.toolCallId name (bindings before) := by
  have hopen : Exchange.Open r.toolCallId (before.map ToolPart.event) :=
    h.called _ _ (after.map ToolPart.event) (by rw [heq, List.map_append]; rfl)
  obtain ⟨_, _, hsplit, -⟩ := hopen
  obtain ⟨l, part, rest, rfl, -, hpart, -⟩ := split_of_map hsplit
  cases part with
  | call c =>
    have hid : c.id = r.toolCallId := Exchange.Event.opens.inj hpart
    have hmem : (c.id, c.name) ∈ bindings (l ++ .call c :: rest) :=
      mem_bindings.mpr ⟨c, List.mem_append_right l List.mem_cons_self, rfl, rfl⟩
    exact exists_latest ⟨_, hmem, hid⟩
  | result part => cases hpart

/-- A call is the latest one with its identifier when it is answered. -/
theorem exists_answer (h : Exchange.WellFormed (parts.map ToolPart.event)) {c : ToolCall}
    (heq : parts = before ++ .call c :: after) :
    ∃ between r rest, after = between ++ .result r :: rest ∧ r.toolCallId = c.id ∧
      Latest c.id c.name (bindings (before ++ .call c :: between)) := by
  have hclosed : Exchange.Closed c.id (after.map ToolPart.event) :=
    h.answered (before.map ToolPart.event) _ _ (by rw [heq, List.map_append]; rfl)
  obtain ⟨_, _, hsplit, hbetween⟩ := hclosed
  obtain ⟨l, part, rest, rfl, rfl, hpart, -⟩ := split_of_map hsplit
  cases part with
  | call c' => cases hpart
  | result r =>
    refine ⟨l, r, rest, rfl, Exchange.Event.closes.inj hpart, ?_⟩
    refine ⟨bindings before, bindings l, bindings_append before _, ?_⟩
    rintro ⟨id, name⟩ hmem hid
    obtain ⟨c', hc', rfl, rfl⟩ := mem_bindings.mp hmem
    exact hbetween _ (List.mem_map_of_mem hc') hid

/-- The last call of all with the identifier of a result is of the same tool as the call the result
answers, wherever the result stands. -/
theorem namedAlike_iff (h : Exchange.WellFormed (parts.map ToolPart.event)) :
    (∀ before r after, parts = before ++ .result r :: after → ∀ name,
        Latest r.toolCallId name (bindings parts) → Latest r.toolCallId name (bindings before)) ↔
      ∀ c, .call c ∈ parts → ∀ c', .call c' ∈ parts → c.id = c'.id → c.name = c'.name := by
  constructor
  · intro hall
    -- every call is answered, and then it is the latest one
    have hlast : ∀ c, .call c ∈ parts → ∀ name,
        Latest c.id name (bindings parts) → name = c.name := by
      intro c hc name hname
      obtain ⟨before, after, heq⟩ := List.append_of_mem hc
      obtain ⟨between, r, rest, rfl, hid, hlatest⟩ := exists_answer h heq
      have hresult := hall (before ++ .call c :: between) r rest
        (by rw [heq, List.append_assoc, List.cons_append]) name (by rw [hid]; exact hname)
      rw [hid] at hresult
      exact hresult.unique hlatest
    intro c hc c' hc' hid
    have hbound : (c.id, c.name) ∈ bindings parts := mem_bindings.mpr ⟨c, hc, rfl, rfl⟩
    obtain ⟨name, hname⟩ := exists_latest ⟨_, hbound, rfl⟩
    rw [← hlast c hc name hname]
    exact hlast c' hc' name (hid ▸ hname)
  · intro hsame before r after heq name hname
    obtain ⟨name', hname'⟩ := exists_latest_call h heq
    obtain ⟨c, hc, hid, rfl⟩ := mem_bindings.mp hname.mem
    obtain ⟨c', hc', hid', rfl⟩ := mem_bindings.mp hname'.mem
    have hc'all : .call c' ∈ parts := by
      rw [heq]
      exact List.mem_append_left _ hc'
    rw [hsame c hc c' hc'all (hid.trans hid'.symm)]
    exact hname'

end WellFormed

/-- Where one relation holds, another is a property of the left side. -/
theorem forall₂_iff_of_forall₂ {α β : Type} {P Q : α → β → Prop} {S : α → Prop} {xs : List α}
    {ys : List β} (h : List.Forall₂ P xs ys) (hiff : ∀ x ∈ xs, ∀ y, P x y → (Q x y ↔ S x)) :
    List.Forall₂ Q xs ys ↔ ∀ x ∈ xs, S x := by
  induction h with
  | nil => exact iff_of_true .nil fun x hx => absurd hx List.not_mem_nil
  | @cons x y xs ys hxy _ ih =>
    have hrest := ih fun z hz => hiff z (List.mem_cons_of_mem x hz)
    rw [List.forall₂_cons, hiff x List.mem_cons_self y hxy, hrest, List.forall_mem_cons]

-- ---------------------------------------------------------------------------
-- Gemini
-- ---------------------------------------------------------------------------

namespace Gemini

/-- The entry of a part names the latest call before it with its identifier. -/
def Answers : List ToolPart × ToolPart → WireEntry → Prop
  | (before, .result part), .result name _ => Latest part.toolCallId name (bindings before)
  | (_, .call c), .call _ name _ => name = c.name
  | _, _ => False

/-- Every `functionResponse` of the payload is under the name of the call it answers. -/
def Attributed (messages : List Message) (tools : List ToolDefinition) : Prop :=
  ∃ p, payload messages tools = .ok p ∧
    List.Forall₂ Answers (preceded [] (toolParts messages)) (view p).entries

/-- Every part has its entry, which is named by the table. -/
theorem entries_view {messages : List Message} {tools : List ToolDefinition} {p : PyValue}
    (h : payload messages tools = .ok p)
    (hnames : ∀ part, .result part ∈ toolParts messages →
      ∃ name, Latest part.toolCallId name (callNames messages)) :
    List.Forall₂ (fun part e => entry (table (callNames messages)) part = some e)
      (toolParts messages) (view p).entries := by
  obtain ⟨hentries, -⟩ := view_payload h
  rw [hentries]
  change List.Forall₂ _ _ ((toolParts messages).filterMap _)
  generalize toolParts messages = parts at hnames
  induction parts with
  | nil => exact .nil
  | cons part parts ih =>
    have hrest := ih fun part' hpart' => hnames part' (List.mem_cons_of_mem part hpart')
    have hpart : ∃ e, entry (table (callNames messages)) part = some e := by
      cases part with
      | call c => exact ⟨_, rfl⟩
      | result part =>
        obtain ⟨name, hname⟩ := hnames part List.mem_cons_self
        rw [entry, table_eq_some.mpr hname]
        exact ⟨_, rfl⟩
    obtain ⟨e, he⟩ := hpart
    rw [List.filterMap_cons_some he]
    exact .cons he hrest

theorem mem_toolCalls {messages : List Message} {c : ToolCall} :
    c ∈ messages.flatMap Message.toolCalls ↔ .call c ∈ toolParts messages := by
  simp only [toolParts, Message.toolCalls, Message.toolParts, List.mem_flatMap, List.mem_filterMap]
  refine exists_congr fun m => and_congr_right fun _ => exists_congr fun part =>
    and_congr_right fun _ => ?_
  cases part <;> simp [ContentPart.toolCall?, ContentPart.tool?]

theorem answers_iff {messages : List Message} {q : List ToolPart × ToolPart} {e : WireEntry}
    (h : entry (table (callNames messages)) q.2 = some e) :
    Answers q e ↔ ∀ r, q.2 = .result r → ∀ name,
      Latest r.toolCallId name (callNames messages) → Latest r.toolCallId name (bindings q.1) := by
  obtain ⟨before, part⟩ := q
  cases part with
  | call c =>
    cases h
    exact iff_of_true rfl fun r hr => by cases hr
  | result part =>
    obtain ⟨name, hname, rfl⟩ := Option.map_eq_some_iff.mp h
    have hlatest := table_eq_some.mp hname
    constructor
    · intro hanswers r hr name' hname'
      cases hr
      rw [hname'.unique hlatest]
      exact hanswers
    · intro hall
      exact hall part rfl name hlatest

/-- The names are right if and only if no identifier is used for calls of two tools. -/
theorem attributed_iff {messages : List Message} (h : WellFormed messages)
    (tools : List ToolDefinition) :
    Attributed messages tools ↔ ∀ c ∈ messages.flatMap Message.toolCalls,
      ∀ c' ∈ messages.flatMap Message.toolCalls, c.id = c'.id → c.name = c'.name := by
  have hwf : Exchange.WellFormed ((toolParts messages).map ToolPart.event) := by
    rw [← toolEvents_eq]
    exact h
  have hnames : ∀ part, .result part ∈ toolParts messages →
      ∃ name, Latest part.toolCallId name (callNames messages) := by
    intro part hpart
    obtain ⟨before, after, heq⟩ := List.append_of_mem hpart
    obtain ⟨name, hname⟩ := exists_latest_call hwf heq
    rw [callNames_eq]
    refine exists_latest ⟨(part.toolCallId, name), ?_, rfl⟩
    rw [heq, bindings_append]
    exact List.mem_append_left _ hname.mem
  obtain ⟨p, hp⟩ := payload_succeeds tools fun part hpart => by
    obtain ⟨name, hname⟩ := hnames part hpart
    exact ⟨name, table_eq_some.mpr hname⟩
  have hentries := (forall₂_preceded []).mpr (entries_view hp hnames)
  have hattributed : Attributed messages tools ↔ List.Forall₂ Answers
      (preceded [] (toolParts messages)) (view p).entries := by
    constructor
    · rintro ⟨p', hp', hforall⟩
      rw [hp] at hp'
      cases hp'
      exact hforall
    · intro hforall
      exact ⟨p, hp, hforall⟩
  have hright := forall₂_iff_of_forall₂ (Q := Answers) hentries fun q _ e he => answers_iff he
  rw [hattributed, hright, callNames_eq]
  have hnamed := namedAlike_iff hwf
  simp only [← mem_toolCalls] at hnamed
  rw [← hnamed]
  constructor
  · intro hall before r after heq
    exact hall (before, .result r) (mem_preceded.mpr ⟨before, after, heq, rfl⟩) r rfl
  · rintro hnamed ⟨before, part⟩ hmem r hr
    obtain ⟨l, after, heq, hbefore⟩ := mem_preceded.mp hmem
    obtain rfl : part = .result r := hr
    obtain rfl : before = l := hbefore
    exact hnamed before r after heq

end Gemini

-- ---------------------------------------------------------------------------
-- Framework output
-- ---------------------------------------------------------------------------

/-- The call a tool message answers, and its own name. -/
def FrameworkItem.tool? : FrameworkItem → Option (PyStr × Option PyStr)
  | native ⟨_, _, _, .tool toolCallId name _⟩ => some (toolCallId, name)
  | _ => none

def toolOf (pair : FrameworkItem × Message) : Option (PyStr × Option PyStr) := pair.1.tool?

/-- `not message.name`. -/
def isUnnamed (name : Option PyStr) : Prop := name.getD [] = []

/-- A run of `framework_output` that derives the tool results. -/
structure FrameworkRun where
  json : FrameworkJson
  ids : FrameworkIds
  value : FrameworkValue
  request : InvocationInput
  envelope : FrameworkState
  originals : List FrameworkItem
  converted : List Message
  output : InvocationOutput
  hasEnvelope : value.envelope = .ok envelope
  hasMessages : envelope.messages = some originals
  converts : convertAll json ids 0 originals = .ok converted
  derives : envelope.toolResults = none
  returns : frameworkOutput json ids value request = .ok output

namespace FrameworkRun

/-- The messages that do not repeat the request, with their translations. -/
def produced (run : FrameworkRun) : List (FrameworkItem × Message) :=
  (run.originals.drop (prefixLength run.request run.converted)).zip
    (run.converted.drop (prefixLength run.request run.converted))

def conversation (run : FrameworkRun) : List Message :=
  run.request.messages ++ run.produced.map Prod.snd

/-- The tool messages that are new, each with the conversation before it. -/
def answers (run : FrameworkRun) : List (List Message × PyStr × Option PyStr) :=
  (preceded [] run.produced).filterMap fun q =>
    (toolOf q.2).map fun tool => (run.request.messages ++ q.1.map Prod.snd, tool)

/-- The result is of the tool of the latest call before the message. -/
def Answers (answer : List Message × PyStr × Option PyStr) (r : ToolResult) : Prop :=
  r.toolCallId = answer.2.1 ∧
    (isUnnamed answer.2.2 → Latest answer.2.1 r.toolName (callNames answer.1))

/-- Every result of a tool message without a name has the name of the call it answers. -/
def Attributed (run : FrameworkRun) : Prop :=
  List.Forall₂ Answers run.answers run.output.toolResults

/-- The last later call with the identifier of an unnamed tool message is of the same tool as the
call it answers. -/
def KeepsNames (run : FrameworkRun) : Prop :=
  ∀ before item canonical after toolCallId name,
    run.produced = before ++ (item, canonical) :: after → item.tool? = some (toolCallId, name) →
      isUnnamed name → ∀ x y,
        Latest toolCallId x (callNames (run.request.messages ++ before.map Prod.snd)) →
          Latest toolCallId y (callNames (after.map Prod.snd)) → y = x

end FrameworkRun

theorem toolName_of_unnamed {names : PyStr → Option PyStr} {id : PyStr} {name : Option PyStr}
    (h : isUnnamed name) : toolName names id name = names id := by
  match name, h with
  | none, _ => rfl
  | some [], _ => rfl

theorem toolResultOf_eq_ok {ids : FrameworkIds} {names : PyStr → Option PyStr} {id : PyStr}
    {name : Option PyStr} {failed : Bool} {canonical : Message} {r : ToolResult}
    (h : toolResultOf ids names id name failed canonical = .ok r) :
    r.toolCallId = id ∧ toolName names id name = some r.toolName := by
  unfold toolResultOf at h
  split at h
  · cases h
  · cases h
  · next hname _ =>
    split at h
    · cases h
      exact ⟨rfl, hname⟩
    · cases h
  · cases h

/-- The results of the loop, one for each tool message. -/
theorem foldlM_collect {ids : FrameworkIds} {names : PyStr → Option PyStr}
    {pairs : List (FrameworkItem × Message)} {acc c : Collected}
    (h : pairs.foldlM (collect ids names) acc = .ok c) :
    ∃ rs, c.results = acc.results ++ rs ∧ List.Forall₂ (fun tool r =>
      r.toolCallId = tool.1 ∧ toolName names tool.1 tool.2 = some r.toolName)
        (pairs.filterMap toolOf) rs := by
  induction pairs generalizing acc with
  | nil =>
    cases h
    exact ⟨[], (List.append_nil _).symm, .nil⟩
  | cons pair pairs ih =>
    obtain ⟨acc', hstep, h⟩ := bind_eq_ok.mp h
    obtain ⟨rs, hresults, hforall⟩ := ih h
    obtain ⟨item, canonical⟩ := pair
    unfold collect at hstep
    simp only at hstep
    split at hstep
    · obtain ⟨usage, -, hstep⟩ := bind_eq_ok.mp hstep
      cases hstep
      exact ⟨rs, hresults, hforall⟩
    · obtain ⟨r, hr, hstep⟩ := bind_eq_ok.mp hstep
      cases hstep
      refine ⟨r :: rs, ?_, .cons (toolResultOf_eq_ok hr) hforall⟩
      rw [hresults, List.append_assoc]
      rfl
    · next hnone =>
      cases hstep
      refine ⟨rs, hresults, ?_⟩
      have htool : toolOf (item, canonical) = none := by
        match item with
        | .other _ => rfl
        | .native ⟨_, _, _, .human⟩ => rfl
        | .native ⟨_, _, _, .system⟩ => rfl
        | .native ⟨_, _, _, .ai _ _ _⟩ => rfl
        | .native ⟨_, _, _, .other⟩ => rfl
        | .native ⟨a, b, c, .tool d e f⟩ => exact absurd rfl (hnone a b c d e f)
      rw [List.filterMap_cons_none htool]
      exact hforall

theorem convertAll_forall₂ {json : FrameworkJson} {ids : FrameworkIds} {draw : Nat}
    {items : List FrameworkItem} {messages : List Message}
    (h : convertAll json ids draw items = .ok messages) :
    List.Forall₂ (fun item m => ∃ draw, convert json ids draw item = .ok m) items messages := by
  induction items generalizing draw messages with
  | nil =>
    cases h
    exact .nil
  | cons item items ih =>
    obtain ⟨m, hm, h⟩ := bind_eq_ok.mp h
    obtain ⟨ms, hms, h⟩ := bind_eq_ok.mp h
    cases h
    exact .cons ⟨draw, hm⟩ (ih hms)

/-- The translation of a tool message is its result. -/
theorem content_of_convert {json : FrameworkJson} {ids : FrameworkIds} {draw : Nat}
    {item : FrameworkItem} {m : Message} {toolCallId : PyStr} {name : Option PyStr}
    (h : convert json ids draw item = .ok m) (htool : item.tool? = some (toolCallId, name)) :
    ∃ part, m.content = [.toolResult part] ∧ part.toolCallId = toolCallId := by
  match item, htool with
  | .native ⟨id, chunk, content, .tool _ _ failed⟩, rfl =>
    rw [convert, fromFrameworkMessage] at h
    split at h
    · cases h
    · obtain ⟨parts, -, h⟩ := bind_eq_ok.mp h
      obtain ⟨result, -, h⟩ := bind_eq_ok.mp h
      obtain ⟨part, hpart, h⟩ := bind_eq_ok.mp h
      obtain ⟨hid, hjson, rfl⟩ := ToolResultContent.new_eq_ok.mp hpart
      unfold Message.new at h
      split at h
      · cases h
        exact ⟨_, rfl, rfl⟩
      · cases h

theorem ContentPart.name_of_eq {a b : ContentPart} (h : a.eq b = true) :
    a.tool?.bind ToolPart.binding = b.tool?.bind ToolPart.binding := by
  cases a with
  | text a =>
    cases b with
    | text b => rfl
    | toolCall b => cases h
    | toolResult b => cases h
  | toolCall a =>
    cases b with
    | text b => cases h
    | toolCall b =>
      simp only [ContentPart.eq, ToolCall.eq, Bool.and_eq_true, decide_eq_true_eq] at h
      simp only [ContentPart.tool?, Option.bind_some, ToolPart.binding, h.1.1, h.1.2]
    | toolResult b => cases h
  | toolResult a =>
    cases b with
    | text b => cases h
    | toolCall b => cases h
    | toolResult b => rfl

/-- Equal messages make the same calls. -/
theorem callNames_of_messagesEq {as bs : List Message} (h : messagesEq as bs = true) :
    callNames as = callNames bs := by
  have hparts : ∀ {ps qs : List ContentPart}, partsEq ps qs = true →
      bindings (ps.filterMap ContentPart.tool?) = bindings (qs.filterMap ContentPart.tool?) := by
    intro ps
    induction ps with
    | nil =>
      intro qs h
      cases qs with
      | nil => rfl
      | cons q qs => cases h
    | cons p ps ih =>
      intro qs h
      cases qs with
      | nil => cases h
      | cons q qs =>
        rw [partsEq, Bool.and_eq_true] at h
        have hrest := ih h.2
        have hhead := ContentPart.name_of_eq h.1
        simp only [bindings, List.filterMap_filterMap] at hrest ⊢
        rw [List.filterMap_cons, List.filterMap_cons, hhead, hrest]
  induction as generalizing bs with
  | nil =>
    cases bs with
    | nil => rfl
    | cons b bs => cases h
  | cons a as ih =>
    cases bs with
    | nil => cases h
    | cons b bs =>
      rw [messagesEq, Bool.and_eq_true] at h
      have hrest := ih h.2
      rw [Message.eq, Bool.and_eq_true] at h
      rw [callNames_eq, callNames_eq] at hrest ⊢
      simp only [toolParts, List.flatMap_cons, bindings_append] at hrest ⊢
      rw [hrest]
      exact congrArg (· ++ _) (hparts h.1.2)

namespace FrameworkRun

variable (run : FrameworkRun)

theorem produced_messages : run.produced.map Prod.snd =
    run.converted.drop (prefixLength run.request run.converted) := by
  have hlength := (convertAll_forall₂ run.converts).length_eq
  rw [produced, List.map_snd_zip]
  rw [List.length_drop, List.length_drop, hlength]

/-- The table has what the conversation has, although it reads a repeated request twice. -/
theorem latest_names (id name : PyStr) :
    Latest id name (callNames (run.request.messages ++ run.converted)) ↔
      Latest id name (callNames run.conversation) := by
  rw [conversation, produced_messages, prefixLength]
  split
  · next hrepeats =>
    have hsame := callNames_of_messagesEq hrepeats
    have hsplit : callNames run.converted = callNames run.request.messages ++
        callNames (run.converted.drop run.request.messages.length) := by
      rw [← hsame, ← callNames_append, List.take_append_drop]
    rw [callNames_append, callNames_append, hsplit]
    exact latest_repeat
  · rw [List.drop_zero]

/-- The derived results, one for each tool message. -/
theorem results : List.Forall₂ (fun tool r => r.toolCallId = tool.1 ∧
    toolName (table (callNames (run.request.messages ++ run.converted))) tool.1 tool.2 =
      some r.toolName) (run.produced.filterMap toolOf) run.output.toolResults := by
  have hreturns := run.returns
  unfold frameworkOutput at hreturns
  rw [bind_of_ok run.hasEnvelope, run.hasMessages] at hreturns
  simp only at hreturns
  rw [bind_of_ok run.converts] at hreturns
  obtain ⟨collected, hcollect, houtput⟩ := bind_eq_ok.mp hreturns
  obtain ⟨rs, hresults, hforall⟩ := foldlM_collect hcollect
  rw [run.derives, Option.getD_none] at houtput
  obtain ⟨metadata, -, houtput⟩ := bind_eq_ok.mp houtput
  obtain ⟨toolResults, htoolResults, houtput⟩ := bind_eq_ok.mp houtput
  obtain ⟨usage, -, houtput⟩ := bind_eq_ok.mp houtput
  have hsame : run.output.toolResults = collected.results := by
    rw [(InvocationOutput.new_eq_ok.mp houtput).2, Except.ok.inj htoolResults]
  rw [hsame, hresults]
  exact hforall

theorem mem_answers {answer : List Message × PyStr × Option PyStr} :
    answer ∈ run.answers ↔ ∃ before item canonical after,
      run.produced = before ++ (item, canonical) :: after ∧ item.tool? = some answer.2 ∧
        answer.1 = run.request.messages ++ before.map Prod.snd := by
  rw [answers, List.mem_filterMap]
  constructor
  · rintro ⟨⟨before, item, canonical⟩, hmem, hanswer⟩
    obtain ⟨tool, htool, rfl⟩ := Option.map_eq_some_iff.mp hanswer
    obtain ⟨l, after, heq, hbefore⟩ := mem_preceded.mp hmem
    obtain rfl : before = l := hbefore
    exact ⟨before, item, canonical, after, heq, htool, rfl⟩
  · rintro ⟨before, item, canonical, after, heq, htool, hbefore⟩
    refine ⟨(before, item, canonical), mem_preceded.mpr ⟨before, after, heq, rfl⟩, ?_⟩
    show (toolOf (item, canonical)).map _ = some answer
    rw [toolOf, htool, Option.map_some, ← hbefore]

/-- In a well-formed conversation a tool message answers a call before it, and calls nothing. -/
theorem exists_latest_answer (h : WellFormed run.conversation)
    {before after : List (FrameworkItem × Message)} {item : FrameworkItem} {canonical : Message}
    {toolCallId : PyStr} {name : Option PyStr}
    (heq : run.produced = before ++ (item, canonical) :: after)
    (htool : item.tool? = some (toolCallId, name)) :
    callNames run.conversation = callNames (run.request.messages ++ before.map Prod.snd) ++
        callNames (after.map Prod.snd) ∧
      ∃ x, Latest toolCallId x (callNames (run.request.messages ++ before.map Prod.snd)) := by
  have hconverted : ∃ draw, convert run.json run.ids draw item = .ok canonical := by
    have hmem : (item, canonical) ∈ run.produced := by
      rw [heq]
      exact List.mem_append_right _ List.mem_cons_self
    have hforall := List.forall₂_drop (prefixLength run.request run.converted)
      (convertAll_forall₂ run.converts)
    exact (List.forall₂_iff_zip.mp hforall).2 hmem
  obtain ⟨draw, hconvert⟩ := hconverted
  obtain ⟨part, hcontent, rfl⟩ := content_of_convert hconvert htool
  have hparts : canonical.toolParts = [.result part] := by
    rw [Message.toolParts, hcontent]
    rfl
  have hsplit : toolParts run.conversation =
      toolParts (run.request.messages ++ before.map Prod.snd) ++
        .result part :: toolParts (after.map Prod.snd) := by
    rw [conversation, heq]
    simp only [toolParts, List.map_append, List.map_cons, List.flatMap_append, List.flatMap_cons,
      hparts, List.append_assoc, List.cons_append, List.nil_append]
  have hwf : Exchange.WellFormed ((toolParts run.conversation).map ToolPart.event) := by
    rw [← toolEvents_eq]
    exact h
  constructor
  · rw [callNames_eq, callNames_eq, callNames_eq, hsplit, bindings_append]
    rfl
  · rw [callNames_eq]
    exact exists_latest_call hwf hsplit

/-- The names are right if and only if no later call takes an identifier over for another tool. -/
theorem attributed_iff (h : WellFormed run.conversation) : run.Attributed ↔ run.KeepsNames := by
  have hresults : List.Forall₂ (fun answer r => r.toolCallId = answer.2.1 ∧
      toolName (table (callNames (run.request.messages ++ run.converted))) answer.2.1 answer.2.2 =
        some r.toolName) run.answers run.output.toolResults := by
    have htools : run.answers.map Prod.snd = run.produced.filterMap toolOf := by
      rw [answers, List.map_filterMap, ← preceded_map_snd [] run.produced, List.filterMap_map,
        preceded_map_snd]
      refine List.filterMap_congr fun q _ => ?_
      show ((toolOf q.2).map _).map _ = toolOf q.2
      cases toolOf q.2 with
      | none => rfl
      | some tool => rfl
    have hresults := run.results
    rw [← htools, List.forall₂_map_left_iff] at hresults
    exact hresults
  have hright := forall₂_iff_of_forall₂ (Q := Answers) (S := fun answer => isUnnamed answer.2.2 →
    ∀ x, Latest answer.2.1 x (callNames run.conversation) →
      Latest answer.2.1 x (callNames answer.1)) hresults (by
    rintro ⟨before, id, name⟩ - r ⟨hid, hname⟩
    constructor
    · rintro ⟨-, hanswers⟩ hunnamed x hx
      rw [toolName_of_unnamed hunnamed, table_eq_some, run.latest_names] at hname
      rw [hx.unique hname]
      exact hanswers hunnamed
    · intro hall
      refine ⟨hid, fun hunnamed => hall hunnamed _ ?_⟩
      rw [toolName_of_unnamed hunnamed, table_eq_some, run.latest_names] at hname
      exact hname)
  rw [Attributed, hright]
  constructor
  · intro hall before item canonical after id name heq htool hunnamed x y hx
    obtain ⟨hnames, -⟩ := run.exists_latest_answer h heq htool
    have hmem : (run.request.messages ++ before.map Prod.snd, id, name) ∈ run.answers :=
      run.mem_answers.mpr ⟨before, item, canonical, after, heq, htool, rfl⟩
    obtain ⟨z, hz⟩ : ∃ z, Latest id z (callNames run.conversation) := by
      rw [hnames]
      exact exists_latest ⟨(id, x), List.mem_append_left _ hx.mem, rfl⟩
    have hzx : z = x := (hall _ hmem hunnamed z hz).unique hx
    rw [hzx, hnames] at hz
    exact (latest_append_iff hx).mp hz y
  · rintro hkeeps ⟨messages, id, name⟩ hmem hunnamed z hz
    obtain ⟨before, item, canonical, after, heq, htool, rfl⟩ := run.mem_answers.mp hmem
    obtain ⟨hnames, x, hx⟩ := run.exists_latest_answer h heq htool
    have hx' := (latest_append_iff hx).mpr
      (hkeeps before item canonical after id name heq htool hunnamed x · hx)
    rw [← hnames] at hx'
    rw [hz.unique hx']
    exact hx

end FrameworkRun

-- ---------------------------------------------------------------------------
-- Both places
-- ---------------------------------------------------------------------------

/-- Both name results rightly in a well-formed conversation exactly if no identifier goes over to
another tool in a way that the table of the whole conversation would show. For a payload that is any
second tool under an identifier, since a well-formed conversation answers the first call too; for
framework output it takes an unnamed tool message and a later call. -/
theorem names_attributed_iff {messages : List Message} (h : WellFormed messages)
    (tools : List ToolDefinition) (run : FrameworkRun) (hrun : WellFormed run.conversation) :
    (Gemini.Attributed messages tools ↔ ∀ c ∈ messages.flatMap Message.toolCalls,
      ∀ c' ∈ messages.flatMap Message.toolCalls, c.id = c'.id → c.name = c'.name) ∧
    (run.Attributed ↔ run.KeepsNames) :=
  ⟨Gemini.attributed_iff h tools, run.attributed_iff hrun⟩

namespace Sample

def nameA : PyStr := PyStr.ofString "a"

def nameB : PyStr := PyStr.ofString "b"

theorem isStrField_nameA : isStrField 1 256 nameA = true := rfl

theorem isToolName_nameA : isToolName nameA = true := rfl

theorem isToolName_nameB : isToolName nameB = true := rfl

/-- A call with the one identifier of these samples. -/
def callOf (name : PyStr) (h : isToolName name = true) : Message where
  id := 1
  role := .assistant
  content := [.toolCall ⟨nameA, name, [], isStrField_nameA, h, isJson_empty⟩]
  size := one_part
  validContent := rfl

def resultOfCall : Message where
  id := 2
  role := .tool
  content := [.toolResult ⟨nameA, .none, isStrField_nameA, isJson_none⟩]
  size := one_part
  validContent := rfl

/-- An identifier that is used for a second tool after its exchange has closed. -/
def reusing : List Message :=
  [callOf nameA isToolName_nameA, resultOfCall, callOf nameB isToolName_nameB, resultOfCall]

/-- `json`, for `null` and for what is no JSON. -/
def nullJson : FrameworkJson where
  dumps v :=
    match v.dumps? (.plain false) with
    | some t => .ok t
    | none => .error (.py .valueError "Exceeds the limit for integer string conversion")
  loads t := .ok (if t = PyStr.ofString "null" then some .none else none)

def countingIds : FrameworkIds := ⟨fun draw => BitVec.ofNat 128 draw, fun u _ => u⟩

def nativeResult : BaseMessage :=
  ⟨none, false, .str (PyStr.ofString "null"), .tool nameA none false⟩

def nativeCall (name : PyStr) : BaseMessage :=
  ⟨none, false, .blocks [], .ai [⟨some nameA, name, []⟩] false none⟩

def callRequest : InvocationInput := ⟨⟨1, 2, none⟩, [callOf nameA isToolName_nameA], []⟩

/-- The framework answers the call, and calls a tool under the same identifier. -/
def runOf (name : PyStr) : Except Exn InvocationOutput :=
  frameworkOutput nullJson countingIds
    (.sequence [.native nativeResult, .native (nativeCall name), .native nativeResult]) callRequest

def resultOf (x : Except Exn InvocationOutput) : InvocationOutput :=
  match x with
  | .ok output => output
  | .error _ => ⟨[], [], none, []⟩

def translated (draw : Nat) (content : ContentPart) (role : Role)
    (h : validToolContent role [content] = true) : Message :=
  ⟨BitVec.ofNat 128 draw, role, [content], one_part, h⟩

def reusingRun : FrameworkRun where
  json := nullJson
  ids := countingIds
  value := .sequence [.native nativeResult, .native (nativeCall nameB), .native nativeResult]
  request := callRequest
  envelope := ⟨some [.native nativeResult, .native (nativeCall nameB), .native nativeResult],
    none, none, none⟩
  originals := [.native nativeResult, .native (nativeCall nameB), .native nativeResult]
  converted := [translated 0 (.toolResult ⟨nameA, .none, isStrField_nameA, isJson_none⟩) .tool rfl,
    translated 1 (.toolCall ⟨nameA, nameB, [], isStrField_nameA, isToolName_nameB, isJson_empty⟩)
      .assistant rfl,
    translated 2 (.toolResult ⟨nameA, .none, isStrField_nameA, isJson_none⟩) .tool rfl]
  output := resultOf (runOf nameB)
  hasEnvelope := rfl
  hasMessages := rfl
  converts := rfl
  derives := rfl
  returns := rfl

end Sample

theorem names_attributed_reusing :
    (Gemini.Attributed Sample.reusing [] ↔ ∀ c ∈ Sample.reusing.flatMap Message.toolCalls,
      ∀ c' ∈ Sample.reusing.flatMap Message.toolCalls, c.id = c'.id → c.name = c'.name) ∧
    (Sample.reusingRun.Attributed ↔ Sample.reusingRun.KeepsNames) :=
  names_attributed_iff (by decide) [] Sample.reusingRun (by decide)

/-- With an identifier used for a second tool, both places give the first result its name. -/
theorem reused_identifier_misnamed :
    WellFormed Sample.reusing ∧ ¬Gemini.Attributed Sample.reusing [] ∧
      WellFormed Sample.reusingRun.conversation ∧ ¬Sample.reusingRun.Attributed := by
  have hreusing : WellFormed Sample.reusing := by decide
  have hrun : WellFormed Sample.reusingRun.conversation := by decide
  refine ⟨hreusing, fun h => ?_, hrun, fun h => ?_⟩
  · have hsame := (Gemini.attributed_iff hreusing []).mp h
      ⟨Sample.nameA, Sample.nameA, [], rfl, rfl, rfl⟩ List.mem_cons_self
      ⟨Sample.nameA, Sample.nameB, [], rfl, rfl, rfl⟩
      (List.mem_cons_of_mem _ List.mem_cons_self) rfl
    exact absurd hsame (by decide)
  · have hkeeps := (Sample.reusingRun.attributed_iff hrun).mp h [] _ _ _ Sample.nameA none rfl rfl
      rfl Sample.nameA Sample.nameB ⟨[], [], rfl, fun b hb => absurd hb List.not_mem_nil⟩
      ⟨[], [], rfl, fun b hb => absurd hb List.not_mem_nil⟩
    exact absurd hkeeps (by decide)

end AgentRuntimeKit
