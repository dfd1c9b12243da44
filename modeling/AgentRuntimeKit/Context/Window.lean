import AgentRuntimeKit.Model.Messages
import Mathlib.Algebra.BigOperators.Group.Finset.Basic
import Mathlib.Data.Finset.Sort
import Mathlib.Order.Interval.Finset.Nat

/-!
# Initial-context selection

`context.py`: the materialized selector `ContextWindow.select` and the
incremental one, `_StreamingSelection` behind `ContextWindow.select_stream`.

Both take the canonical encoding of a message,
`json.dumps(message.model_dump(mode="json"), ensure_ascii=False,
separators=(",", ":"), allow_nan=False).encode("utf-8")`, as the parameter
`encode`: it may raise, and the selectors use nothing of it but the number of
bytes. A copied message is the message.
-/

namespace AgentRuntimeKit

open Lib

/-- `ContextSelection`. The two omission counts are differences in the source
and are integers here. -/
structure ContextSelection where
  messages : List Message
  inputBytes : Nat
  selectedBytes : Nat
  historyMessages : Nat
  requestMessages : Nat
  omittedHistoryMessages : Int
  omittedHistoryGroups : Int

/-- `ContextWindow`, with the check of `__post_init__` as a field. -/
structure ContextWindow where
  maxBytes : Nat
  valid : 2 ≤ maxBytes

abbrev Encoder := Message → Except Exn (List UInt8)

def ambiguousExchange : Exn :=
  .kit .contextSelection "Context contains an ambiguous tool exchange"

def unmatchedResult : Exn :=
  .kit .contextSelection "Context contains an unmatched tool result"

def incompleteExchange : Exn :=
  .kit .contextSelection "Context contains an incomplete tool exchange"

def budgetExceeded : Exn :=
  .kit .contextBudgetExceeded "Mandatory context exceeds the configured byte budget"

/-- The effect of one message part on the pending call ids. -/
def scanPart (pending : Finset PyStr) : ContentPart → Except Exn (Finset PyStr)
  | .text _ => .ok pending
  | .toolCall call =>
    if call.id ∈ pending then .error ambiguousExchange else .ok (insert call.id pending)
  | .toolResult part =>
    if part.toolCallId ∈ pending then .ok (pending.erase part.toolCallId)
    else .error unmatchedResult

/-- `for part in message.content`. -/
def scanParts (pending : Finset PyStr) : List ContentPart → Except Exn (Finset PyStr)
  | [] => .ok pending
  | part :: parts =>
    match scanPart pending part with
    | .ok pending' => scanParts pending' parts
    | .error e => .error e

/-! ## The materialized selector -/

/-- The variables of the first loop of `select`. -/
structure Scan where
  groups : List (List Nat)
  group : List Nat
  pending : Finset PyStr
  protected_ : Finset Nat
  sizes : List Nat

def Scan.start : Scan := ⟨[], [], ∅, ∅, []⟩

/-- `groups.append(group); group = []`, when the group is closed here. -/
def Scan.close (s : Scan) (boundary : Bool) : Scan :=
  if boundary = true ∧ s.pending = ∅ ∧ s.group ≠ [] then
    { s with groups := s.groups ++ [s.group], group := [] }
  else s

/-- One turn of the first loop of `select`, at `index` with `len(history) = n`. -/
def Scan.step (encode : Encoder) (n index : Nat) (message : Message) (s : Scan) :
    Except Exn Scan :=
  match encode message with
  | .error e => .error e
  | .ok bytes =>
    let s := { s with sizes := s.sizes ++ [bytes.length] }
    let s := s.close (message.role = .user || index = n)
    if message.role = .system then
      .ok { s with protected_ := insert index s.protected_ }
    else
      match scanParts s.pending message.content with
      | .ok pending => .ok { s with group := s.group ++ [index], pending := pending }
      | .error e => .error e

/-- The first loop of `select`, from `index` on. -/
def Scan.loop (encode : Encoder) (n : Nat) : Nat → List Message → Scan → Except Exn Scan
  | _, [], s => .ok s
  | index, message :: rest, s =>
    match s.step encode n index message with
    | .ok s' => Scan.loop encode n (index + 1) rest s'
    | .error e => .error e

/-- `byte_count(indices)`. -/
def byteCount (sizes : List Nat) (indices : Finset Nat) : Nat :=
  2 + (∑ index ∈ indices, sizes.getD index 0) + (indices.card - 1)

/-- `selected.update(group)`. -/
def update (selected : Finset Nat) (group : List Nat) : Finset Nat := selected ∪ group.toFinset

/-- The variables of the last loop of `select`. -/
structure Fill where
  selected : Finset Nat
  selectedBytes : Nat
  chosen : Finset Nat

/-- `for index in reversed(range(len(groups)))`, over the first `k` groups. -/
def fill (maxBytes : Nat) (sizes : List Nat) (groups : List (List Nat)) (mandatory : Finset Nat) :
    Nat → Fill → Fill
  | 0, f => f
  | index + 1, f =>
    if index ∈ mandatory then fill maxBytes sizes groups mandatory index f
    else
      let group := groups.getD index []
      let candidateBytes := f.selectedBytes + (group.map fun item => sizes.getD item 0).sum +
        group.length - (if f.selected = ∅ then 1 else 0)
      if maxBytes < candidateBytes then f
      else fill maxBytes sizes groups mandatory index
        ⟨update f.selected group, candidateBytes, insert index f.chosen⟩

/-- `{index for index, group in enumerate(groups) if selected.intersection(group)}`. -/
def mandatoryOf (groups : List (List Nat)) (selected : Finset Nat) : Finset Nat :=
  (Finset.range groups.length).filter fun index => ∃ item ∈ groups.getD index [], item ∈ selected

/-- `ContextWindow.select` after its first loop, over the `n` messages of the history and
`messages` in all. -/
def Scan.select (s : Scan) (maxBytes n : Nat) (messages : List Message) :
    Except Exn ContextSelection :=
  if s.pending ≠ ∅ then .error incompleteExchange
  else
    let groups := if s.group ≠ [] then s.groups ++ [s.group] else s.groups
    let required := s.protected_ ∪ Finset.Ico n messages.length
    let mandatory := mandatoryOf groups required
    let selected := mandatory.sup (fun index => (groups.getD index []).toFinset) ∪ required
    let selectedBytes := byteCount s.sizes selected
    if maxBytes < selectedBytes then .error budgetExceeded
    else
      let f := fill maxBytes s.sizes groups mandatory groups.length
        ⟨selected, selectedBytes, mandatory⟩
      .ok {
        messages := (f.selected.sort (· ≤ ·)).filterMap fun index => messages[index]?
        inputBytes := byteCount s.sizes (Finset.range messages.length)
        selectedBytes := f.selectedBytes
        historyMessages := n
        requestMessages := messages.length - n
        omittedHistoryMessages := ((Finset.range n).filter (· ∉ f.selected)).card
        omittedHistoryGroups := (groups.length : Int) - f.chosen.card }

/-- `ContextWindow.select`. -/
def ContextWindow.select (window : ContextWindow) (encode : Encoder)
    (history current : List Message) : Except Exn ContextSelection :=
  let messages := history ++ current
  match Scan.start.loop encode history.length 0 messages with
  | .error e => .error e
  | .ok s => s.select window.maxBytes history.length messages

/-! ## The incremental selector -/

/-- `_HistoryGroup`. -/
structure HistoryGroup where
  entries : List (Nat × Message)
  cost : Nat
  count : Nat
  historyCount : Nat
  mandatory : Bool

def HistoryGroup.empty : HistoryGroup := ⟨[], 0, 0, 0, false⟩

/-- `_StreamingSelection`. -/
structure StreamingSelection where
  budget : Nat
  group : HistoryGroup
  optional : List HistoryGroup
  optionalCost : Nat
  required : List (Nat × Message)
  requiredCost : Nat
  requiredHistory : Nat
  requiredOverflow : Bool
  mandatoryGroups : Nat
  groups : Nat
  pending : Finset PyStr
  historyCount : Nat
  currentCount : Nat
  totalCost : Nat
  failure : Option Exn

namespace StreamingSelection

/-- `_StreamingSelection(budget)`. -/
def start (budget : Nat) : StreamingSelection where
  budget := budget
  group := .empty
  optional := []
  optionalCost := 0
  required := []
  requiredCost := 0
  requiredHistory := 0
  requiredOverflow := false
  mandatoryGroups := 0
  groups := 0
  pending := ∅
  historyCount := 0
  currentCount := 0
  totalCost := 0
  failure := none

/-- `cost + 1 if cost else 2`. -/
def bytesOf (cost : Nat) : Nat := if cost = 0 then 2 else cost + 1

/-- `_fits`. -/
def fits (budget cost : Nat) : Bool := bytesOf cost ≤ budget

/-- The loop of `_trim`: drop the oldest optional groups while the total does not fit. -/
def trimLoop (budget requiredCost : Nat) : List HistoryGroup → Nat → List HistoryGroup × Nat
  | [], cost => ([], cost)
  | g :: gs, cost =>
    if fits budget (requiredCost + cost) then (g :: gs, cost)
    else trimLoop budget requiredCost gs (cost - g.cost)

/-- `_trim`. -/
def trim (s : StreamingSelection) : StreamingSelection :=
  let kept := trimLoop s.budget s.requiredCost s.optional s.optionalCost
  { s with optional := kept.1, optionalCost := kept.2 }

/-- A message or group becomes mandatory: `required_cost` and `required_history`
grow, `required` is extended while the required cost fits, and the rest is trimmed. -/
def require (s : StreamingSelection) (cost history : Nat) (entries : List (Nat × Message)) :
    StreamingSelection :=
  let s := { s with
    requiredCost := s.requiredCost + cost
    requiredHistory := s.requiredHistory + history }
  if fits s.budget s.requiredCost then trim { s with required := s.required ++ entries }
  else trim { s with requiredOverflow := true }

/-- `self.groups += 1; self.group = _HistoryGroup()`, and `mandatory_groups += 1` for a
mandatory group. -/
def openGroup (s : StreamingSelection) (mandatory : Bool) : StreamingSelection :=
  { s with
    groups := s.groups + 1
    group := .empty
    mandatoryGroups := s.mandatoryGroups + (if mandatory then 1 else 0) }

/-- `_close_group`. -/
def closeGroup (s : StreamingSelection) : StreamingSelection :=
  let group := s.group
  if group.count = 0 then s
  else
    let s := s.openGroup group.mandatory
    if group.mandatory then s.require group.cost group.historyCount group.entries
    else if !fits s.budget (s.requiredCost + group.cost) then
      -- an oversized newer group is a suffix barrier
      { s with optional := [], optionalCost := 0 }
    else
      trim { s with
        optional := s.optional ++ [group]
        optionalCost := s.optionalCost + group.cost }

/-- `except (ValueError, TypeError)`. -/
def isValueOrTypeError : Exn → Bool
  | .py .valueError _ | .py .typeError _ | .py .validationError _ => true
  | _ => false

/-- A message is counted: `total_cost`, and `current_count` or `history_count`. -/
def counted (s : StreamingSelection) (cost : Nat) (current : Bool) : StreamingSelection :=
  { s with
    totalCost := s.totalCost + cost
    currentCount := s.currentCount + (if current then 1 else 0)
    historyCount := s.historyCount + (if current then 0 else 1) }

/-- The group bookkeeping of `add` for a message that is not a system message. -/
def extendGroup (s : StreamingSelection) (index cost : Nat) (message : Message) (current : Bool) :
    StreamingSelection :=
  let group := s.group
  let total := group.cost + cost
  { s with group := {
      entries := if fits s.budget total then group.entries ++ [(index, message)] else []
      cost := total
      count := group.count + 1
      historyCount := group.historyCount + (if current then 0 else 1)
      mandatory := group.mandatory || current } }

/-- `add`. A failure is recorded, not raised, unless the encoder raises another
class than `ValueError` and `TypeError`. -/
def add (encode : Encoder) (s : StreamingSelection) (message : Message) (current : Bool) :
    Except Exn StreamingSelection :=
  if s.failure.isSome then .ok s
  else
    match encode message with
    | .error e => if isValueOrTypeError e then .ok { s with failure := some e } else .error e
    | .ok bytes =>
      let cost := 1 + bytes.length
      let index := s.historyCount + s.currentCount
      let boundary := message.role = .user || (current && s.currentCount = 0)
      let s := if boundary = true ∧ s.pending = ∅ then s.closeGroup else s
      let s := s.counted cost current
      if message.role = .system then
        .ok (s.require cost (if current then 0 else 1) [(index, message)])
      else
        let s := s.extendGroup index cost message current
        match scanParts s.pending message.content with
        | .ok pending => .ok { s with pending := pending }
        | .error e => .ok { s with failure := some e }

/-- `for message in …: selection.add(message, current=current)`. -/
def addAll (encode : Encoder) (current : Bool) :
    List Message → StreamingSelection → Except Exn StreamingSelection
  | [], s => .ok s
  | message :: rest, s =>
    match s.add encode message current with
    | .ok s' => addAll encode current rest s'
    | .error e => .error e

/-- `entries.sort(key=lambda entry: entry[0])`. -/
def sortEntries (entries : List (Nat × Message)) : List (Nat × Message) :=
  entries.mergeSort fun a b => a.1 ≤ b.1

/-- `finish`. -/
def finish (s : StreamingSelection) : Except Exn ContextSelection :=
  match s.failure with
  | some e => .error e
  | none =>
    if s.pending ≠ ∅ then .error incompleteExchange
    else
      let s := s.closeGroup
      if s.requiredOverflow then .error budgetExceeded
      else
        let entries := sortEntries (s.required ++ s.optional.flatMap HistoryGroup.entries)
        .ok {
          messages := entries.map Prod.snd
          inputBytes := bytesOf s.totalCost
          selectedBytes := bytesOf (s.requiredCost + s.optionalCost)
          historyMessages := s.historyCount
          requestMessages := s.currentCount
          omittedHistoryMessages := (s.historyCount : Int) - s.requiredHistory -
            (s.optional.map HistoryGroup.historyCount).sum
          omittedHistoryGroups := (s.groups : Int) - s.mandatoryGroups - s.optional.length }

end StreamingSelection

/-- `ContextWindow.select_stream` over an iterator of `history`. -/
def ContextWindow.selectStream (window : ContextWindow) (encode : Encoder)
    (history current : List Message) : Except Exn ContextSelection :=
  match (StreamingSelection.start window.maxBytes).addAll encode false history with
  | .error e => .error e
  | .ok s =>
    match s.addAll encode true current with
    | .error e => .error e
    | .ok s => s.finish

end AgentRuntimeKit
