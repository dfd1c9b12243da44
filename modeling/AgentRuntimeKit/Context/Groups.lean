import AgentRuntimeKit.Context.Refinement
import AgentRuntimeKit.Lib.Exchange
import Mathlib.Data.List.SplitBy

/-!
# Groups of messages

The tool exchanges of a conversation, and its groups, stated without the selector: a group ends
where a turn or the request begins while no exchange is open. `Scan.Grouped` is the invariant of
the first loop of `select`: it finds these groups, and the exchanges of each are well formed.

## Results

* `loop_grouped`   — a pass that ends has found the groups, and every message has its encoding.
* `loop_succeeds`  — a pass over messages that have one, with no exchange out of place, ends.
* `loop_error`     — what else it raises.
-/

namespace AgentRuntimeKit

open Lib

-- ---------------------------------------------------------------------------
-- Tool exchanges
-- ---------------------------------------------------------------------------

/-- A call opens an exchange under its id, a result closes it. -/
def ContentPart.exchange : ContentPart → Option (Exchange.Event PyStr)
  | text _ => none
  | toolCall call => some (.opens call.id)
  | toolResult part => some (.closes part.toolCallId)

/-- The calls and results of a conversation, in order. -/
def toolEvents (messages : List Message) : List (Exchange.Event PyStr) :=
  messages.flatMap fun m => m.content.filterMap ContentPart.exchange

/-- A well-formed tool conversation. -/
def WellFormed (messages : List Message) : Prop := Exchange.WellFormed (toolEvents messages)

instance : DecidablePred WellFormed := fun messages =>
  inferInstanceAs (Decidable (Exchange.WellFormed (toolEvents messages)))

theorem toolEvents_append (as bs : List Message) :
    toolEvents (as ++ bs) = toolEvents as ++ toolEvents bs := List.flatMap_append

theorem scanPart_eq_ok {pending pending' : Finset PyStr} {part : ContentPart} :
    scanPart pending part = .ok pending' ↔
      Exchange.scan pending part.exchange.toList = some pending' := by
  have hone (e : Exchange.Event PyStr) : Exchange.scan pending [e] = Exchange.step pending e :=
    bind_pure _
  cases part with
  | text part =>
    show Except.ok pending = _ ↔ some pending = some pending'
    rw [Except.ok.injEq, Option.some.injEq]
  | toolCall call =>
    rw [scanPart, ContentPart.exchange, Option.toList_some, hone, Exchange.step]
    split
    · exact iff_of_false (fun h => by cases h) fun h => by cases h
    · rw [Except.ok.injEq, Option.some.injEq]
  | toolResult part =>
    rw [scanPart, ContentPart.exchange, Option.toList_some, hone, Exchange.step]
    split
    · rw [Except.ok.injEq, Option.some.injEq]
    · exact iff_of_false (fun h => by cases h) fun h => by cases h

/-- The inner loop of the selector is the pass over the exchanges. -/
theorem scanParts_eq_ok {pending pending' : Finset PyStr} {parts : List ContentPart} :
    scanParts pending parts = .ok pending' ↔
      Exchange.scan pending (parts.filterMap ContentPart.exchange) = some pending' := by
  induction parts generalizing pending with
  | nil =>
    show Except.ok pending = _ ↔ some pending = some pending'
    rw [Except.ok.injEq, Option.some.injEq]
  | cons part parts ih =>
    have hevents : (part :: parts).filterMap ContentPart.exchange =
        part.exchange.toList ++ parts.filterMap ContentPart.exchange := by
      rw [List.filterMap_cons]
      cases part.exchange with
      | none => rfl
      | some e => rfl
    rw [hevents, Exchange.scan_append, scanParts]
    cases hpart : scanPart pending part with
    | ok next =>
      rw [scanPart_eq_ok.mp hpart]
      exact ih
    | error e =>
      have hnone : Exchange.scan pending part.exchange.toList = none := by
        refine Option.eq_none_iff_forall_not_mem.mpr fun next hnext => ?_
        rw [scanPart_eq_ok.mpr hnext] at hpart
        cases hpart
      rw [hnone]
      exact iff_of_false (fun h => by cases h) fun h => by cases h

theorem scanParts_error {pending : Finset PyStr} {parts : List ContentPart} {e : Exn}
    (h : scanParts pending parts = .error e) : e = ambiguousExchange ∨ e = unmatchedResult := by
  induction parts generalizing pending with
  | nil => cases h
  | cons part parts ih =>
    rw [scanParts] at h
    split at h
    · exact ih h
    · next hpart =>
      cases h
      cases part with
      | text part => cases hpart
      | toolCall call =>
        rw [scanPart] at hpart
        split at hpart
        · exact Or.inl (Except.error.inj hpart).symm
        · cases hpart
      | toolResult part =>
        rw [scanPart] at hpart
        split at hpart
        · cases hpart
        · exact Or.inr (Except.error.inj hpart).symm

/-- A system message has neither calls nor results. -/
theorem system_exchange {m : Message} (h : m.role = .system) :
    m.content.filterMap ContentPart.exchange = [] := by
  have hvalid := m.validContent
  rw [validToolContent, h] at hvalid
  simp only [reduceCtorEq, if_false, decide_false, Bool.false_or, Bool.and_eq_true,
    Bool.not_eq_true', List.any_eq_false] at hvalid
  refine List.filterMap_eq_nil_iff.mpr fun part hpart => ?_
  cases part with
  | text part => rfl
  | toolCall call => exact absurd rfl (hvalid.2 _ hpart)
  | toolResult part => exact absurd rfl (hvalid.1 _ hpart)

-- ---------------------------------------------------------------------------
-- Groups
-- ---------------------------------------------------------------------------

def isSystem (messages : List Message) (index : Nat) : Bool :=
  messages[index]?.any fun m => m.role = .system

/-- A turn or the request begins here. -/
def isTurn (n : Nat) (messages : List Message) (index : Nat) : Bool :=
  (messages[index]?.any fun m => m.role = .user) || index = n

/-- A group ends before this message. -/
def isBoundary (n : Nat) (messages : List Message) (index : Nat) : Bool :=
  isTurn n messages index && decide (WellFormed (messages.take index))

/-- No group ends between the two. -/
def isTogether (n : Nat) (messages : List Message) (j k : Nat) : Bool :=
  (List.range' (j + 1) (k - j)).all fun index => !isBoundary n messages index

/-- The messages that belong to groups. -/
def grouped (messages : List Message) (i : Nat) : List Nat :=
  (List.range i).filter fun index => !isSystem messages index

/-- The groups of a conversation whose request begins at `n`. -/
def groupsOf (n : Nat) (messages : List Message) : List (List Nat) :=
  (grouped messages messages.length).splitBy (isTogether n messages)

/-- The exchanges of the messages at some indices. -/
def eventsAt (messages : List Message) (indices : List Nat) : List (Exchange.Event PyStr) :=
  toolEvents (indices.filterMap fun index => messages[index]?)

theorem eventsAt_append (messages : List Message) (as bs : List Nat) :
    eventsAt messages (as ++ bs) = eventsAt messages as ++ eventsAt messages bs := by
  rw [eventsAt, List.filterMap_append, toolEvents_append]
  rfl

theorem isTogether_iff {n : Nat} {messages : List Message} {j k : Nat} :
    isTogether n messages j k = true ↔
      ∀ b, j < b → b ≤ k → isBoundary n messages b = false := by
  rw [isTogether, List.all_eq_true]
  constructor
  · intro h b hj hk
    have hb := h b (List.mem_range'_1.mpr ⟨by omega, by omega⟩)
    rwa [Bool.not_eq_true'] at hb
  · intro h b hb
    obtain ⟨hj, hk⟩ := List.mem_range'_1.mp hb
    rw [Bool.not_eq_true']
    exact h b (by omega) (by omega)

theorem grouped_succ (messages : List Message) (i : Nat) :
    grouped messages (i + 1) =
      grouped messages i ++ if isSystem messages i = true then [] else [i] := by
  rw [grouped, List.range_succ, List.filter_append]
  congr 1
  by_cases h : isSystem messages i = true
  · rw [if_pos h, List.filter_singleton, h]
    rfl
  · rw [if_neg h, List.filter_singleton, Bool.eq_false_iff.mpr h]
    rfl

/-- What the first loop has found after `i` messages. -/
structure Scan.Grouped (n : Nat) (messages : List Message) (i : Nat) (s : Scan) : Prop where
  partition : s.Partition i
  indices : s.groups.flatten ++ s.group = grouped messages i
  pending : Exchange.scan ∅ (toolEvents (messages.take i)) = some s.pending
  closedEvents : ∀ g ∈ s.groups, Exchange.scan ∅ (eventsAt messages g) = some ∅
  openEvents : Exchange.scan ∅ (eventsAt messages s.group) = some s.pending
  together : ∀ g ∈ s.groups, ∀ j ∈ g, ∀ k ∈ g, isTogether n messages j k = true
  openTogether : ∀ j ∈ s.group, ∀ b, j < b → b < i → isBoundary n messages b = false
  apart : s.groups.Pairwise fun g g' => ∀ j ∈ g, ∀ k ∈ g', isTogether n messages j k = false
  fence : ∀ g ∈ s.groups, ∀ j ∈ g, ∃ b, j < b ∧ b ≤ i ∧ isBoundary n messages b = true ∧
    ∀ k ∈ s.group, b ≤ k

namespace Scan.Grouped

variable {n i : Nat} {messages : List Message} {s : Scan}

theorem start (n : Nat) (messages : List Message) : Scan.start.Grouped n messages 0 where
  partition := by constructor <;> simp [Scan.start]
  indices := rfl
  pending := rfl
  closedEvents g hg := absurd hg List.not_mem_nil
  openEvents := rfl
  together g hg := absurd hg List.not_mem_nil
  openTogether j hj := absurd hj List.not_mem_nil
  apart := List.Pairwise.nil
  fence g hg := absurd hg List.not_mem_nil

/-- A boundary is a turn at which nothing is pending. -/
theorem isBoundary_iff (h : s.Grouped n messages i) :
    isBoundary n messages i = true ↔ isTurn n messages i = true ∧ s.pending = ∅ := by
  rw [isBoundary, Bool.and_eq_true, decide_eq_true_eq, WellFormed, Exchange.wellFormed_iff,
    h.pending, Option.some.injEq]

theorem lt_of_mem_group (h : s.Grouped n messages i) {j : Nat} (hj : j ∈ s.group) : j < i :=
  h.partition.bound j (List.mem_append_right _ hj)

/-- The open group is closed at a boundary. -/
theorem closed (h : s.Grouped n messages i) (hne : s.group ≠ []) (hpending : s.pending = ∅)
    (hboundary : isBoundary n messages i = true) : s.closed.Grouped n messages i where
  partition := h.partition.closed hne
  indices := by
    rw [← h.indices]
    simp only [Scan.closed, List.flatten_append, List.flatten_singleton, List.append_nil]
  pending := h.pending
  closedEvents g hg := by
    rcases List.mem_append.mp hg with hg | hg
    · exact h.closedEvents g hg
    · rw [List.mem_singleton.mp hg, h.openEvents, hpending]
  openEvents := by
    show some ∅ = some s.pending
    rw [hpending]
  together g hg j hj k hk := by
    rcases List.mem_append.mp hg with hg | hg
    · exact h.together g hg j hj k hk
    · rw [List.mem_singleton.mp hg] at hj hk
      refine isTogether_iff.mpr fun b hjb hbk => ?_
      exact h.openTogether j hj b hjb (Nat.lt_of_le_of_lt hbk (h.lt_of_mem_group hk))
  openTogether j hj := absurd hj List.not_mem_nil
  apart := by
    refine List.pairwise_append.mpr ⟨h.apart, List.pairwise_singleton _ _, ?_⟩
    intro g hg g' hg' j hj k hk
    obtain ⟨b, hjb, -, hb, hgroup⟩ := h.fence g hg j hj
    rw [List.mem_singleton.mp hg'] at hk
    refine Bool.eq_false_iff.mpr fun htogether => ?_
    have hno := isTogether_iff.mp htogether b hjb (hgroup k hk)
    rw [hb] at hno
    cases hno
  fence g hg j hj := by
    rcases List.mem_append.mp hg with hg | hg
    · obtain ⟨b, hjb, hbi, hb, -⟩ := h.fence g hg j hj
      exact ⟨b, hjb, hbi, hb, fun k hk => absurd hk List.not_mem_nil⟩
    · rw [List.mem_singleton.mp hg] at hj
      exact ⟨i, h.lt_of_mem_group hj, Nat.le_refl i, hboundary,
        fun k hk => absurd hk List.not_mem_nil⟩

/-- The conditional close of the loop: a group that stays open has no boundary here. -/
theorem close (h : s.Grouped n messages i) :
    (s.close (isTurn n messages i)).Grouped n messages i ∧
      ((s.close (isTurn n messages i)).group ≠ [] → isBoundary n messages i = false) := by
  rw [Scan.close]
  by_cases hclose : isTurn n messages i = true ∧ s.pending = ∅ ∧ s.group ≠ []
  · obtain ⟨hturn, hpending, hne⟩ := hclose
    rw [if_pos ⟨hturn, hpending, hne⟩]
    exact ⟨h.closed hne hpending (h.isBoundary_iff.mpr ⟨hturn, hpending⟩),
      fun hopen => absurd rfl hopen⟩
  · rw [if_neg hclose]
    refine ⟨h, fun hne => Bool.eq_false_iff.mpr fun hboundary => ?_⟩
    obtain ⟨hturn, hpending⟩ := h.isBoundary_iff.mp hboundary
    exact hclose ⟨hturn, hpending, hne⟩

/-- The message at `i` adds its exchanges to those of the messages before. -/
theorem take_succ_events {m : Message} (hm : messages[i]? = some m) :
    toolEvents (messages.take (i + 1)) =
      toolEvents (messages.take i) ++ m.content.filterMap ContentPart.exchange := by
  rw [List.take_add_one, hm, toolEvents_append, Option.toList_some]
  congr 1
  exact List.flatMap_singleton _ _

/-- A system message joins no group. -/
theorem protect {m : Message} (h : s.Grouped n messages i) (hm : messages[i]? = some m)
    (hrole : m.role = .system) (hno : s.group ≠ [] → isBoundary n messages i = false)
    (sizes : List Nat) : Scan.Grouped n messages (i + 1)
      { s with sizes := sizes, protected_ := insert i s.protected_ } where
  partition := h.partition.protect sizes
  indices := by
    have hsystem : isSystem messages i = true := by
      rw [isSystem, hm]
      exact decide_eq_true hrole
    rw [grouped_succ, if_pos hsystem, List.append_nil]
    exact h.indices
  pending := by
    rw [take_succ_events hm, system_exchange hrole, List.append_nil]
    exact h.pending
  closedEvents := h.closedEvents
  openEvents := h.openEvents
  together := h.together
  openTogether j hj b hjb hb := by
    rcases Nat.lt_succ_iff_lt_or_eq.mp hb with hb | rfl
    · exact h.openTogether j hj b hjb hb
    · exact hno (List.ne_nil_of_mem hj)
  apart := h.apart
  fence g hg j hj := by
    obtain ⟨b, hjb, hbi, hb, hgroup⟩ := h.fence g hg j hj
    exact ⟨b, hjb, Nat.le_succ_of_le hbi, hb, hgroup⟩

/-- Any other message joins the open group. -/
theorem extend {m : Message} {pending : Finset PyStr} (h : s.Grouped n messages i)
    (hm : messages[i]? = some m) (hrole : m.role ≠ .system)
    (hno : s.group ≠ [] → isBoundary n messages i = false)
    (hparts : scanParts s.pending m.content = .ok pending) (sizes : List Nat) :
    Scan.Grouped n messages (i + 1)
      { s with sizes := sizes, group := s.group ++ [i], pending := pending } where
  partition := h.partition.extend sizes pending
  indices := by
    have hsystem : ¬isSystem messages i = true := by
      rw [isSystem, hm]
      exact fun hs => hrole (of_decide_eq_true hs)
    rw [grouped_succ, if_neg hsystem, ← h.indices, List.append_assoc]
  pending := by
    rw [take_succ_events hm, Exchange.scan_append, h.pending]
    exact scanParts_eq_ok.mp hparts
  closedEvents := h.closedEvents
  openEvents := by
    have hone : eventsAt messages [i] = m.content.filterMap ContentPart.exchange := by
      rw [eventsAt, List.filterMap_cons, hm]
      exact List.flatMap_singleton _ _
    show Exchange.scan ∅ (eventsAt messages (s.group ++ [i])) = some pending
    rw [eventsAt_append, Exchange.scan_append, h.openEvents, hone]
    exact scanParts_eq_ok.mp hparts
  together := h.together
  openTogether j hj b hjb hb := by
    rcases List.mem_append.mp hj with hopen | hlast
    · rcases Nat.lt_succ_iff_lt_or_eq.mp hb with hb | rfl
      · exact h.openTogether j hopen b hjb hb
      · exact hno (List.ne_nil_of_mem hopen)
    · have hji : j = i := List.mem_singleton.mp hlast
      omega
  apart := h.apart
  fence g hg j hj := by
    obtain ⟨b, hjb, hbi, hb, hgroup⟩ := h.fence g hg j hj
    refine ⟨b, hjb, Nat.le_succ_of_le hbi, hb, fun k hk => ?_⟩
    rcases List.mem_append.mp hk with hk | hk
    · exact hgroup k hk
    · rw [List.mem_singleton.mp hk]
      exact hbi

/-- The groups of `select` after its first loop. -/
theorem groupsOf_eq (h : s.Grouped n messages messages.length) :
    groupsOf n messages = if s.group ≠ [] then s.groups ++ [s.group] else s.groups := by
  rw [groupsOf, ← h.indices, List.splitBy_eq_iff]
  have hopen : ∀ j ∈ s.group, ∀ k ∈ s.group, isTogether n messages j k = true :=
    fun j hj k hk => isTogether_iff.mpr fun b hjb hbk =>
      h.openTogether j hj b hjb (Nat.lt_of_le_of_lt hbk (h.lt_of_mem_group hk))
  have hfence : ∀ g ∈ s.groups, ∀ j ∈ g, ∀ k ∈ s.group, isTogether n messages j k = false := by
    intro g hg j hj k hk
    obtain ⟨b, hjb, -, hb, hgroup⟩ := h.fence g hg j hj
    refine Bool.eq_false_iff.mpr fun htogether => ?_
    have hno := isTogether_iff.mp htogether b hjb (hgroup k hk)
    rw [hb] at hno
    cases hno
  have hall : ∀ g ∈ (if s.group ≠ [] then s.groups ++ [s.group] else s.groups), g ≠ [] ∧
      ∀ j ∈ g, ∀ k ∈ g, isTogether n messages j k = true := by
    intro g hg
    split at hg
    · next hne =>
      rcases List.mem_append.mp hg with hg | hg
      · exact ⟨h.partition.nonempty g hg, h.together g hg⟩
      · rw [List.mem_singleton.mp hg]
        exact ⟨hne, hopen⟩
    · exact ⟨h.partition.nonempty g hg, h.together g hg⟩
  have hapart : (if s.group ≠ [] then s.groups ++ [s.group] else s.groups).Pairwise
      fun g g' => ∀ j ∈ g, ∀ k ∈ g', isTogether n messages j k = false := by
    split
    · refine List.pairwise_append.mpr ⟨h.apart, List.pairwise_singleton _ _, ?_⟩
      intro g hg g' hg'
      rw [List.mem_singleton.mp hg']
      exact hfence g hg
    · exact h.apart
  refine ⟨?_, fun hnil => (hall [] hnil).1 rfl, fun g hg => ?_, ?_⟩
  · split
    · rw [List.flatten_append, List.flatten_singleton]
    · next hnil => rw [not_not.mp hnil, List.append_nil]
  · exact (List.pairwise_of_forall_mem_list (hall g hg).2).isChain
  · refine List.Pairwise.isChain (hapart.imp_of_mem fun {g g'} hg hg' hgg => ?_)
    exact ⟨(hall g hg).1, (hall g' hg').1, hgg _ (List.getLast_mem _) _ (List.head_mem _)⟩

/-- Where nothing is pending at the end, the exchanges of each group are well formed. -/
theorem wellFormed_group (h : s.Grouped n messages messages.length) (hpending : s.pending = ∅) :
    ∀ g ∈ groupsOf n messages, Exchange.WellFormed (eventsAt messages g) := by
  intro g hg
  rw [Exchange.wellFormed_iff]
  rw [h.groupsOf_eq] at hg
  split at hg
  · rcases List.mem_append.mp hg with hg | hg
    · exact h.closedEvents g hg
    · rw [List.mem_singleton.mp hg, h.openEvents, hpending]
  · exact h.closedEvents g hg

end Scan.Grouped

-- ---------------------------------------------------------------------------
-- The first loop
-- ---------------------------------------------------------------------------

section Loop

variable {encode : Encoder} {n i : Nat} {messages : List Message} {s s' : Scan}

/-- The number of bytes of a message that has an encoding. -/
def sizeOf (encode : Encoder) (m : Message) : Nat :=
  match encode m with
  | .ok bytes => bytes.length
  | .error _ => 0

def hasEncoding (encode : Encoder) (m : Message) : Prop := ∃ bytes, encode m = .ok bytes

theorem isTurn_eq {m : Message} (hm : messages[i]? = some m) :
    isTurn n messages i = (decide (m.role = .user) || decide (i = n)) := by
  rw [isTurn, hm]
  rfl

/-- One message that is accepted. -/
theorem step_grouped {m : Message} (h : s.Grouped n messages i) (hm : messages[i]? = some m)
    (hstep : s.step encode n i m = .ok s') :
    hasEncoding encode m ∧ s'.Grouped n messages (i + 1) ∧
      s'.sizes = s.sizes ++ [sizeOf encode m] := by
  rw [Scan.step] at hstep
  cases hencode : encode m with
  | error e =>
    rw [hencode] at hstep
    cases hstep
  | ok bytes =>
    have hsize : sizeOf encode m = bytes.length := by rw [sizeOf, hencode]
    rw [hencode] at hstep
    simp only [close_sizes, ← isTurn_eq hm] at hstep
    obtain ⟨hclose, hno⟩ := h.close
    refine ⟨⟨bytes, hencode⟩, ?_⟩
    rw [hsize]
    by_cases hrole : m.role = .system
    · rw [if_pos hrole] at hstep
      cases hstep
      exact ⟨hclose.protect hm hrole hno _, rfl⟩
    · rw [if_neg hrole] at hstep
      split at hstep
      · next pending hparts =>
        cases hstep
        exact ⟨hclose.extend hm hrole hno hparts _, rfl⟩
      · cases hstep

/-- What a message that is not accepted raises. -/
theorem step_error {m : Message} {e : Exn} (hstep : s.step encode n i m = .error e) :
    encode m = .error e ∨ e = ambiguousExchange ∨ e = unmatchedResult := by
  rw [Scan.step] at hstep
  split at hstep
  · next hencode =>
    cases hstep
    exact Or.inl hencode
  · simp only at hstep
    split at hstep
    · cases hstep
    · split at hstep
      · cases hstep
      · next hparts =>
        cases hstep
        exact Or.inr (scanParts_error hparts)

/-- A message is accepted if it has an encoding and its exchanges are in place. -/
theorem step_succeeds {m : Message} {pending : Finset PyStr} (h : s.Grouped n messages i)
    (hm : messages[i]? = some m) (hencode : hasEncoding encode m)
    (hscan : Exchange.scan ∅ (toolEvents (messages.take (i + 1))) = some pending) :
    ∃ s', s.step encode n i m = .ok s' := by
  obtain ⟨bytes, hbytes⟩ := hencode
  rw [Scan.Grouped.take_succ_events hm, Exchange.scan_append, h.pending] at hscan
  have hparts : scanParts s.pending m.content = .ok pending := scanParts_eq_ok.mpr hscan
  have hpending (boundary : Bool) : (s.close boundary).pending = s.pending := by
    rw [Scan.close]
    split
    · rfl
    · rfl
  rw [Scan.step, hbytes]
  simp only [close_sizes, hpending, hparts]
  split
  · exact ⟨_, rfl⟩
  · exact ⟨_, rfl⟩

/-- A pass that ends has found the groups, and every message has its encoding. -/
theorem loop_grouped : ∀ {rest : List Message} {i : Nat} {s : Scan},
    s.Grouped n messages i → i ≤ messages.length → messages.drop i = rest →
      s.sizes = (messages.take i).map (sizeOf encode) →
        s.loop encode n i rest = .ok s' → (∀ m ∈ rest, hasEncoding encode m) ∧
          s'.Grouped n messages messages.length ∧ s'.sizes = messages.map (sizeOf encode)
  | [], i, s, h, hi, hdrop, hsizes, hloop => by
    cases hloop
    have hlen : messages.length = i := Nat.le_antisymm (List.drop_eq_nil_iff.mp hdrop) hi
    rw [← hlen, List.take_length] at hsizes
    rw [← hlen] at h
    exact ⟨fun m hm => absurd hm List.not_mem_nil, h, hsizes⟩
  | m :: rest, i, s, h, _, hdrop, hsizes, hloop => by
    have hm : messages[i]? = some m := by
      rw [← List.head?_drop, hdrop]
      rfl
    have hlt : i < messages.length := (List.getElem?_eq_some_iff.mp hm).1
    have hrest : messages.drop (i + 1) = rest := by
      rw [← List.tail_drop, hdrop]
      rfl
    rw [Scan.loop] at hloop
    split at hloop
    · next s₁ hstep =>
      obtain ⟨hencode, hgrouped, hsize⟩ := step_grouped h hm hstep
      have hsizes' : s₁.sizes = (messages.take (i + 1)).map (sizeOf encode) := by
        rw [hsize, hsizes, List.take_add_one, hm, List.map_append]
        rfl
      obtain ⟨hall, hend⟩ := loop_grouped hgrouped hlt hrest hsizes' hloop
      refine ⟨fun m' hm' => ?_, hend⟩
      rcases List.mem_cons.mp hm' with rfl | hm'
      · exact hencode
      · exact hall m' hm'
    · cases hloop

theorem loop_succeeds {pending : Finset PyStr} : ∀ {rest : List Message} {i : Nat} {s : Scan},
    s.Grouped n messages i → messages.drop i = rest → (∀ m ∈ rest, hasEncoding encode m) →
      Exchange.scan ∅ (toolEvents messages) = some pending →
        ∃ s', s.loop encode n i rest = .ok s'
  | [], i, s, _, _, _, _ => ⟨s, rfl⟩
  | m :: rest, i, s, h, hdrop, hencode, hscan => by
    have hm : messages[i]? = some m := by
      rw [← List.head?_drop, hdrop]
      rfl
    have hrest : messages.drop (i + 1) = rest := by
      rw [← List.tail_drop, hdrop]
      rfl
    have hprefix : ∃ next, Exchange.scan ∅ (toolEvents (messages.take (i + 1))) = some next := by
      rw [← List.take_append_drop (i + 1) messages, toolEvents_append,
        Exchange.scan_append] at hscan
      obtain ⟨next, hnext, -⟩ := Option.bind_eq_some_iff.mp hscan
      exact ⟨next, hnext⟩
    obtain ⟨next, hnext⟩ := hprefix
    obtain ⟨s₁, hstep⟩ := step_succeeds h hm (hencode m List.mem_cons_self) hnext
    obtain ⟨-, hgrouped, -⟩ := step_grouped h hm hstep
    obtain ⟨s', hloop⟩ := loop_succeeds hgrouped hrest
      (fun m' hm' => hencode m' (List.mem_cons_of_mem m hm')) hscan
    refine ⟨s', ?_⟩
    rw [Scan.loop, hstep]
    exact hloop

theorem loop_error {e : Exn} : ∀ {rest : List Message} {i : Nat} {s : Scan},
    s.loop encode n i rest = .error e →
      (∃ m ∈ rest, encode m = .error e) ∨ e = ambiguousExchange ∨ e = unmatchedResult
  | [], _, _, h => by cases h
  | m :: rest, i, s, h => by
    rw [Scan.loop] at h
    split at h
    · rcases loop_error h with ⟨m', hm', he⟩ | he
      · exact Or.inl ⟨m', List.mem_cons_of_mem m hm', he⟩
      · exact Or.inr he
    · next hstep =>
      cases h
      rcases step_error hstep with he | he
      · exact Or.inl ⟨m, List.mem_cons_self, he⟩
      · exact Or.inr he

end Loop

end AgentRuntimeKit
