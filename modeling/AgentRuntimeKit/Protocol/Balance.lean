import AgentRuntimeKit.Adapters.Balance
import AgentRuntimeKit.Protocol.History
import AgentRuntimeKit.Protocol.Policies

/-!
# Balanced transcripts

What a turn asks the store for, as long as it is given native outputs. `rows` stands for the history
that the turn reads: what it completes its run with extends `rows` to well-formed messages, if it
has a context window. At the commit, `rows` is what the thread then holds.

## Results

* `invokeTracked_balances`, `produce_balances` — a turn extends the history to well-formed messages.
* `inputMessages_refuses` — why it refuses well-formed messages.
-/

namespace AgentRuntimeKit

open Lib Prog

/-- A source that ends has an output of well-formed messages. -/
def Source.Balanced (source : Source) : Prop :=
  source.ending = none → ∀ before output, source.events = before ++ [.completed output] →
    WellFormed output.messages

/-- A call that extends the history `rows` to well-formed messages only. -/
def Call.Extends (κ : Kind) (rows : List MessageRow) : Call → Prop
  | .complete _ _ messages _ =>
    κ.isInvocation = true ∧ WellFormed (rows.map MessageRow.message ++ messages)
  | .appendMessages _ _ _ => False
  | _ => True

/-- What a process of this kind may perform. -/
def Op.Extends (κ : Kind) (rows : List MessageRow) : Op → Prop
  | .begin call => call.Extends κ rows
  | _ => True

/-- What an operation may answer: `rows` as the history, and well-formed outputs. -/
def Op.Gives (rows : List MessageRow) : (o : Op) → Except Exn (Res o) → Prop
  | .transcript _, .ok found => found = rows
  | .awaitInvoker _, .ok output => WellFormed output.messages
  | .openSource _, .ok source => source.Balanced
  | _, _ => True

/-- The program extends `rows` to well-formed messages only, and its value satisfies `Q`. -/
abbrev BalancesTo {α : Type} (κ : Kind) (rows : List MessageRow) (Q : α → Prop) (m : P α) : Prop :=
  Tame (Op.Extends κ rows) (Op.Gives rows) Q (fun _ => True) m

abbrev Balances {α : Type} (κ : Kind) (rows : List MessageRow) (m : P α) : Prop :=
  BalancesTo κ rows (fun _ => True) m

theorem Op.extends_of_isNeutral {κ : Kind} {rows : List MessageRow} {o : Op}
    (h : o.isNeutral = true) : o.Extends κ rows := by
  cases o with
  | begin call => cases call <;> trivial
  | _ => trivial

theorem Neutral.balances {α : Type} {m : P α} {κ : Kind} {rows : List MessageRow} (h : Neutral m) :
    Balances κ rows m := h.under fun _ => Op.extends_of_isNeutral

/-- The completion of a run, by an invocation that extends the history that it has read. -/
theorem complete_balances {κ : Kind} {rows : List MessageRow} {runId token : Uuid}
    {messages : List Message}
    {response : RuntimeResponse} (hκ : κ.isInvocation = true)
    (hwell : WellFormed (rows.map MessageRow.message ++ messages)) :
    Balances κ rows (complete runId token messages response) :=
  complete_under (fun _ => Op.extends_of_isNeutral) ⟨hκ, hwell⟩

-- ---------------------------------------------------------------------------
-- The turn
-- ---------------------------------------------------------------------------

section Turn

variable {κ : Kind} {rows : List MessageRow} {rt : Runtime} {emit : Bool}

/-- The history that is read is `rows`. -/
theorem getMessages_balances (t : Uuid) (name : String) :
    BalancesTo κ rows (fun history => history = rows.map MessageRow.message)
      (getMessages t name) := by
  unfold getMessages
  refine under_bind (requireThread_neutral t name).balances fun _ => Tame.performBind trivial ?_
  exact fun found hfound => congrArg (List.map MessageRow.message) hfound

/-- The batches of a cursor are the rows, in order. -/
theorem flatten_partitions (n : Nat) : ∀ (fuel : Nat) (xs : List MessageRow),
    xs.length ≤ fuel → 0 < n → (partitions n fuel xs).flatten = xs := by
  intro fuel
  induction fuel with
  | zero =>
    intro xs hlength _
    rw [List.length_eq_zero_iff.mp (Nat.le_zero.mp hlength)]
    rfl
  | succ fuel ih =>
    intro xs hlength hn
    rw [partitions]
    split
    · next hempty =>
      rw [List.isEmpty_iff.mp hempty]
      rfl
    · next hempty =>
      have hne : xs ≠ [] := fun h => hempty (List.isEmpty_iff.mpr h)
      have hpos : 0 < xs.length := List.length_pos_iff.mpr hne
      have hrest : (xs.drop n).length ≤ fuel := by
        rw [List.length_drop]
        omega
      rw [List.flatten_cons, ih _ hrest hn, List.take_append_drop]

theorem addAll_append {encode : Encoder} {current : Bool} {as bs : List Message}
    {s t : StreamingSelection} (h : s.addAll encode current as = .ok t) :
    s.addAll encode current (as ++ bs) = t.addAll encode current bs := by
  induction as generalizing s with
  | nil =>
    rw [StreamingSelection.addAll, Except.ok.injEq] at h
    rw [h]
    rfl
  | cons m rest ih =>
    rw [StreamingSelection.addAll] at h
    rw [List.cons_append, StreamingSelection.addAll]
    cases hadd : s.add encode m current with
    | error e =>
      rw [hadd] at h
      cases h
    | ok s' =>
      rw [hadd] at h
      exact ih h

/-- Batch after batch, the selection passes over the history. -/
theorem selectBatches_tame {allowed : Op → Prop} {possible : (o : Op) → Except Exn (Res o) → Prop}
    {seen : Exn → Prop} {encode : Encoder} (hfetch : allowed .fetch)
    (batches : List (List MessageRow)) :
    ∀ {s : StreamingSelection},
      (∀ m ∈ batches.flatten.map MessageRow.message, ∀ e, encode m = .error e → seen e) →
      Tame allowed possible
        (fun t => s.addAll encode false (batches.flatten.map MessageRow.message) = .ok t) seen
        (selectBatches encode batches s) := by
  induction batches with
  | nil => exact fun _ => rfl
  | cons batch rest ih =>
    intro s hseen
    rw [List.flatten_cons, List.map_append] at hseen
    unfold selectBatches
    refine Tame.performBind hfetch fun _ _ => ?_
    refine Tame.bind (tame_lift (fun _ h => h) fun e he => ?_) fun s' hs' => ?_
    · obtain ⟨m, hm, hencode⟩ := StreamingSelection.addAll_raises he
      exact hseen m (List.mem_append_left _ hm) e hencode
    · refine Tame.weaken (ih fun m hm => hseen m (List.mem_append_right _ hm)) fun t ht => ?_
      rw [List.flatten_cons, List.map_append, addAll_append hs']
      exact ht

/-- A selection over the cursor succeeds only if the history and the request are well formed. -/
theorem selectStored_balances (window : ContextWindow) (t : Uuid) (current : List Message) :
    BalancesTo κ rows (fun _ => WellFormed (rows.map MessageRow.message ++ current))
      (selectStored rt window t current) := by
  unfold selectStored
  refine under_bind (requireThread_neutral t _).balances fun _ => Tame.performBind trivial ?_
  intro found hfound
  have hsame : found = rows := hfound
  subst hsame
  refine Tame.bind ((selectBatches_tame trivial _ fun _ _ _ _ => trivial).finallyDo
    (under_perform trivial)) fun s hs => ?_
  rw [flatten_partitions 256 _ found le_rfl (by omega)] at hs
  refine Tame.bind (under_lift fun _ h => h) fun s' hs' => ?_
  exact under_lift fun sel hsel =>
    passed_wellFormed (StreamingSelection.passed_both rfl hs hs') hsel

/-- With a context window, a turn goes on only if the history and the request are well formed. -/
theorem inputMessages_balances (hwindow : rt.contextWindow.isSome = true) (t : Uuid)
    (current : List Message) :
    BalancesTo κ rows (fun _ => WellFormed (rows.map MessageRow.message ++ current))
      (inputMessages rt t current) := by
  unfold inputMessages
  split
  · exact Tame.bind (selectStored_balances _ t current) fun _ h => h
  · next hnone =>
    rw [hnone] at hwindow
    exact absurd hwindow Bool.false_ne_true
  · refine Tame.bind (getMessages_balances t _) fun history hhistory => ?_
    refine Tame.bind (under_lift fun _ h => h) fun selection hselection => ?_
    rw [← hhistory]
    exact select_wellFormed hselection

/-- Why the messages of a history and a request are refused. -/
def Refused (encode : Encoder) (t : Uuid) (messages : List Message) (e : Exn) : Prop :=
  e = budgetExceeded ∨ e = threadNotFound t ∨ ∃ m ∈ messages, encode m = .error e

/-- Where the history and the request are well formed, a request is refused for nothing else,
unless an operation fails. -/
theorem inputMessages_refuses (hwindow : rt.contextWindow.isSome = true) (t : Uuid)
    {current : List Message} (hwell : WellFormed (rows.map MessageRow.message ++ current)) :
    Tame (fun _ => True) (Op.Gives rows) (fun _ => True)
      (Refused rt.encode t (rows.map MessageRow.message ++ current))
      (inputMessages rt t current) := by
  have hthread : ∀ name, Tame (fun _ => True) (Op.Gives rows) (fun _ => True)
      (Refused rt.encode t (rows.map MessageRow.message ++ current)) (requireThread t name) := by
    intro name
    unfold requireThread
    refine Tame.performBind trivial ?_
    rintro (_ | row) -
    · exact Or.inr (Or.inl rfl)
    · trivial
  have hfails : ∀ {e}, (e = budgetExceeded ∨ ∃ m ∈ rows.map MessageRow.message ++ current,
      rt.encode m = .error e) →
        Refused rt.encode t (rows.map MessageRow.message ++ current) e := by
    rintro e (hbudget | hencode)
    · exact Or.inl hbudget
    · exact Or.inr (Or.inr hencode)
  unfold inputMessages
  split
  · next window _ _ =>
    unfold selectStored
    refine Tame.bind (Q := fun _ => True)
      (Tame.bind (hthread _) fun _ _ => Tame.performBind trivial ?_) fun _ _ => trivial
    intro found hfound
    have hsame : found = rows := hfound
    subst hsame
    have hflat := flatten_partitions 256 _ found le_rfl (by omega)
    refine Tame.bind ((selectBatches_tame trivial _ fun m hm e he => ?_).finallyDo
      (Tame.perform (o := Op.closeCursor) trivial)) fun s hs => ?_
    · rw [hflat] at hm
      exact hfails (Or.inr ⟨m, List.mem_append_left _ hm, he⟩)
    · rw [hflat] at hs
      refine Tame.bind (tame_lift (fun _ h => h) fun e he => ?_) fun s' hs' => ?_
      · obtain ⟨m, hm, hencode⟩ := StreamingSelection.addAll_raises he
        exact hfails (Or.inr ⟨m, List.mem_append_right _ hm, hencode⟩)
      · refine tame_lift (fun _ _ => trivial) fun e he => ?_
        have hstream : window.selectStream rt.encode (found.map MessageRow.message) current =
            .error e := by
          rw [ContextWindow.selectStream, hs]
          simp only [hs']
          exact he
        exact hfails (selectStream_fails hwell hstream)
  · next hnone =>
    rw [hnone] at hwindow
    exact absurd hwindow Bool.false_ne_true
  · next window _ _ =>
    unfold getMessages
    refine Tame.bind (Q := fun history => history = rows.map MessageRow.message)
      (Tame.bind (hthread _) fun _ _ => Tame.performBind trivial fun found hfound =>
        congrArg (List.map MessageRow.message) hfound) fun history hhistory => ?_
    subst hhistory
    refine Tame.bind (Q := fun _ => True) (tame_lift (fun _ _ => trivial) fun e he => ?_)
      fun _ _ => trivial
    exact hfails (select_fails hwell he)

/-- What is left of a source that is read to its end, whose terminal event may be withheld. -/
def DrainsTo (ending : Option Exn) (events : List AgentStreamEvent) :
    Option InvocationOutput → InvocationOutput → Prop
  | none, output => ending = none ∧ ∃ before, events = before ++ [.completed output]
  | some terminal, output => ending = none ∧ events = [] ∧ output = terminal

theorem DrainsTo.cons {ending : Option Exn} {event : AgentStreamEvent}
    {events : List AgentStreamEvent} {output : InvocationOutput}
    (h : DrainsTo ending events none output) : DrainsTo ending (event :: events) none output := by
  obtain ⟨hending, before, rfl⟩ := h
  exact ⟨hending, event :: before, rfl⟩

theorem forward_balances {ending : Option Exn} (events : List AgentStreamEvent) :
    ∀ terminal, BalancesTo κ rows (DrainsTo ending events terminal)
      (forward emit ending events terminal) := by
  induction events with
  | nil =>
    intro terminal
    unfold forward
    refine under_step trivial fun _ => ?_
    cases ending with
    | some e => trivial
    | none =>
      cases terminal with
      | none => trivial
      | some output => exact ⟨rfl, rfl, rfl⟩
  | cons event rest ih =>
    intro terminal
    unfold forward
    refine under_step trivial fun _ => ?_
    cases terminal with
    | some output => trivial
    | none =>
      cases event with
      | completed output =>
        refine Tame.weaken (ih (some output)) ?_
        rintro output' ⟨hending, rfl, rfl⟩
        exact ⟨hending, [], rfl⟩
      | textDelta delta =>
        exact under_bind (emitEvent_neutral _).balances fun _ => Tame.weaken (ih none) fun _ h =>
          h.cons
      | toolResult result =>
        exact under_bind (emitEvent_neutral _).balances fun _ => Tame.weaken (ih none) fun _ h =>
          h.cons

/-- The output of an invoker is well formed. -/
theorem invokeAgent_balances (invoker : Invoker) (messages : List Message) :
    BalancesTo κ rows (fun output => WellFormed output.messages)
      (invokeAgent invoker emit messages) := by
  unfold invokeAgent
  split
  · unfold streamInvoker
    refine Tame.performBind trivial fun source hsource => ?_
    refine Tame.weaken ((forward_balances source.events none).finallyDo (under_perform trivial)) ?_
    rintro output ⟨hending, before, hevents⟩
    exact hsource hending before output hevents
  · refine Tame.weaken (Q := fun output => WellFormed output.messages) ⟨trivial, fun r hr => ?_⟩
      fun _ h => h
    cases r with
    | ok output => exact hr
    | error e => exact Or.inl trivial

/-- The input messages are well formed together with the history, and so is the output. -/
theorem runClaimed_balances (hκ : κ.isInvocation = true) (hwindow : rt.contextWindow.isSome = true)
    (invoker : Invoker) (request : RuntimeRequest) (key : Option String)
    (runId threadId token : Uuid) :
    Balances κ rows (runClaimed rt invoker request key emit runId threadId token) := by
  unfold runClaimed
  refine under_bind (transition_neutral _ _ _ _ _).balances fun _ => ?_
  refine under_bind (emitEvent_neutral _).balances fun _ => ?_
  refine Tame.bind (inputMessages_balances hwindow _ _) fun messages hgiven => ?_
  refine under_step trivial fun _ => under_step trivial fun _ => ?_
  refine Tame.bind (invokeAgent_balances _ _) fun output houtput => ?_
  refine under_step trivial fun _ => under_bind (under_done _) fun assistant => ?_
  refine under_step trivial fun traceId => ?_
  refine under_bind (complete_balances hκ ?_) fun _ => under_done _
  have hwell : Exchange.WellFormed (toolEvents
      ((rows.map MessageRow.message ++ request.messages) ++ output.messages)) := by
    rw [toolEvents_append]
    exact Exchange.WellFormed.append hgiven houtput
  rw [List.append_assoc] at hwell
  exact hwell

theorem invokeTracked_balances (hκ : κ.isInvocation = true)
    (hwindow : rt.contextWindow.isSome = true) (agentId : String) (request : RuntimeRequest)
    (key : Option String) : Balances κ rows (invokeTracked rt agentId request key emit) :=
  invokeTracked_under (fun _ => Op.extends_of_isNeutral) (fun _ _ _ _ _ => trivial)
    (fun _ _ _ _ _ => runClaimed_balances hκ hwindow _ _ _ _ _ _) _ _

theorem produce_balances (hκ : κ.isInvocation = true) (hwindow : rt.contextWindow.isSome = true)
    (agentId : String) (request : RuntimeRequest) (key : Option String) :
    Balances κ rows (produce rt agentId request key) :=
  produce_under (fun _ => Op.extends_of_isNeutral) (fun _ _ _ _ _ => trivial) _ _
    fun _ _ _ _ _ => runClaimed_balances hκ hwindow _ _ _ _ _ _

end Turn

end AgentRuntimeKit
