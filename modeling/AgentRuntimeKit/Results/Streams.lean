import AgentRuntimeKit.Results.Outcomes

/-!
# The public stream

The events that `AgentRuntime.stream` yields: nothing, or `started` and text deltas, and then one
`completed` if the run has succeeded. `PublicStream` says which sequences there are, and what each
says about the rows of the store. In particular the response of a `completed` event is, in its JSON
form, the one that the row has.

The result is about every stream of a reachable configuration whose producer has ended, and makes no
assumption on

* the source: any events in any order, `completed` in the middle or twice, any exception;
* what fails: statements, commits that get lost or come late, hooks, the deadline, cancellations;
* the reconciliation, which may turn an exception into success after the row has been read again;
* the consumer, which may take the events at its own pace and leave.

Store calls by others are those that name no run of their own (`Reachable true`), since whoever knew
the owner token could end the run of a stream.

What the consumer has taken is a prefix of what the producer has enqueued. What that is follows from
the postcondition of the producer (`Reachable.post`), which keeps the items it has put beside what
it knows of its run; the rest is a comparison of items with events, case by case for the ways in
which a turn may end.

## Results

* `Reachable.publicStream` — the events of a stream whose producer has ended.
-/

namespace AgentRuntimeKit

open Lib

/-- The event that an item carries to the consumer. -/
def Item.event? : Item → Option RuntimeStreamEvent
  | .event e => some e
  | _ => none

/-- What `stream` has yielded so far: the events among the items that its consumer has taken. -/
def Stream.yielded (s : Stream) : List RuntimeStreamEvent :=
  (s.pushed.take s.taken).filterMap Item.event?

/-- A consumer that iterates gets nothing more: it has taken an end mark, or everything. -/
def Stream.Drained (s : Stream) : Prop :=
  (∃ item ∈ s.pushed.take s.taken, item.ends = true) ∨ s.pushed.length ≤ s.taken

/-- The run of `row` was claimed and moved to running by the invocation `p`, which saw it. -/
structure Launched (w : World) (p : Pid) (row : RunRow) : Prop where
  mem : row ∈ w.db.runs
  mint : w.mint row.id = some p
  underway : Underway row.id (w.acked p)

section

variable (w : World) (p : Pid) (rt : Runtime) (agentId : String) (request : RuntimeRequest)
  (key : Option String)

/-- The event that a fresh run starts with. -/
def IsStarted (row : RunRow) (e : RuntimeStreamEvent) : Prop :=
  ∃ invoker, rt.agents agentId = some invoker ∧
    e = .started row.id request.requestId row.threadId invoker.descriptor

/-- The events of a whole stream. -/
inductive PublicStream : List RuntimeStreamEvent → Prop
  /-- No run was claimed and moved to running, and none was replayed. -/
  | nothing (hwaiting : NotUnderway (w.acked p)) : PublicStream []
  /-- A fresh run that yields no completed event. -/
  | fresh {row : RunRow} {started : RuntimeStreamEvent} {ds : List RuntimeStreamEvent}
      (hrow : Launched w p row) (hstarted : IsStarted rt agentId request row started)
      (hds : Forwarded ds (w.source p)) : PublicStream (started :: ds)
  /-- A fresh run that succeeded, its source having ended after its one completed event. -/
  | completed {row : RunRow} {started : RuntimeStreamEvent} {rd : Reading}
      {response : RuntimeResponse} (hrow : Launched w p row)
      (hstarted : IsStarted rt agentId request row started) (hsource : w.source p = some rd)
      (hended : rd.ended) (hstatus : row.status = .succeeded)
      (hresponse : row.response = some response.jsonForm) :
      PublicStream (started :: deltasOf rd.source.events ++ [.completed response])
  /-- A replay of a run that has succeeded. -/
  | replayed {row : RunRow} {response : RuntimeResponse} (hwaiting : NotUnderway (w.acked p))
      (hrow : row ∈ w.db.runs) (hasked : row.asked = (agentId, key, some (rt.requestHash request)))
      (hstatus : row.status = .succeeded) (hresponse : row.response = some response) :
      PublicStream [startedOf response, .completed response]

/-- What the consumer has been given is the beginning of such a stream, and all of it once it
gets nothing more. -/
def YieldsStream : Prop := ∃ events, PublicStream w p rt agentId request key events ∧
  (w.stream p).yielded <+: events ∧ ((w.stream p).Drained → (w.stream p).yielded = events)

end

-- ---------------------------------------------------------------------------
-- What is enqueued and what is taken
-- ---------------------------------------------------------------------------

section Items

theorem events_shown (events : List RuntimeStreamEvent) :
    (shown true events).filterMap Item.event? = events := by
  unfold shown
  rw [if_pos rfl, List.filterMap_map]
  exact List.filterMap_some

theorem Item.ends_of_isInner {item : Item} (h : item.isInner = true) : item.ends = false := by
  cases item with
  | event e => rfl
  | _ => exact Bool.noConfusion h

/-- What is yielded is the beginning of what is enqueued. -/
theorem Stream.yielded_initial (s : Stream) : s.yielded <+: s.pushed.filterMap Item.event? :=
  (List.take_prefix s.taken s.pushed).filterMap _

/-- After an end mark there is no event. -/
def EndsLast : List Item → Prop
  | [] => True
  | item :: rest => (item.ends = true → rest.filterMap Item.event? = []) ∧ EndsLast rest

theorem EndsLast.append {items rest : List Item} (h : ∀ item ∈ items, item.isInner = true)
    (hrest : EndsLast rest) : EndsLast (items ++ rest) := by
  induction items with
  | nil => exact hrest
  | cons item items ih =>
    have hinner := Item.ends_of_isInner (h item List.mem_cons_self)
    refine ⟨fun hends => ?_, ih fun x hx => h x (List.mem_cons_of_mem _ hx)⟩
    rw [hinner] at hends
    exact Bool.noConfusion hends

theorem EndsLast.initial {items rest : List Item} (h : items <+: rest) (hrest : EndsLast rest) :
    EndsLast items := by
  induction rest generalizing items with
  | nil =>
    rw [List.prefix_nil.mp h]
    trivial
  | cons x rest ih =>
    cases items with
    | nil => trivial
    | cons item items =>
      obtain ⟨rfl, htail⟩ := List.cons_prefix_cons.mp h
      refine ⟨fun hends => ?_, ih htail hrest.2⟩
      have hnone := htail.filterMap Item.event?
      rw [hrest.1 hends] at hnone
      exact List.prefix_nil.mp hnone

theorem marks_endsLast (outcome : Except Exn RuntimeResponse) : EndsLast (marks outcome) := by
  cases outcome with
  | ok response => exact ⟨fun h => Bool.noConfusion h, fun _ => rfl, trivial⟩
  | error e =>
    unfold marks
    dsimp only
    split
    · exact ⟨fun _ => rfl, fun _ => rfl, trivial⟩
    · trivial

/-- What a drained stream has yielded is all that was enqueued. -/
theorem Stream.Drained.yielded {s : Stream} (h : s.Drained) (hlast : EndsLast s.pushed) :
    s.yielded = s.pushed.filterMap Item.event? := by
  unfold Stream.yielded
  rcases h with ⟨item, hmem, hends⟩ | hall
  · revert hmem hlast
    generalize s.pushed = items
    generalize s.taken = n
    intro hlast hmem
    induction items generalizing n with
    | nil => rw [List.take_nil]
    | cons x items ih =>
      cases n with
      | zero => exact absurd hmem List.not_mem_nil
      | succ n =>
        rw [List.take_succ_cons] at hmem ⊢
        rcases List.mem_cons.mp hmem with rfl | hmem
        · -- the end mark: neither side has anything behind it
          have hnone := (List.take_prefix n items).filterMap Item.event?
          rw [hlast.1 hends] at hnone
          rw [List.filterMap_cons, List.filterMap_cons, List.prefix_nil.mp hnone, hlast.1 hends]
        · rw [List.filterMap_cons, List.filterMap_cons, ih n hlast.2 hmem]
  · rw [List.take_of_length_le hall]

end Items

-- ---------------------------------------------------------------------------
-- The stream of an invocation that has ended
-- ---------------------------------------------------------------------------

section Streams

variable {c : Cfg} {p : Pid} {rt : Runtime} {agentId : String} {request : RuntimeRequest}
  {key : Option String} {w : World} {L : List Call} {k : Kept}

/-- The row of a run that its invocation knows. -/
theorem Inv.launched (hinv : Inv true w) {record : RunRow} {pushed : List Item}
    (hturn : Turn p { k with pushed := pushed } w) (hrun : k.runId = some record.id)
    (hunderway : Underway record.id (w.acked p)) {row : RunRow} (hrow : row ∈ w.db.runs)
    (hid : row.id = record.id) : Launched w p row := by
  refine ⟨hrow, ?_, by rw [hid]; exact hunderway⟩
  rw [hid]
  exact (hinv.proc p).runId _ (hturn.runId.trans hrun)

theorem Shown.started {record row : RunRow} {ds : List RuntimeStreamEvent} {items : List Item}
    (h : Shown rt agentId request true record ds items) (hid : row.id = record.id)
    (hthread : row.threadId = record.threadId) : ∃ started,
      IsStarted rt agentId request row started ∧
      items.filterMap Item.event? = started :: ds := by
  obtain ⟨invoker, hagent, rfl⟩ := h
  refine ⟨_, ⟨invoker, hagent, rfl⟩, ?_⟩
  rw [events_shown, hid, hthread]

/-- A turn that has not answered yields what it has forwarded. -/
theorem Progress.yields {pushed : List Item} (h : Progress rt agentId request true L k w)
    (hinv : Inv true w) (hacked : w.acked p = L) (hturn : Turn p { k with pushed := pushed } w) :
    PublicStream w p rt agentId request key (k.pushed.filterMap Item.event?) := by
  cases h with
  | waiting hwaiting hpushed _ =>
    rw [hpushed]
    exact .nothing (hacked ▸ hwaiting)
  | underway hunderway hrun hrow hforwarded hpushed =>
    obtain ⟨row, hmem, hsame, -⟩ := hrow
    obtain ⟨started, hstarted, hevents⟩ := hpushed.started hsame.id hsame.threadId
    rw [hevents]
    refine .fresh (hinv.launched hturn hrun (hacked ▸ hunderway) hmem hsame.id) hstarted ?_
    rw [show w.source p = k.source from hturn.source]
    exact hforwarded

/-- All the events of a source that has ended were forwarded. -/
theorem Forwarded.ended {ds : List RuntimeStreamEvent} {rd : Reading}
    (h : Forwarded ds (some rd)) (hended : rd.ended) : ds = deltasOf rd.source.events := by
  obtain ⟨-, hpulled, before, output, hevents, hbefore⟩ := hended
  refine h.2 ?_
  have hdeltas : deltasOf rd.source.events = deltasOf before := by
    rw [hevents, deltasOf_append hbefore]
    exact List.append_nil _
  rw [hdeltas, deltasOf_length hbefore]
  rw [hevents, List.length_append] at hpulled
  omega

/-- The run of a succeeded row has completed, so its source has ended. -/
theorem Inv.ended_of_succeeded (hinv : Inv true w) {row : RunRow} (hrow : row ∈ w.db.runs)
    (hstatus : row.status = .succeeded) (hmint : w.mint row.id = some p) : SourceEnded w p := by
  obtain ⟨e, he, hcompletes⟩ := List.mem_map.mp (hinv.log.covered row hrow hstatus)
  cases e with
  | commit σ before =>
    have hcall : σ.call.completes = some row.id := hcompletes
    cases hσ : σ.call with
    | complete runId token messages response =>
      rw [hσ] at hcall
      obtain ⟨hclient, hended⟩ := (hinv.rowsPriv rfl).completedBy σ before _ _ _ _ he hσ
      rw [Option.some.inj hcall, hmint] at hclient
      rw [Option.some.inj hclient]
      exact hended
    | _ =>
      rw [hσ] at hcall
      exact absurd hcall (by simp [Call.completes])
  | _ => exact absurd hcompletes (by simp [Event.completes])

/-- A turn whose row turns out to have succeeded. -/
theorem Progress.recovered {pushed : List Item} (h : Progress rt agentId request true L k w)
    (hinv : Inv true w) (hacked : w.acked p = L) (hturn : Turn p { k with pushed := pushed } w)
    {row : RunRow} (hrow : row ∈ w.db.runs) (hid : w.runId p = some row.id)
    (hstatus : row.status = .succeeded) {response : RuntimeResponse}
    (hresponse : row.response = some response.jsonForm) :
    PublicStream w p rt agentId request key
      (k.pushed.filterMap Item.event? ++ [.completed response]) := by
  obtain ⟨rd, hsource, hended⟩ :=
    hinv.ended_of_succeeded hrow hstatus ((hinv.proc p).runId _ hid)
  have hkept : k.source = some rd := hturn.source.symm.trans hsource
  cases h with
  | waiting _ _ hnone => exact absurd (hnone.symm.trans hkept) (by simp)
  | @underway record _ hunderway hrun hknown hforwarded hpushed =>
    obtain ⟨row', hmem, hsame, -⟩ := hknown
    have hrecord : row.id = record.id := by
      rw [hturn.runId] at hid
      exact Option.some.inj (hid.symm.trans hrun)
    obtain rfl : row = row' := hinv.db.unique_id hrow hmem (hrecord.trans hsame.id.symm)
    obtain ⟨started, hstarted, hevents⟩ := hpushed.started hsame.id hsame.threadId
    rw [hkept] at hforwarded
    rw [hevents, hforwarded.ended hended]
    exact .completed (hinv.launched hturn hrun (hacked ▸ hunderway) hrow hsame.id) hstarted hsource
      hended hstatus hresponse

/-- An answer of the turn itself. -/
theorem Responded.yields {pushed : List Item} {response : RuntimeResponse}
    (h : Responded rt agentId request key true response L k w) (hinv : Inv true w)
    (hacked : w.acked p = L) (hturn : Turn p { k with pushed := pushed } w) :
    PublicStream w p rt agentId request key
        (k.pushed.filterMap Item.event? ++ [.completed response]) ∧
      (64 ≤ k.pushed.length →
        PublicStream w p rt agentId request key (k.pushed.filterMap Item.event?)) := by
  cases h with
  | @fresh record rd hunderway hrun hknown hstored hsource hended _ hpushed =>
    obtain ⟨row, hmem, hid, hstatus, hresponse⟩ := hstored
    obtain ⟨row', hmem', hsame, -⟩ := hknown
    obtain rfl : row = row' := hinv.db.unique_id hmem hmem' (hid.trans hsame.id.symm)
    obtain ⟨started, hstarted, hevents⟩ := hpushed.started hsame.id hsame.threadId
    have hlaunched := hinv.launched hturn hrun (hacked ▸ hunderway) hmem hid
    have hsource' : w.source p = some rd := hturn.source.trans hsource
    rw [hevents]
    refine ⟨.completed hlaunched hstarted hsource' hended hstatus hresponse, fun _ => ?_⟩
    refine .fresh hlaunched hstarted ?_
    rw [hsource']
    exact ⟨List.prefix_rfl, fun _ => rfl⟩
  | @replayed hwaiting hrun hrow _ hpushed =>
    obtain ⟨row, hmem, hasked, hstatus, hresponse⟩ := hrow
    rw [hpushed, events_shown]
    refine ⟨.replayed (hacked ▸ hwaiting) hmem hasked hstatus hresponse, fun hfull => ?_⟩
    -- one event does not fill the queue
    rw [shown, if_pos rfl, List.length_map, List.length_singleton] at hfull
    omega

/-- The events among the marks of an answer. -/
theorem marks_ok {response : RuntimeResponse} {items : List Item}
    (h : items <+: marks (.ok response)) :
    items = [] ∨ items.filterMap Item.event? = [.completed response] := by
  cases items with
  | nil => exact Or.inl rfl
  | cons item items =>
    obtain ⟨rfl, htail⟩ := List.cons_prefix_cons.mp h
    have hnone := htail.filterMap Item.event?
    refine Or.inr ?_
    rw [List.filterMap_cons, List.prefix_nil.mp hnone]
    rfl

/-- A failure yields no event. -/
theorem marks_error {e : Exn} {items : List Item} (h : items <+: marks (.error e)) :
    items.filterMap Item.event? = [] := by
  have hevents : (marks (.error e)).filterMap Item.event? = [] := by
    unfold marks
    dsimp only
    split <;> rfl
  have hprefix := h.filterMap Item.event?
  rw [hevents] at hprefix
  exact List.prefix_nil.mp hprefix

/-- The events of an invocation that has ended, with as many of its marks as were enqueued. -/
theorem Reconciled.yields {outcome : Except Exn RuntimeResponse} {items : List Item}
    {s : Option Pid} (h : Reconciled rt agentId request key true p L k w outcome s)
    (hinv : Inv true w) (hacked : w.acked p = L)
    (hturn : Turn p { k with pushed := k.pushed ++ items } w) (hitems : items <+: marks outcome)
    (hall : items = marks outcome ∨ 64 ≤ (k.pushed ++ items).length) :
    PublicStream w p rt agentId request key ((k.pushed ++ items).filterMap Item.event?) := by
  rw [List.filterMap_append]
  -- where nothing was answered, there is no completed event
  have hprogress : Progress rt agentId request true L k w → items.filterMap Item.event? = [] →
      PublicStream w p rt agentId request key
        (k.pushed.filterMap Item.event? ++ items.filterMap Item.event?) := by
    intro h hnone
    rw [hnone, List.append_nil]
    exact h.yields hinv hacked hturn
  cases h with
  | unnamed h => exact hprogress h (marks_error hitems)
  | failed h => exact hprogress h (marks_error hitems)
  | cancelled h => exact hprogress h (marks_error hitems)
  | answered h =>
    obtain ⟨hcompleted, hcut⟩ := h.yields hinv hacked hturn
    rcases marks_ok hitems with rfl | hitems
    · rw [List.append_nil] at hall
      rw [List.filterMap_nil, List.append_nil]
      refine hcut (hall.resolve_left fun h => ?_)
      exact absurd h (by simp [marks])
    · rw [hitems]
      exact hcompleted
  | @recovered response s record status h hclean hsettled hresponse =>
    rcases marks_ok hitems with rfl | hitems
    · exact hprogress h rfl
    · obtain ⟨hrow, -, hid⟩ := (hinv.rowsPriv rfl).outcomes s _ p status hsettled hclean
      obtain ⟨hstatus, hstored⟩ := durableResponse_some hresponse
      rw [hitems]
      exact h.recovered hinv hacked hturn hrow hid hstatus
        ((hinv.db.rows record hrow).jsonForm_eq hstored)

/-- **The public stream protocol**: a stream whose producer has ended yields the beginning of one of
the sequences of `PublicStream`, and all of it to a consumer that goes on to the end. -/
theorem Reachable.publicStream (h : Reachable true c)
    (hkind : c.world.kind p = .task (.stream rt agentId request key)) {r : Except Exn Answer}
    (hp : c.procs p = some (.done r)) : YieldsStream c.world p rt agentId request key := by
  have hpost := h.post hp
  unfold PostOf at hpost
  rw [hkind] at hpost
  obtain ⟨L, s, k, outcome, items, ⟨hparked, hturn, hreconciled⟩, hprefix, hall⟩ := hpost
  have hpushed : (c.world.stream p).pushed = k.pushed ++ items := hturn.pushed
  refine ⟨(c.world.stream p).pushed.filterMap Item.event?, ?_, Stream.yielded_initial _,
    fun hdrained => hdrained.yielded ?_⟩
  · rw [hpushed]
    refine hreconciled.yields h.inv hparked.acked hturn hprefix ?_
    exact hall.imp id fun ⟨_, _, hfull, _⟩ => hfull
  · rw [hpushed]
    exact EndsLast.append hreconciled.inner (.initial hprefix (marks_endsLast outcome))

end Streams

-- ---------------------------------------------------------------------------
-- A sample stream
-- ---------------------------------------------------------------------------

namespace Sample

def streamingRuntime : Runtime := runtime

def source : Source := ⟨[.textDelta default, .completed output], none⟩

def response : RuntimeResponse := ⟨10, 20, 100, agent, reply, [], none, none, []⟩

/-- One streamed invocation on a new thread, up to the end mark. -/
def streaming : List (Move Choice Env) :=
  .env (.start 1 (.stream streamingRuntime "agent" request (some "key"))) :: ok 1 1 ++
    .run 1 (.uuid 30) :: ok 1 2 ++ .run 1 (.uuid 100) :: ok 1 4 ++ .run 1 (.uuid 10) ::
  -- up to the source, then its events and its end
    ok 1 20 ++ .run 1 (.source source) :: ok 1 6 ++ .run 1 (.trace none) ::
  -- `complete`, the marks, and a consumer that takes everything
    ok 1 12 ++ .run 1 (.flag false) :: ok 1 2 ++ List.replicate 4 (.env (.take 1))

set_option maxRecDepth 8000 in
/-- Where `streaming` ends. -/
def streamed : Cfg := (machine.run (Cfg.initial 0) streaming).get (by decide)

theorem reachable_streamed (priv : Bool) : Reachable priv streamed :=
  .of_schedule (by decide) (Option.some_get _).symm

end Sample

set_option maxRecDepth 8000 in
/-- The sample stream, from its start to its completed event. -/
theorem Sample.publicStream_streamed : (Sample.streamed.world.stream 1).yielded =
      [.started 10 20 100 Sample.agent, .textDelta default, .completed Sample.response] ∧
    YieldsStream Sample.streamed.world 1 Sample.streamingRuntime "agent" Sample.request
      (some "key") := by
  constructor
  · rfl
  · exact (Sample.reachable_streamed true).publicStream rfl rfl

end AgentRuntimeKit
