import AgentRuntimeKit.Protocol.Producers

/-!
# Answers

What a call has returned, and how its invocation ended. A stream has answered once its
completed event is enqueued, while its producer may still wait for room for the sentinel.

## Results

* `Reachable.ended`    — how the invocation behind an answer ended.
* `Reachable.answered` — the row behind an answer.
-/

namespace AgentRuntimeKit

open Lib Prog

/-- The call `p` has returned this response: as its result, or as the completed event of a
stream. -/
def HasAnswered (c : Cfg) (p : Pid) (response : RuntimeResponse) : Prop :=
  match c.world.kind p with
  | .task (.invoke _ _ _ _) => c.procs p = some (.done (.ok (.response response)))
  | .task (.stream _ _ _ _) => .event (.completed response) ∈ (c.world.stream p).pushed
  | _ => False

/-- The call `p` has raised this exception: as its result, or to the consumer of a stream. -/
def HasRaised (c : Cfg) (p : Pid) (e : Exn) : Prop :=
  match c.world.kind p with
  | .task (.invoke _ _ _ _) => c.procs p = some (.done (.error e))
  | .task (.stream _ _ _ _) => .failure e ∈ (c.world.stream p).pushed
  | _ => False

/-- Two worlds that differ in streams only, as far as ended calls are concerned. -/
structure SameTables (w w' : World) : Prop where
  db : w'.db = w.db
  log : w'.log = w.log
  kind : w'.kind = w.kind
  mint : w'.mint = w.mint
  runId : w'.runId = w.runId
  source : w'.source = w.source
  settled : w'.settled = w.settled
  cleanup : w'.cleanup = w.cleanup
  premature : w'.premature = w.premature

theorem SameTables.refl (w : World) : SameTables w w :=
  ⟨rfl, rfl, rfl, rfl, rfl, rfl, rfl, rfl, rfl⟩

section Answers

variable {priv : Bool} {c : Cfg} {p : Pid} {rt : Runtime} {agentId : String}
  {request : RuntimeRequest} {key : Option String}

/-- What a turn shows of its events is neither a completed event nor an end mark. -/
theorem Shown.inner {emit : Bool} {record : RunRow} {ds : List RuntimeStreamEvent}
    {items : List Item} (h : Shown rt agentId request emit record ds items)
    (hds : ∀ e ∈ ds, (Item.event e).isInner = true) : ∀ item ∈ items, item.isInner = true := by
  obtain ⟨invoker, -, rfl⟩ := h
  unfold shown
  split
  · intro item hmem
    obtain ⟨e, he, rfl⟩ := List.mem_map.mp hmem
    rcases List.mem_cons.mp he with rfl | he
    · rfl
    · exact hds e he
  · exact fun item hmem => absurd hmem List.not_mem_nil

theorem deltasOf_inner (events : List AgentStreamEvent) :
    ∀ e ∈ deltasOf events, (Item.event e).isInner = true := by
  induction events with
  | nil => exact fun e he => absurd he List.not_mem_nil
  | cons event rest ih =>
    intro e he
    cases event with
    | completed output => exact absurd he List.not_mem_nil
    | textDelta delta =>
      rcases List.mem_cons.mp he with rfl | he
      · rfl
      · exact ih e he
    | toolResult result =>
      rcases List.mem_cons.mp he with rfl | he
      · rfl
      · exact ih e he

theorem Forwarded.inner {ds : List RuntimeStreamEvent} {source : Option Reading}
    (h : Forwarded ds source) : ∀ e ∈ ds, (Item.event e).isInner = true := by
  cases source with
  | none =>
    intro e he
    rw [show ds = [] from h] at he
    exact absurd he List.not_mem_nil
  | some rd => exact fun e he => deltasOf_inner _ e (h.1.subset he)

theorem Progress.inner {emit : Bool} {L : List Call} {k : Kept} {w : World}
    (h : Progress rt agentId request emit L k w) : ∀ item ∈ k.pushed, item.isInner = true := by
  cases h with
  | waiting _ hpushed =>
    rw [hpushed]
    exact fun item hmem => absurd hmem List.not_mem_nil
  | underway _ _ _ hforwarded hpushed => exact hpushed.inner hforwarded.inner

/-- The events of a turn come before its completed event and its end mark. -/
theorem Reconciled.inner {emit : Bool} {L : List Call} {k : Kept} {w : World}
    {outcome : Except Exn RuntimeResponse} {s : Option Pid}
    (h : Reconciled rt agentId request key emit p L k w outcome s) :
    ∀ item ∈ k.pushed, item.isInner = true := by
  cases h with
  | answered h =>
    cases h with
    | fresh _ _ _ _ _ _ _ hpushed => exact hpushed.inner (deltasOf_inner _)
    | replayed _ _ _ _ hpushed =>
      rw [hpushed]
      unfold shown startedOf
      split
      · intro item hmem
        rw [List.mem_singleton.mp hmem]
        rfl
      · exact fun item hmem => absurd hmem List.not_mem_nil
  | unnamed h => exact h.inner
  | recovered h => exact h.inner
  | failed h => exact h.inner
  | cancelled h => exact h.inner

/-- A completed event marks the answer of its invocation. -/
theorem mem_marks {outcome : Except Exn RuntimeResponse} {response : RuntimeResponse}
    (h : .event (.completed response) ∈ marks outcome) : outcome = .ok response := by
  cases outcome with
  | ok r =>
    unfold marks at h
    rcases List.mem_cons.mp h with heq | hmem
    · injection heq with heq
      injection heq with heq
      rw [heq]
    · exact absurd hmem (by simp)
  | error e =>
    unfold marks at h
    dsimp only at h
    split at h <;> exact absurd h (by simp)

-- ---------------------------------------------------------------------------
-- The invocation behind an answer
-- ---------------------------------------------------------------------------

/-- A failure marks the exception of its invocation. -/
theorem failure_mem_marks {outcome : Except Exn RuntimeResponse} {e : Exn}
    (h : .failure e ∈ marks outcome) : outcome = .error e := by
  cases outcome with
  | ok r => exact absurd h (by simp [marks])
  | error e' =>
    unfold marks at h
    dsimp only at h
    split at h
    · rcases List.mem_cons.mp h with heq | hmem
      · injection heq with heq
        rw [heq]
      · exact absurd hmem (by simp)
    · exact absurd h List.not_mem_nil

/-- The invocation of `p` has ended so. -/
def Ended (c : Cfg) (p : Pid) (rt : Runtime) (agentId : String) (request : RuntimeRequest)
    (key : Option String) (emit : Bool) (outcome : Except Exn RuntimeResponse) : Prop :=
  ∃ w L s k pushed, SameTables c.world w ∧ Inv true w ∧ Parked p (c.world.kind p) L s w ∧
    Turn p { k with pushed := pushed } w ∧
    Reconciled rt agentId request key emit p L k w outcome s

theorem Reachable.ended_invoke (h : Reachable true c)
    (hkind : c.world.kind p = .task (.invoke rt agentId request key)) {r : Except Exn Answer}
    (hp : c.procs p = some (.done r)) : ∃ outcome, r = outcome.map Answer.response ∧
      Ended c p rt agentId request key false outcome := by
  have hpost := h.post hp
  unfold PostOf at hpost
  rw [hkind] at hpost
  obtain ⟨outcome, hr, L, s, k, hparked, hturn, hreconciled⟩ := hpost
  refine ⟨outcome, hr, c.world, L, s, k, k.pushed, .refl _, h.inv, ?_, hturn, hreconciled⟩
  rw [hkind]
  exact hparked

/-- The producer has ended, or could end without touching anything but its stream. -/
theorem Reachable.produced (h : Reachable priv c)
    (hkind : c.world.kind p = .task (.stream rt agentId request key)) {response : RuntimeResponse}
    (hmem : .event (.completed response) ∈ (c.world.stream p).pushed) :
    ∃ r w, SameTables c.world w ∧ Inv priv w ∧
      .event (.completed response) ∈ (w.stream p).pushed ∧
      Produced rt agentId request key p (.task (.stream rt agentId request key))
        (marksEnded r) w := by
  obtain ⟨clock, hreach⟩ := h
  have hc : Reachable priv c := ⟨clock, hreach⟩
  have hholds := (completing_kept.holds (fun _ _ _ hd => absurd hd Bool.noConfusion) hreach).1
  obtain ⟨m, hm, hcompleting⟩ := hholds p (by rw [hkind]; rfl)
  rcases hcompleting with ⟨hnone, -⟩ | rfl | ⟨r, rfl⟩
  · exact absurd hmem (hnone response)
  · -- one more operation: the sentinel, or a cancellation on a full queue
    have hsafe := hc.sound.2 p _ hm c.world Relation.ReflTransGen.refl hc.inv
    have hpost : ∀ {r : Except Exn Answer} {w : World}, w.kind p = c.world.kind p →
        PostOf p r w → Produced rt agentId request key p
          (.task (.stream rt agentId request key)) (marksEnded r) w := by
      intro r w hk hpost
      unfold PostOf at hpost
      rw [hk, hkind] at hpost
      exact hpost
    cases hfull : (c.world.stream p).full with
    | false =>
      have hx : exec p c.world (.put .sentinel) .ok = some (.ok (), c.world.setStream p
          { c.world.stream p with pushed := (c.world.stream p).pushed ++ [.sentinel] }, []) := by
        simp [exec, execOk, hfull, answer]
      obtain ⟨hinv, -, -, -, hdone⟩ := hsafe .ok (.ok ()) _ [] hx
      refine ⟨.ok .nothing, c.world.setStream p _, ⟨rfl, rfl, rfl, rfl, rfl, rfl, rfl, rfl, rfl⟩,
        hinv, ?_,
        hpost rfl (hdone _ Relation.ReflTransGen.refl)⟩
      show _ ∈ (Function.update c.world.stream p _ p).pushed
      rw [Function.update_self]
      exact List.mem_append_left _ hmem
    | true =>
      have hx : exec p c.world (.put .sentinel) (.fail (.cancelled false)) =
          some (.error (.cancelled false), c.world, []) := by
        simp [exec, Op.mayRaise, Op.suspends, hfull, hkind, Kind.isTask, answer]
      obtain ⟨hinv, -, -, -, hdone⟩ := hsafe (.fail (.cancelled false)) _ _ [] hx
      exact ⟨.error (.cancelled false), _, .refl _, hinv, hmem,
        hpost rfl (hdone _ Relation.ReflTransGen.refl)⟩
  · have hpost := hc.post hm
    unfold PostOf at hpost
    rw [hkind] at hpost
    exact ⟨r, c.world, .refl _, hc.inv, hmem, hpost⟩

/-- How the invocation behind an answer ended. -/
theorem Reachable.ended (h : Reachable true c) {response : RuntimeResponse}
    (ha : HasAnswered c p response) : ∃ rt agentId request key emit,
      (c.world.kind p).asked = some (agentId, key, some (rt.requestHash request)) ∧
      Ended c p rt agentId request key emit (.ok response) := by
  unfold HasAnswered at ha
  cases hkind : c.world.kind p with
  | task t =>
    rw [hkind] at ha
    cases t with
    | call c' => exact ha.elim
    | invoke rt agentId request key =>
      refine ⟨rt, agentId, request, key, false, rfl, ?_⟩
      obtain ⟨outcome, hr, hended⟩ := h.ended_invoke hkind ha
      cases outcome with
      | error e => exact absurd hr (by simp [Except.map])
      | ok response' =>
        have heq : response = response' := by simpa [Except.map] using hr
        rw [heq]
        exact hended
    | stream rt agentId request key =>
      refine ⟨rt, agentId, request, key, true, rfl, ?_⟩
      obtain ⟨r, w, hsame, hinv, hmem, L, s, k, outcome, items, ⟨hparked, hturn, hreconciled⟩,
          htail⟩ :=
        h.produced hkind ha
      rw [hturn.pushed] at hmem
      -- the completed event is among the marks
      rcases List.mem_append.mp hmem with hmem | hmem
      · exact Bool.noConfusion (hreconciled.inner _ hmem)
      · rw [mem_marks (htail.1.subset hmem)] at hreconciled
        rw [← hkind] at hparked
        exact ⟨w, L, s, k, _, hsame, hinv, hparked, hturn, hreconciled⟩
  | _ =>
    rw [hkind] at ha
    exact ha.elim

-- ---------------------------------------------------------------------------
-- The row behind an answer
-- ---------------------------------------------------------------------------

/-- The invoker of `p` has produced an output with this metadata. -/
def Returned (w : World) (p : Pid) (metadata : Metadata) : Prop :=
  ∃ rd, w.source p = some rd ∧ rd.Gives metadata

/-- Where an answer comes from. -/
inductive Origin (w : World) (p : Pid) (row : RunRow) (response : RuntimeResponse) : Prop
  /-- It was read from the row, by a replay or after a clean-up. -/
  | read (hform : response.jsonForm = response)
      (hsource : w.cleanup p = none → w.source p = none) : Origin w p row response
  /-- It was made of the output of the invoker, whose metadata it has. -/
  | own {rd : Reading} (hrun : w.runId p = some row.id) (hcleanup : w.cleanup p = none)
      (hsource : w.source p = some rd) (hended : rd.ended) (hgives : rd.Gives response.metadata) :
      Origin w p row response

/-- An answer is the response of a run that succeeded, in the form in which it is stored. It is
the run that the invocation names, unless it names none. -/
structure AnsweredBy (w : World) (p : Pid) (row : RunRow) (answer : RuntimeResponse) : Prop where
  mem : row ∈ w.db.runs
  asked : (w.kind p).asked = some row.asked
  status : row.status = .succeeded
  response : row.response = some answer.jsonForm
  own : ∀ u, w.runId p = some u → row.id = u
  origin : Origin w p row answer

/-- A source that has ended well has one output. -/
theorem Reading.ended.gives {rd : Reading} (h : rd.ended) {metadata metadata' : Metadata}
    (hgives : rd.Gives metadata) (hgives' : rd.Gives metadata') : metadata = metadata' := by
  obtain ⟨-, -, before, output, hevents, hbefore⟩ := h
  have hone : ∀ o, AgentStreamEvent.completed o ∈ rd.source.events → o = output := by
    intro o ho
    rw [hevents, List.mem_append, List.mem_singleton] at ho
    rcases ho with ho | ho
    · exact absurd (hbefore _ ho) (by simp [AgentStreamEvent.isCompleted])
    · exact AgentStreamEvent.completed.inj ho
  obtain ⟨o, ho, rfl⟩ := hgives
  obtain ⟨o', ho', rfl⟩ := hgives'
  rw [hone o ho, hone o' ho']

theorem RowOk.jsonForm_eq {row : RunRow} {response : RuntimeResponse} (h : RowOk row)
    (hresponse : row.response = some response) : row.response = some response.jsonForm := by
  rw [hresponse, h.jsonForm response hresponse]

theorem durableResponse_some {record : RunRecord} {response : RuntimeResponse}
    (h : durableResponse (some record) = some response) :
    record.status = .succeeded ∧ record.response = some response := by
  unfold durableResponse at h
  dsimp only at h
  split at h
  · next hs => exact ⟨hs, h⟩
  · exact absurd h (by simp)

/-- The row behind the answer of an invocation that has ended. -/
theorem Ended.answered {emit : Bool} {response : RuntimeResponse}
    (hasked : (c.world.kind p).asked = some (agentId, key, some (rt.requestHash request)))
    (h : Ended c p rt agentId request key emit (.ok response)) :
    ∃ row, AnsweredBy c.world p row response := by
  obtain ⟨w, L, s, k, pushed, hsame, hinv, hparked, hturn, hreconciled⟩ := h
  have hrows := hinv.rowsPriv rfl
  rw [← hsame.kind] at hasked
  -- a row of the run that the invocation names
  have hown : ∀ row ∈ w.db.runs, w.runId p = some row.id →
      (w.kind p).asked = some row.asked ∧ ∀ u, w.runId p = some u → row.id = u := by
    intro row hrow hid
    refine ⟨hrows.asked row hrow p ((hinv.proc p).runId _ hid), fun u hu => ?_⟩
    exact Option.some.inj (hid.symm.trans hu)
  suffices hrow : ∃ row, AnsweredBy w p row response by
    obtain ⟨row, h⟩ := hrow
    refine ⟨row, hsame.db ▸ h.mem, hsame.kind ▸ h.asked, h.status, h.response,
      hsame.runId ▸ h.own, ?_⟩
    cases h.origin with
    | read hform hsource => exact .read hform (hsame.cleanup ▸ hsame.source ▸ hsource)
    | own hrun hcleanup hsource hended hgives =>
      exact .own (hsame.runId ▸ hrun) (hsame.cleanup ▸ hcleanup) (hsame.source ▸ hsource) hended
        hgives
  -- what is read back from a row is in the form in which it is stored
  have hstoredForm : ∀ row ∈ w.db.runs, row.response = some response →
      response.jsonForm = response :=
    fun row hrow hresponse => (hinv.db.rows row hrow).jsonForm response hresponse
  cases hreconciled with
  | answered h =>
    cases h with
    | @fresh record rd _ hrun _ hstored hsource hended hmetadata =>
      obtain ⟨row, hrow, hid, hstatus, hresponse⟩ := hstored
      obtain ⟨hrowAsked, hrowOwn⟩ := hown row hrow (by rw [hturn.runId, hid]; exact hrun)
      exact ⟨row, hrow, hrowAsked, hstatus, hresponse, hrowOwn,
        .own (by rw [hturn.runId, hid]; exact hrun) hparked.cleanup
          (hturn.source.trans hsource) hended hmetadata⟩
    | replayed _ hrun hanswered hsource =>
      obtain ⟨row, hrow, hrowAsked, hstatus, hresponse⟩ := hanswered
      have hform := hstoredForm row hrow hresponse
      refine ⟨row, hrow, by rw [hasked, hrowAsked], hstatus, by rw [hresponse, hform],
        fun u hu => ?_, .read hform fun _ => hturn.source.trans hsource⟩
      rw [hturn.runId] at hu
      exact absurd (hrun.symm.trans hu) (by simp)
  | @recovered _ s record status _ hclean hsettled hresponse =>
    obtain ⟨hrow, -, hid⟩ := hrows.outcomes s _ p status hsettled hclean
    obtain ⟨hstatus, hstored⟩ := durableResponse_some hresponse
    obtain ⟨hrowAsked, hrowOwn⟩ := hown record hrow hid
    have hform := hstoredForm record hrow hstored
    refine ⟨record, hrow, hrowAsked, hstatus, by rw [hstored, hform], hrowOwn, .read hform ?_⟩
    exact fun hnone => absurd (hparked.cleanup.symm.trans hnone) (by simp)

/-- The row behind an answer. -/
theorem Reachable.answered (h : Reachable true c) {response : RuntimeResponse}
    (ha : HasAnswered c p response) : ∃ row, AnsweredBy c.world p row response := by
  obtain ⟨rt, agentId, request, key, emit, hasked, hended⟩ := h.ended ha
  exact hended.answered hasked

end Answers

end AgentRuntimeKit
