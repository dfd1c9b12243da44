import AgentRuntimeKit.Results.Idempotency

/-!
# Outcomes and rows

Once an invocation and the clean-up it may have started have both ended, its outcome and the row of
its own run agree, wherever faults struck: before a commit, at a lost acknowledgment, by the
deadline, by cancellation, or again during the clean-up.

`CleanedUp` says what is assumed, and nothing else is: both have ended, the call of
`fail_if_running` has succeeded or found no row, and no transaction of the invocation was still
under way when that call began. A row belongs to the invocation that drew its identifier, so that
"its own" needs no name that the invocation might have dropped.

`Ended` holds what the invocation knew when it ended; each clause is read off it by cases on how it
ended (`Reconciled`). Where a clean-up was started, the outcome of the clean-up tells which row it
has left (`OutcomeOk`), and where none was, the completion was acknowledged.

What is returned is the response of the row in its JSON form. It is that very response exactly
where the metadata that the invoker returned is lossless JSON, or where the invocation has read the
row itself, after a clean-up.

## Results

* `Reachable.agrees` — outcome and row agree, and the response is the very one of the row if and
  only if the metadata of an answer from the invoker is lossless JSON.
* `Sample.tupled_disagrees` — a tuple in the metadata.
-/

namespace AgentRuntimeKit

open Lib

/-- The invocation of `p` and its clean-up have ended: the call of `fail_if_running` succeeded
or found no row, and no transaction of `p` was under way when it began. -/
structure CleanedUp (c : Cfg) (p : Pid) : Prop where
  ended : ∃ r, c.procs p = some (.done r)
  settled : ∀ s, c.world.cleanup p = some s →
    ∃ o, c.world.settled s = some o ∧ o ≠ .unavailable
  resolved : c.world.premature p = false

/-- How the outcome of the invocation `p` and the rows agree, in the JSON form of the response. A
row is its own if it drew the identifier of the run. -/
structure AgreesInForm (c : Cfg) (p : Pid) : Prop where
  /-- The row is absent or terminal. -/
  terminal : ∀ row ∈ c.world.db.runs, c.world.mint row.id = some p → row.status.isActive = false
  /-- An answer of its own run is, in its JSON form, the response of that row. -/
  form : ∀ response, HasAnswered c p response → ∀ u, c.world.runId p = some u →
    ∃ row ∈ c.world.db.runs, row.id = u ∧ c.world.mint u = some p ∧ row.status = .succeeded ∧
      row.response = some response.jsonForm
  /-- An invocation that names no run has no row. -/
  replay : c.world.runId p = none → ∀ row ∈ c.world.db.runs, c.world.mint row.id ≠ some p
  exception : ∀ e, HasRaised c p e → e.isException = true → ∀ row ∈ c.world.db.runs,
    c.world.mint row.id = some p → row.status = .failed ∨
      (row.status = .blocked ∧ ∃ message, e = .kit .guardrailBlocked message)
  /-- Its clean-up changes no row of anybody else. -/
  spared : ∀ σ before status, .commit σ before ∈ c.world.log →
    c.world.kind σ.client = .cleanup p status → ∀ row ∈ before.runs,
      c.world.mint row.id ≠ some p → row ∈ (before.after σ.writes).runs

/-- How they agree, with the very response that was returned. -/
structure Agrees (c : Cfg) (p : Pid) : Prop extends AgreesInForm c p where
  answer : ∀ response, HasAnswered c p response → ∀ u, c.world.runId p = some u →
    ∃ row ∈ c.world.db.runs, row.id = u ∧ c.world.mint u = some p ∧ row.status = .succeeded ∧
      row.response = some response

section Outcomes

variable {c : Cfg} {p : Pid} {rt : Runtime} {agentId : String} {request : RuntimeRequest}
  {key : Option String} {emit : Bool}

/-- How the invocation of an ended call ended: in what it has raised, if anything. -/
theorem Reachable.ended_task (h : Reachable true c)
    (hinvocation : (c.world.kind p).isInvocation = true) {r : Except Exn Answer}
    (hp : c.procs p = some (.done r)) : ∃ rt agentId request key emit outcome,
      Ended c p rt agentId request key emit outcome ∧ ∀ e, HasRaised c p e →
        outcome = .error e := by
  cases hkind : c.world.kind p with
  | task t =>
    cases t with
    | call c' =>
      rw [hkind] at hinvocation
      exact Bool.noConfusion hinvocation
    | invoke rt agentId request key =>
      obtain ⟨outcome, hr, hended⟩ := h.ended_invoke hkind hp
      refine ⟨rt, agentId, request, key, false, outcome, hended, fun e he => ?_⟩
      unfold HasRaised at he
      rw [hkind] at he
      have hdone : r = .error e := Prog.done.inj (Option.some.inj (hp.symm.trans he))
      cases outcome with
      | ok response => exact absurd (hr.symm.trans hdone) (by simp [Except.map])
      | error e' =>
        have heq : e' = e := by simpa [Except.map] using hr.symm.trans hdone
        rw [heq]
    | stream rt agentId request key =>
      have hpost := h.post hp
      unfold PostOf at hpost
      rw [hkind] at hpost
      obtain ⟨L, s, k, outcome, items, ⟨hparked, hturn, hreconciled⟩, htail⟩ := hpost
      rw [← hkind] at hparked
      refine ⟨rt, agentId, request, key, true, outcome,
        ⟨c.world, L, s, k, _, .refl _, h.inv, hparked, hturn, hreconciled⟩, fun e he => ?_⟩
      unfold HasRaised at he
      rw [hkind] at he
      replace he : .failure e ∈ (c.world.stream p).pushed := he
      rw [hturn.pushed] at he
      rcases List.mem_append.mp he with he | he
      · exact Bool.noConfusion (hreconciled.inner _ he)
      · exact failure_mem_marks (htail.1.subset he)
  | _ =>
    rw [hkind] at hinvocation
    exact Bool.noConfusion hinvocation

/-- What a clean-up that found its row, or none, leaves: every row of the invocation is
terminal. -/
theorem OutcomeOk.terminal {w : World} {o : SettleOutcome} (h : OutcomeOk w p o)
    (hinv : Inv true w) (ho : o ≠ .unavailable) (hresolved : w.premature p = false) {row : RunRow}
    (hrow : row ∈ w.db.runs) (hmint : w.mint row.id = some p) : o = .settled row ∧
      row.status.isActive = false := by
  obtain ⟨q, hq, hid⟩ := (hinv.rowsPriv rfl).minted row hrow
  rw [hmint] at hq
  rw [← Option.some.inj hq] at hid
  cases o with
  | settled record =>
    obtain ⟨hrecord, hterminal, hid'⟩ := h
    have hsame : record = row :=
      hinv.db.unique_id hrecord hrow (Option.some.inj (hid'.symm.trans hid))
    rw [← hsame]
    exact ⟨rfl, hterminal⟩
  | notFound => exact absurd hid ((h hresolved).2 row hrow)
  | unavailable => exact absurd rfl ho

/-- An invocation that names no run has no row. -/
theorem Inv.unnamed {w : World} (hinv : Inv true w) (hrun : w.runId p = none) :
    ∀ row ∈ w.db.runs, w.mint row.id ≠ some p := by
  intro row hrow hmint
  obtain ⟨q, hq, hid⟩ := (hinv.rowsPriv rfl).minted row hrow
  rw [hmint] at hq
  rw [← Option.some.inj hq, hrun] at hid
  exact absurd hid (by simp)

/-- What the clean-up of an ended invocation settled. -/
theorem Ended.settled {w : World} {status : RunStatus} {s : Pid} (hinv : Inv true w)
    (hsame : SameTables c.world w) (hclean : CleanedUp c p)
    (hcleanup : w.cleanup p = some s) (hkind : CleanedBy p s status w) :
    ∃ o, w.settled s = some o ∧ o ≠ .unavailable ∧ OutcomeOk w p o := by
  rw [hsame.cleanup] at hcleanup
  obtain ⟨o, ho, hfound⟩ := hclean.settled s hcleanup
  rw [← hsame.settled] at ho
  exact ⟨o, ho, hfound, (hinv.rowsPriv rfl).outcomes s o p status ho hkind⟩

theorem Ended.terminal {outcome : Except Exn RuntimeResponse}
    (h : Ended c p rt agentId request key emit outcome) (hclean : CleanedUp c p) {row : RunRow}
    (hrow : row ∈ c.world.db.runs) (hmint : c.world.mint row.id = some p) :
    row.status.isActive = false := by
  obtain ⟨w, L, s, k, pushed, hsame, hinv, hparked, hturn, hreconciled⟩ := h
  rw [← hsame.db] at hrow
  rw [← hsame.mint] at hmint
  have hresolved : w.premature p = false := by rw [hsame.premature, hclean.resolved]
  -- where a clean-up has started, it has found the row
  have hfound : ∀ {s' : Pid} {status : RunStatus}, w.cleanup p = some s' →
      CleanedBy p s' status w → row.status.isActive = false := by
    intro s' status hcleanup hkind
    obtain ⟨o, -, hne, hok⟩ := Ended.settled hinv hsame hclean hcleanup hkind
    exact (hok.terminal hinv hne hresolved hrow hmint).2
  cases hreconciled with
  | answered h =>
    cases h with
    | @fresh record rd _ hrun _ hstored =>
      obtain ⟨row', hrow', hid, hstatus, -⟩ := hstored
      obtain ⟨q, hq, hnamed⟩ := (hinv.rowsPriv rfl).minted row hrow
      rw [hmint] at hq
      rw [← Option.some.inj hq, hturn.runId] at hnamed
      have heq : row' = row := hinv.db.unique_id hrow' hrow
        (hid.trans (Option.some.inj (hrun.symm.trans hnamed)))
      rw [← heq, hstatus]
      rfl
    | replayed _ hrun => exact absurd hmint (hinv.unnamed (hturn.runId.trans hrun) row hrow)
  | unnamed _ hrun => exact absurd hmint (hinv.unnamed (hturn.runId.trans hrun) row hrow)
  | recovered _ hkind => exact hfound hparked.cleanup hkind
  | failed _ hkind => exact hfound hparked.cleanup hkind
  | cancelled _ hkind => exact hfound hparked.cleanup hkind

theorem failureStatus_blocked {e : Exn} (h : failureStatus e = .blocked) :
    ∃ message, e = .kit .guardrailBlocked message := by
  unfold failureStatus at h
  split at h
  · exact ⟨_, rfl⟩
  · exact RunStatus.noConfusion h

/-- A row is blocked only by the clean-up of a blocked invocation. -/
theorem RowsPriv.blocked_by {w : World} (h : RowsPriv w) {row : RunRow} (hrow : row ∈ w.db.runs)
    (hstatus : row.status = .blocked) (hmint : w.mint row.id = some p) {s : Pid}
    (hcleanup : w.cleanup p = some s) {status : RunStatus} (hkind : CleanedBy p s status w) :
    status = .blocked := by
  obtain ⟨q, s', hq, hs', hblocked⟩ := h.blocked row hrow hstatus
  rw [hmint] at hq
  rw [← Option.some.inj hq, hcleanup] at hs'
  rw [← Option.some.inj hs', show w.kind s = _ from hkind] at hblocked
  injection hblocked

theorem Ended.exception {e : Exn} (h : Ended c p rt agentId request key emit (.error e))
    (hclean : CleanedUp c p) (he : e.isException = true) {row : RunRow}
    (hrow : row ∈ c.world.db.runs) (hmint : c.world.mint row.id = some p) :
    row.status = .failed ∨
      (row.status = .blocked ∧ ∃ message, e = .kit .guardrailBlocked message) := by
  have hterminal := h.terminal hclean hrow hmint
  obtain ⟨w, L, s, k, pushed, hsame, hinv, hparked, hturn, hreconciled⟩ := h
  rw [← hsame.db] at hrow
  rw [← hsame.mint] at hmint
  have hresolved : w.premature p = false := by rw [hsame.premature, hclean.resolved]
  cases hreconciled with
  | unnamed _ hrun => exact absurd hmint (hinv.unnamed (hturn.runId.trans hrun) row hrow)
  | cancelled _ _ hcancelled =>
    rw [he] at hcancelled
    exact Bool.noConfusion hcancelled
  | @failed _ s o _ hkind hsettled hnone =>
    obtain ⟨o', ho', hne, hok⟩ := Ended.settled hinv hsame hclean hparked.cleanup hkind
    obtain rfl : o = o' :=
      Option.some.inj ((show w.settled s = some o from hsettled).symm.trans ho')
    obtain ⟨rfl, -⟩ := hok.terminal hinv hne hresolved hrow hmint
    cases hstatus : row.status with
    | accepted =>
      rw [hstatus] at hterminal
      exact Bool.noConfusion hterminal
    | running =>
      rw [hstatus] at hterminal
      exact Bool.noConfusion hterminal
    | failed => exact Or.inl rfl
    | blocked =>
      refine Or.inr ⟨rfl, failureStatus_blocked ?_⟩
      exact (hinv.rowsPriv rfl).blocked_by hrow hstatus hmint hparked.cleanup hkind
    | succeeded =>
      -- a row that has succeeded would have been returned
      have hresponse := (hinv.db.rows row hrow).response.mpr hstatus
      obtain ⟨response, hsome⟩ := Option.isSome_iff_exists.mp hresponse
      have hdurable : durableResponse (some row) = some response := by
        unfold durableResponse
        dsimp only
        rw [if_pos hstatus, hsome]
      exact absurd (hnone.symm.trans hdurable) (by simp)

/-- Outcome and row agree, whatever the invoker returned. -/
theorem Reachable.agreesInForm (h : Reachable true c)
    (hinvocation : (c.world.kind p).isInvocation = true) (hclean : CleanedUp c p) :
    AgreesInForm c p := by
  obtain ⟨r, hp⟩ := hclean.ended
  obtain ⟨rt, agentId, request, key, emit, outcome, hended, hraised⟩ := h.ended_task hinvocation hp
  constructor
  -- terminal
  · exact fun row hrow hmint => hended.terminal hclean hrow hmint
  -- form
  · intro response ha u hu
    obtain ⟨row, hrow⟩ := h.answered ha
    exact ⟨row, hrow.mem, hrow.own u hu, (h.inv.proc p).runId u hu, hrow.status, hrow.response⟩
  -- replay
  · exact fun hrun => h.inv.unnamed hrun
  -- exception
  · intro e he hexception row hrow hmint
    have houtcome := hraised e he
    rw [houtcome] at hended
    exact hended.exception hclean hexception hrow hmint
  -- spared
  · exact fun σ before status hmem hkind row hrow hmint =>
      (h.inv.rowsPriv rfl).spared σ before p status hmem hkind row hrow hmint

/-- **Outcome reconciliation.** An ended invocation whose clean-up has ended agrees with the row of
its run, up to the JSON form of the response; and it has returned the very response of the row if
and only if the metadata is lossless JSON where it answered with what its invoker returned. -/
theorem Reachable.agrees (h : Reachable true c)
    (hinvocation : (c.world.kind p).isInvocation = true) (hclean : CleanedUp c p) :
    AgreesInForm c p ∧ (Agrees c p ↔
      ∀ metadata, AnsweredWith c p metadata → metadata.isLossless = true) := by
  have hform := h.agreesInForm hinvocation hclean
  refine ⟨hform, ?_, ?_⟩
  · intro hagrees metadata hw
    obtain ⟨response, r, ha, hr, hrun, hlossless⟩ := hw.origin h
    obtain ⟨row, hrow, hid, -, -, hexact⟩ := hagrees.answer response ha r.id hrun
    have hsame : row = r := h.inv.db.unique_id hrow hr.mem hid
    exact hlossless (hsame ▸ hexact)
  · intro hlossless
    refine ⟨hform, fun response ha u hu => ?_⟩
    obtain ⟨row, hrow⟩ := h.answered ha
    exact ⟨row, hrow.mem, hrow.own u hu, (h.inv.proc p).runId u hu, hrow.status,
      hrow.exact ha hlossless⟩

end Outcomes

-- ---------------------------------------------------------------------------
-- A lost acknowledgment
-- ---------------------------------------------------------------------------

namespace Sample

/-- The run of `tupledInvocation` up to the commit of `complete`, which takes effect but is not
acknowledged. The clean-up finds the run succeeded, and the invocation answers after all. -/
def lostInvocation : List (Move Choice Env) :=
  .env (.start 1 (.invoke runtime "agent" request (some "key"))) :: ok 1 1 ++
    .run 1 (.uuid 30) :: ok 1 2 ++ .run 1 (.uuid 100) :: ok 1 4 ++ .run 1 (.uuid 10) ::
    ok 1 19 ++ .run 1 (.output tupledOutput) :: ok 1 1 ++ .run 1 (.trace none) ::
    ok 1 10 ++ .run 1 (.lost (.py .operationalError "connection lost")) :: ok 1 1 ++
  -- `_record_failure` and the clean-up
    .run 1 (.flag false) :: ok 1 1 ++ .run 1 (.pid 3) :: ok 3 8 ++ .run 3 (.flag false) ::
    ok 3 1 ++ ok 1 1

set_option maxRecDepth 8000 in
/-- Where `lostInvocation` ends. -/
def recovered : Cfg := (machine.run (Cfg.initial 0) lostInvocation).get (by decide)

theorem reachable_recovered : Reachable true recovered :=
  .of_schedule (by decide) (Option.some_get _).symm

set_option maxRecDepth 8000 in
/-- What the clean-up has left. -/
theorem cleanedUp_recovered : CleanedUp recovered 1 := by
  refine ⟨⟨_, rfl⟩, fun s hs => ?_, rfl⟩
  have hcleanup : recovered.world.cleanup 1 = some 3 := rfl
  obtain rfl : 3 = s := Option.some.inj (hcleanup.symm.trans hs)
  exact ⟨_, rfl, fun h => SettleOutcome.noConfusion h⟩

set_option maxRecDepth 8000 in
theorem cleanedUp_tupledInvoked : CleanedUp tupledInvoked 1 := by
  refine ⟨⟨_, rfl⟩, fun s hs => ?_, rfl⟩
  have hcleanup : tupledInvoked.world.cleanup 1 = none := rfl
  exact absurd (hcleanup.symm.trans hs) (by simp)

end Sample

set_option maxRecDepth 8000 in
/-- The invocation that lost its acknowledgment answers with what is stored: the list, where the
invoker returned a tuple. -/
theorem Sample.agrees_recovered : Sample.recovered.world.cleanup 1 = some 3 ∧
    (∃ r, HasAnswered Sample.recovered 1 r ∧ r.metadata = Sample.listed) ∧
      Agrees Sample.recovered 1 := by
  have hcleanup : Sample.recovered.world.cleanup 1 = some 3 := rfl
  refine ⟨hcleanup, ⟨_, rfl, rfl⟩, ?_⟩
  refine (Sample.reachable_recovered.agrees rfl Sample.cleanedUp_recovered).2.mpr ?_
  exact fun metadata hw => absurd (hcleanup.symm.trans hw.cleanup) (by simp)

set_option maxRecDepth 8000 in
/-- Without a fault the tuple is returned, and the row holds a list. -/
theorem Sample.tupled_disagrees : Reachable true Sample.tupledInvoked ∧
    CleanedUp Sample.tupledInvoked 1 ∧ ¬Agrees Sample.tupledInvoked 1 := by
  have hreach := Sample.reachable_tupledInvoked true
  refine ⟨hreach, Sample.cleanedUp_tupledInvoked, fun hagrees => ?_⟩
  obtain ⟨row, hrow, hid, -, -, hexact⟩ :=
    hagrees.answer _ Sample.answered_tupledInvoked.1 10 rfl
  obtain ⟨r, hr⟩ := hreach.answered Sample.answered_tupledInvoked.1
  have hown : r.id = 10 := hr.own 10 rfl
  have hsame : row = r := hreach.inv.db.unique_id hrow hr.mem (hid.trans hown.symm)
  have hform := Option.some.inj ((hsame ▸ hexact).symm.trans hr.response)
  have htuple : Sample.tupled.isLossless = true :=
    RuntimeResponse.jsonForm_eq_self_iff.mp hform.symm
  exact absurd htuple (by decide)

end AgentRuntimeKit
