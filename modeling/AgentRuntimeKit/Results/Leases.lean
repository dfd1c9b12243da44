import AgentRuntimeKit.Protocol.Leases
import AgentRuntimeKit.Results.Runs

/-!
# Leases exclude concurrent work

Workers with any budgets invoke on any threads, in any order, and each stops working at its own
deadline, give or take the slack that every lease includes. Then no two runs of one thread are ever
worked on at the same time, however the slot of the thread came free: by a completion, a failure,
the end of a lease, or a recovery.

Working on a run (`Works`) is what another worker cannot see: the process has claimed the run, it is
still under its deadline, and no more than the slack beyond it. The clock of the deadline is that of
the database here; the slack is what the two may differ by.

The result assumes:

* `Timed` — the run of the system is recorded with the times at which its processes entered their
  deadlines;
* that store calls by others are those that name no run of their own.

A lease is taken after the deadline is entered, and it is longer than budget and slack together
(`timeout_lt_lease`). So who works on a run is inside its lease (`Works.leased`), nobody has let the
run expire, and the run is active (`Works.active`). A thread has one active run, by the state
machine of runs.

## Results

* `Works.leased`, `Works.active` — a run that is worked on is leased and active.
* `Timed.excludes`               — nobody else works on its thread.
-/

namespace AgentRuntimeKit

open Lib

/-- `p` works on the run `u`: it has claimed the run, it is still under its deadline, its
completion of the run is not committed, and its budget is not overrun by more than the slack. -/
structure Works (since : Pid → Time) (p : Pid) (u : Uuid) (w : World) : Prop where
  named : w.runId p = some u
  claimed : ∃ r ∈ w.db.runs, r.id = u
  armed : w.armed p = true
  uncleaned : w.cleanup p = none
  uncompleted : ∀ σ before, .commit σ before ∈ w.log → σ.client = p → σ.call.completes ≠ some u
  budget : ∃ timeout, (w.kind p).timeout = some timeout ∧
    w.clock ≤ since p + timeout + leaseSlack

/-- Who works on a run holds the thread, and nobody else works on it. -/
structure Excludes (since : Pid → Time) (w : World) : Prop where
  held : ∀ p u, Works since p u w → ∃ r ∈ w.db.runs, r.id = u ∧ r.status.isActive = true ∧
    ∃ e, r.leaseExpiresAt = some e ∧ w.clock < e
  alone : ∀ p u q v, Works since p u w → Works since q v w → ∀ r ∈ w.db.runs, ∀ r' ∈ w.db.runs,
    r.id = u → r'.id = v → r.threadId = r'.threadId → p = q ∧ u = v

section Exclusion

variable {clock : Time} {since : Pid → Time} {c : Cfg} {p : Pid} {u : Uuid}

/-- The lease is longer than the budget and the slack together. -/
theorem Kind.timeout_lt_lease {κ : Kind} {timeout : Time} (h : κ.timeout = some timeout) :
    ∃ lease, κ.lease = some lease ∧ timeout + leaseSlack < lease := by
  have hlt : ∀ rt : Runtime, rt.timeout + leaseSlack < rt.lease := by
    intro rt
    have hpos := rt.validTimeouts.2
    unfold Runtime.lease
    exact Nat.add_lt_add_right (Nat.lt_add_of_pos_right hpos) _
  cases κ with
  | task t =>
    cases t with
    | invoke rt =>
      rw [← Option.some.inj h]
      exact ⟨rt.lease, rfl, hlt rt⟩
    | stream rt =>
      rw [← Option.some.inj h]
      exact ⟨rt.lease, rfl, hlt rt⟩
    | call c => exact absurd h (by simp [Kind.timeout])
  | _ => exact absurd h (by simp [Kind.timeout])

/-- The lease of a run that is worked on is not over. -/
theorem Works.leased (h : Works since p u c.world) (hc : Timed clock since c) {r : RunRow}
    (hr : r ∈ c.world.db.runs) (hid : r.id = u) :
    ∃ e, r.leaseExpiresAt = some e ∧ c.world.clock < e := by
  obtain ⟨timeout, htimeout, hbudget⟩ := h.budget
  obtain ⟨lease, hlease, hlt⟩ := Kind.timeout_lt_lease htimeout
  have hleased := hc.allLeased p lease h.armed hlease
  have hmint : c.world.mint r.id = some p := (hc.reachable.inv.proc p).runId r.id (hid ▸ h.named)
  obtain ⟨e, he, hle⟩ := hleased.rows r hr hmint
  refine ⟨e, he, ?_⟩
  have hsum : since p + timeout + leaseSlack < since p + lease := by
    rw [Nat.add_assoc]
    exact Nat.add_lt_add_left hlt _
  exact Nat.lt_of_le_of_lt hbudget (Nat.lt_of_lt_of_le hsum hle)

/-- A run that is worked on is active. -/
theorem Works.active (h : Works since p u c.world) (hc : Timed clock since c) {r : RunRow}
    (hr : r ∈ c.world.db.runs) (hid : r.id = u) : r.status.isActive = true := by
  have hmint : c.world.mint r.id = some p := (hc.reachable.inv.proc p).runId r.id (hid ▸ h.named)
  rcases hc.reachable.ends hr hmint h.uncleaned with hactive | ⟨e, he, hle⟩ |
    ⟨σ, before, hlog, hclient, hcompletes⟩
  · exact hactive
  · obtain ⟨e', he', hlt⟩ := h.leased hc hr hid
    rw [he] at he'
    rw [← Option.some.inj he'] at hlt
    exact absurd hle (Nat.not_le_of_lt hlt)
  · rw [hid] at hcompletes
    exact absurd hcompletes (h.uncompleted σ before hlog hclient)

/-- **Leases exclude concurrent work**: who works on a run is inside its lease, and two who work on
runs of one thread are one process with one run. -/
theorem Timed.excludes (h : Timed clock since c) : Excludes since c.world where
  held p u hp := by
    obtain ⟨r, hr, hid⟩ := hp.claimed
    exact ⟨r, hr, hid, hp.active h hr hid, hp.leased h hr hid⟩
  alone p u q v hp hq r hr r' hr' hid hid' hthread := by
    have hsame : r = r' := h.reachable.inv.db.unique_active hr hr' hthread (hp.active h hr hid)
      (hq.active h hr' hid')
    have huv : u = v := by
      rw [← hid, ← hid', hsame]
    have hmint := (h.reachable.inv.proc p).runId u hp.named
    rw [huv, (h.reachable.inv.proc q).runId v hq.named] at hmint
    exact ⟨(Option.some.inj hmint).symm, huv⟩

end Exclusion

-- ---------------------------------------------------------------------------
-- A sample run
-- ---------------------------------------------------------------------------

/-- When deadlines were entered along a schedule. -/
def enteredAlong (since : Pid → Time) (c : Cfg) : List (Move Choice Env) → Pid → Time
  | [] => since
  | mv :: rest =>
    match machine.step c mv with
    | some c' => enteredAlong (entered since c mv) c' rest
    | none => since

theorem Timed.along {clock : Time} {since : Pid → Time} {c c' : Cfg} {mvs : List (Move Choice Env)}
    (h : Timed clock since c) (hmvs : mvs.all isRuntimeMove = true)
    (hrun : machine.run c mvs = some c') : Timed clock (enteredAlong since c mvs) c' := by
  induction mvs generalizing c since with
  | nil =>
    rw [Machine.run, Option.some.injEq] at hrun
    exact hrun ▸ h
  | cons mv rest ih =>
    rw [List.all_cons, Bool.and_eq_true] at hmvs
    rw [Machine.run] at hrun
    rw [enteredAlong]
    cases hs : machine.step c mv with
    | none =>
      rw [hs] at hrun
      exact absurd hrun (by simp)
    | some c₁ =>
      rw [hs] at hrun
      exact ih (h.move (legal_of_isRuntimeMove hmvs.1 c) hs) hmvs.2 hrun

namespace Sample

/-- Another worker, with budgets of its own, and its request on the thread of the first one. -/
def other : Runtime :=
  { runtime with timeout := 60000000, cleanupTimeout := 1000000, validTimeouts := by decide }

def second : RuntimeRequest := { request with requestId := 21, threadId := some 100 }

/-- The first worker stops responding inside its turn. When its lease is over, the second one
takes the thread and comes to its first hook. -/
def takeover : List (Move Choice Env) :=
  .env (.start 1 (.invoke runtime "agent" request (some "key"))) :: ok 1 1 ++
    .run 1 (.uuid 30) :: ok 1 2 ++ .run 1 (.uuid 100) :: ok 1 4 ++ .run 1 (.uuid 10) ::
    ok 1 15 ++ .env (.tick 40000000) ::
  .env (.start 2 (.invoke other "agent" second none)) :: ok 2 1 ++
    .run 2 (.uuid 31) :: ok 2 2 ++ .run 2 (.uuid 11) :: ok 2 17

set_option maxRecDepth 8000 in
/-- Where `takeover` ends. -/
def taken : Cfg := (machine.run (Cfg.initial 0) takeover).get (by decide)

/-- When the deadlines of `takeover` were entered. -/
def takenSince : Pid → Time := enteredAlong (fun _ => 0) (Cfg.initial 0) takeover

set_option maxRecDepth 8000 in
theorem works_taken : Works takenSince 2 11 taken.world where
  named := rfl
  claimed := by decide
  armed := rfl
  uncleaned := rfl
  uncompleted σ before hlog _ hcompletes := by
    have hnone : ∀ e ∈ taken.world.log, e.completes = none := by decide
    have hcommit : (Event.commit σ before).completes = none := hnone _ hlog
    exact absurd (hcommit.symm.trans hcompletes) (by simp)
  budget := ⟨60000000, rfl, by decide⟩

end Sample

set_option maxRecDepth 8000 in
/-- The second worker works on its run, and the run of the first one has failed. -/
theorem Sample.excludes_taken : Works Sample.takenSince 2 11 Sample.taken.world ∧
    Sample.taken.world.db.runs.map RunRow.status = [.failed, .running] ∧
    Excludes Sample.takenSince Sample.taken.world :=
  ⟨Sample.works_taken, by decide,
    (Timed.start.along (by decide) (Option.some_get _).symm).excludes⟩

end AgentRuntimeKit
