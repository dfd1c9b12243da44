import AgentRuntimeKit.Protocol.ScopedTasks

/-!
# How long a lease lasts

An invocation enters its deadline before it claims, and the lease of its claim is counted from a
reading of the database clock inside the claim. So whatever it inserts is leased from the deadline
on for the time-out, the clean-up and the slack together, however long the claim has waited.

`Timed` is a run together with the times at which its processes entered their deadlines.

## Results

* `Timed.leasedFrom` — the run of an invocation under its deadline is leased that long.
* `Reachable.ends`   — how a run ends before the clean-up of its invocation starts.
-/

namespace AgentRuntimeKit

open Lib

-- ---------------------------------------------------------------------------
-- Deadlines
-- ---------------------------------------------------------------------------

/-- The budget of the work of an invocation. -/
def Kind.timeout : Kind → Option Time
  | .task (.invoke rt _ _ _) | .task (.stream rt _ _ _) => some rt.timeout
  | _ => none

/-- When each process entered its deadline last, after one more move. -/
def entered (since : Pid → Time) (c : Cfg) : Move Choice Env → Pid → Time
  | .run p _ =>
    match c.procs p with
    | some (.op .arm _) => Function.update since p c.world.clock
    | _ => since
  | .env _ => since

/-- A run, and when its processes entered their deadlines last. -/
inductive Timed (clock : Time) : (Pid → Time) → Cfg → Prop
  | start : Timed clock (fun _ => clock) (Cfg.initial clock)
  | move {since : Pid → Time} {c c' : Cfg} {mv : Move Choice Env} (h : Timed clock since c)
      (hmv : Legal true c mv) (hs : machine.step c mv = some c') :
      Timed clock (entered since c mv) c'

/-- The lease of the row lasts until `t` or longer. -/
def RunRow.LeasedUntil (row : RunRow) (t : Time) : Prop :=
  ∃ e, row.leaseExpiresAt = some e ∧ t ≤ e

/-- `p` has inserted, and inserts, only what is leased until `t + lease`. -/
structure LeasedFrom (p : Pid) (t lease : Time) (w : World) : Prop where
  clock : t ≤ w.clock
  begun : ∀ σ, w.session p = some σ → t ≤ σ.begun
  writes : ∀ q σ row, w.session q = some σ → σ.client = p → .insertRun row ∈ σ.writes →
    row.LeasedUntil (t + lease)
  rows : ∀ r ∈ w.db.runs, w.mint r.id = some p → r.LeasedUntil (t + lease)

/-- Every invocation that is under its deadline. -/
def AllLeased (since : Pid → Time) (w : World) : Prop :=
  ∀ p lease, w.armed p = true → (w.kind p).lease = some lease → LeasedFrom p (since p) lease w

section Leases

variable {w w' : World} {p q : Pid} {t lease : Time} {σ : Session}

theorem RunRow.LeasedUntil.sameRun {a b : RunRow} (h : a.LeasedUntil t) (hsame : SameRun a b) :
    b.LeasedUntil t := by
  obtain ⟨e, he, hle⟩ := h
  exact ⟨e, hsame.leaseExpiresAt.trans he, hle⟩

theorem Kind.lease_started {κ : Kind} (h : κ.lease = some lease) :
    κ ≠ .idle ∧ (∀ client, κ ≠ .resolver client) ∧ κ.isInvocation = true ∧
      ∃ name, κ.namespace_ = some name := by
  cases κ with
  | task t =>
    cases t with
    | invoke rt => exact ⟨Kind.noConfusion, fun _ => Kind.noConfusion, rfl, _, rfl⟩
    | stream rt => exact ⟨Kind.noConfusion, fun _ => Kind.noConfusion, rfl, _, rfl⟩
    | call c => exact absurd h (by simp [Kind.lease])
  | _ => exact absurd h (by simp [Kind.lease])

-- ---------------------------------------------------------------------------
-- What a transaction writes to runs
-- ---------------------------------------------------------------------------

/-- A row that a transaction updates has been there. -/
theorem Staged.updates (h : Staged w q σ) {r : RunRow} (hr : .updateRun r ∈ σ.writes) :
    ∃ old ∈ w.db.runs, SameRun old r := by
  cases h with
  | nothing hwrites =>
    rw [hwrites] at hr
    exact absurd hr List.not_mem_nil
  | @update now old new hwrites hnow hold hlock hmove =>
    rw [hwrites] at hr
    obtain rfl := Write.updateRun.inj (List.mem_singleton.mp hr)
    exact ⟨old, hold, hmove.unmoved⟩
  | @insert args lease now freed row hcall hnow hwrites hfreed =>
    rw [hwrites] at hr
    rcases List.mem_append.mp hr with hr | hr
    · cases hfreed with
      | nothing => exact absurd hr List.not_mem_nil
      | @expired old new hold hlock hexpire =>
        obtain rfl := Write.updateRun.inj (List.mem_singleton.mp hr)
        have hmove : RowMove σ.call now old r := .expire hexpire
        exact ⟨old, hold, hmove.unmoved⟩
    · exact Write.noConfusion (List.mem_singleton.mp hr)
  | append hcall hwrites =>
    rw [hwrites] at hr
    exact Write.noConfusion (List.mem_singleton.mp hr)
  | @finish now old token messages response hcall hnow hwrites hold hlock howner hcheck =>
    rw [hwrites] at hr
    rcases List.mem_cons.mp hr with hr | hr
    · exact Write.noConfusion hr
    · obtain rfl := Write.updateRun.inj (List.mem_singleton.mp hr)
      have hmove : RowMove σ.call now old (completed old response now) :=
        .complete hcall howner hcheck
      exact ⟨old, hold, hmove.unmoved⟩
  | thread hcall hwrites =>
    rw [hwrites] at hr
    exact Write.noConfusion (List.mem_singleton.mp hr)

/-- A row that a transaction inserts is that of its claim. -/
theorem Staged.inserts (h : Staged w q σ) {r : RunRow} (hr : .insertRun r ∈ σ.writes) :
    ∃ args, σ.call = .claim args ∧ r.id = args.runId := by
  cases h with
  | nothing hwrites =>
    rw [hwrites] at hr
    exact absurd hr List.not_mem_nil
  | update hwrites =>
    rw [hwrites] at hr
    exact Write.noConfusion (List.mem_singleton.mp hr)
  | @insert args lease now freed row hcall hnow hwrites hfreed hrow =>
    rw [hwrites] at hr
    rcases List.mem_append.mp hr with hr | hr
    · cases hfreed with
      | nothing => exact absurd hr List.not_mem_nil
      | expired => exact Write.noConfusion (List.mem_singleton.mp hr)
    · obtain rfl := Write.insertRun.inj (List.mem_singleton.mp hr)
      exact ⟨args, hcall, by rw [hrow]; rfl⟩
  | append hcall hwrites =>
    rw [hwrites] at hr
    exact Write.noConfusion (List.mem_singleton.mp hr)
  | finish hcall hnow hwrites =>
    rw [hwrites] at hr
    rcases List.mem_cons.mp hr with hr | hr
    · exact Write.noConfusion hr
    · exact Write.noConfusion (List.mem_singleton.mp hr)
  | thread hcall hwrites =>
    rw [hwrites] at hr
    exact Write.noConfusion (List.mem_singleton.mp hr)

/-- Whoever inserts a row has drawn its identifier and named it. -/
theorem Staged.inserts_named (h : Staged w q σ) (hpriv : CallPriv w σ) {r : RunRow}
    (hr : .insertRun r ∈ σ.writes) :
    w.mint r.id = some σ.client ∧ w.runId σ.client = some r.id := by
  obtain ⟨args, hcall, hid⟩ := h.inserts hr
  obtain ⟨hmint, hrun, -⟩ := hpriv.claim args hcall
  rw [hid]
  exact ⟨hmint, hrun⟩

-- ---------------------------------------------------------------------------
-- One move
-- ---------------------------------------------------------------------------

/-- A process that enters its deadline has inserted nothing. -/
theorem LeasedFrom.entered (hinv : Inv true w) (hsession : w.session p = none)
    (hrun : w.runId p = none) : LeasedFrom p w.clock lease w where
  clock := Nat.le_refl _
  begun σ hσ := absurd (hsession.symm.trans hσ) (by simp)
  writes q σ row hσ hclient hrow := by
    have hok := (hinv.proc q).session σ hσ
    rcases hok.client with hself | ⟨-, -, hstaged⟩
    · rw [← hself, hclient] at hσ
      exact absurd (hsession.symm.trans hσ) (by simp)
    · have hnamed := (hstaged.inserts_named (hok.callPriv rfl) hrow).2
      rw [hclient, hrun] at hnamed
      exact absurd hnamed (by simp)
  rows r hr hmint := by
    obtain ⟨p', hmint', hrun'⟩ := (hinv.rowsPriv rfl).minted r hr
    rw [hmint] at hmint'
    rw [← Option.some.inj hmint', hrun] at hrun'
    exact absurd hrun' (by simp)

/-- The rows of `p` after a step. -/
theorem LeasedFrom.rows_step (h : LeasedFrom p t lease w) (hinv : Inv true w)
    (hevo : Evolution w w') {r : RunRow} (hr : r ∈ w'.db.runs) (hmint : w'.mint r.id = some p) :
    r.LeasedUntil (t + lease) := by
  have hold : ∀ old ∈ w.db.runs, SameRun old r → r.LeasedUntil (t + lease) := by
    intro old hold hsame
    obtain ⟨p', hmint', -⟩ := (hinv.rowsPriv rfl).minted old hold
    have hlater := hevo.mint _ _ hmint'
    rw [← hsame.id, hmint] at hlater
    rw [← Option.some.inj hlater] at hmint'
    exact (h.rows old hold hmint').sameRun hsame
  rcases hevo.tables with ⟨hsame, -⟩ | ⟨q, σ, hc⟩
  · exact hold r (hsame ▸ hr) (SameRun.refl r)
  · rw [hc.db] at hr
    rcases Db.mem_runs_after hr with hkept | hupdate | hinsert
    · exact hold r hkept (SameRun.refl r)
    · obtain ⟨old, hmem, hsame⟩ := hc.staged.updates hupdate
      exact hold old hmem hsame
    · have hok := (hinv.proc q).session σ hc.session
      have hnamed := (hc.staged.inserts_named (hok.callPriv rfl) hinsert).1
      have hclient := Option.some.inj ((hevo.mint _ _ hnamed).symm.trans hmint)
      exact h.writes q σ r hc.session hclient hinsert

/-- One operation of anybody. -/
theorem LeasedFrom.exec (h : LeasedFrom p t lease w) (hinv : Inv true w) (hevo : Evolution w w')
    (hlease : (w.kind p).lease = some lease) {o : Op} {c : Choice} {r : Except Exn (Res o)}
    {fs : Forks} (hx : exec q w o c = some (r, w', fs)) (ho : Confined q w o) :
    LeasedFrom p t lease w' := by
  obtain ⟨hstarted, hresolver, -, name, hname⟩ := Kind.lease_started hlease
  refine ⟨Nat.le_trans h.clock hevo.clock, fun σ hσ => ?_, fun q' σ row hσ hclient hrow => ?_,
    fun r hr hmint => h.rows_step hinv hevo hr hmint⟩
  · cases exec_sessions hx hσ with
    | kept h₀ => exact h.begun σ h₀
    | begun _ heq =>
      rw [heq]
      exact h.clock
    | @reading σ₀ hq h₀ heq =>
      rw [heq]
      exact h.begun σ₀ (hq ▸ h₀)
    | @flushed σ₀ x hq h₀ heq =>
      rw [heq]
      exact h.begun σ₀ (hq ▸ h₀)
    | handed _ hidle => exact absurd hidle hstarted
  · cases exec_sessions hx hσ with
    | kept h₀ => exact h.writes q' σ row h₀ hclient hrow
    | begun _ heq =>
      rw [heq] at hrow
      exact absurd hrow List.not_mem_nil
    | @reading σ₀ _ h₀ heq =>
      rw [heq] at hclient hrow
      exact h.writes q σ₀ row h₀ hclient hrow
    | @flushed σ₀ x _ h₀ heq hwrite =>
      rw [heq] at hclient hrow
      rcases List.mem_append.mp hrow with hrow | hrow
      · exact h.writes q σ₀ row h₀ hclient hrow
      · -- `q` inserts the row, so it is the client
        rw [← List.mem_singleton.mp hrow] at hwrite
        have hself : q = p := by
          rcases ((hinv.proc q).session σ₀ h₀).client with hself | ⟨hkind, -⟩
          · exact hself.symm.trans hclient
          · rw [ho.resolver _ _ hkind] at hwrite
            exact absurd hwrite (by simp)
        subst hself
        have hwithin := ho.within name (Or.inl hname)
        cases o with
        | insertRun new onConflict =>
          obtain ⟨e, he, hle⟩ := hwithin.2 σ₀ lease h₀ hlease
          have hbegun := h.begun σ₀ h₀
          rw [← Write.insertRun.inj (Option.some.inj hwrite)]
          exact ⟨e, he, Nat.le_trans (Nat.add_le_add_right hbegun lease) hle⟩
        | _ => exact absurd hwrite (by simp [Op.write?])
    | handed h₀ _ => exact h.writes q σ row h₀ hclient hrow

theorem LeasedFrom.env (h : LeasedFrom p t lease w) (hinv : Inv true w) (hevo : Evolution w w')
    {e : Env} {fs : Forks} (hx : env w e = some (w', fs)) : LeasedFrom p t lease w' := by
  obtain ⟨hsession, -⟩ := Scoped.env_frame hx
  refine ⟨Nat.le_trans h.clock hevo.clock, fun σ hσ => ?_, fun q σ row hσ => ?_,
    fun r hr hmint => h.rows_step hinv hevo hr hmint⟩
  · rw [hsession] at hσ
    exact h.begun σ hσ
  · rw [hsession] at hσ
    exact h.writes q σ row hσ

/-- The environment enters no deadline. -/
theorem env_armed {e : Env} {fs : Forks} (h : env w e = some (w', fs)) : w'.armed = w.armed := by
  cases e
  all_goals simp only [AgentRuntimeKit.env] at h
  all_goals repeat' split at h
  all_goals first
    | (obtain ⟨rfl, -⟩ : _ ∧ _ := by simpa only [Option.some.injEq, Prod.mk.injEq] using h
       rfl)
    | exact absurd h (by simp)

theorem exec_arm {c : Choice} {r : Except Exn Unit} {fs : Forks}
    (h : exec p w .arm c = some (r, w', fs)) :
    w' = { w with armed := Function.update w.armed p true } := by
  rcases exec_plain rfl h with hx | ⟨e, -, -, -, hmay⟩
  · obtain ⟨-, rfl, -⟩ : _ ∧ _ ∧ _ := by
      simpa only [execOk, answer, Option.some.injEq, Prod.mk.injEq] using hx.symm
    rfl
  · cases e <;> exact absurd hmay (by simp [Op.mayRaise, Op.suspends, Op.isStatement, Op.isForeign])

end Leases

-- ---------------------------------------------------------------------------
-- Every run
-- ---------------------------------------------------------------------------

section Runs

variable {clock : Time} {since : Pid → Time} {c c' : Cfg}

theorem Timed.reaches (h : Timed clock since c) :
    machine.Reaches (Legal true) (Cfg.initial clock) c := by
  induction h with
  | start => exact .refl
  | move _ hmv hs ih => exact ih.step hmv hs

theorem Timed.reachable (h : Timed clock since c) : Reachable true c := ⟨clock, h.reaches⟩

/-- Every run is one whose deadlines can be told. -/
theorem Reachable.timed (h : Reachable true c) : ∃ clock since, Timed clock since c := by
  obtain ⟨clock, hr⟩ := h
  refine ⟨clock, ?_⟩
  induction hr with
  | refl => exact ⟨_, .start⟩
  | step _ hmv hs ih =>
    obtain ⟨since, hc⟩ := ih
    exact ⟨_, hc.move hmv hs⟩

/-- One move keeps the leases of those who are under their deadline. -/
theorem AllLeased.move (h : AllLeased since c.world) (hc : Reachable true c)
    {mv : Move Choice Env} (hmv : Legal true c mv) (hs : machine.step c mv = some c') :
    AllLeased (entered since c mv) c'.world := by
  have hevo := hc.evolution hmv hs
  intro p lease harmed hlease
  -- who is under a deadline has been started before
  have hkept : c.world.armed p = true → (c.world.kind p).lease = some lease := by
    intro hbefore
    have hne : c.world.kind p ≠ .idle := by
      intro hidle
      exact absurd (hbefore.symm.trans ((hc.inv.proc p).idle hidle).armed) (by simp)
    rw [← hevo.kind p hne]
    exact hlease
  rcases Machine.step_cases hs with ⟨q, ch, o, k, r, fs, rfl, hq, hx, -⟩ | ⟨e, fs, rfl, hx, -⟩
  · have ho := hc.confined hq
    by_cases harm : p = q ∧ o = .arm
    · obtain ⟨rfl, rfl⟩ := harm
      have hw := exec_arm hx
      have hlease' : (c.world.kind p).lease = some lease := by
        rw [hw] at hlease
        exact hlease
      obtain ⟨-, -, hinvocation, name, hname⟩ := Kind.lease_started hlease'
      obtain ⟨hsession, hrun⟩ := ho.within name (Or.inl hname) hinvocation
      have hfresh : LeasedFrom p c.world.clock lease c.world :=
        LeasedFrom.entered hc.inv hsession hrun
      have hsince : entered since c (.run p ch) p = c.world.clock := by
        simp only [entered, hq, Function.update_self]
      rw [hsince]
      exact hfresh.exec hc.inv hevo hlease' hx ho
    · have hsince : entered since c (.run q ch) p = since p := by
        simp only [entered, hq]
        cases o
        case arm => exact Function.update_of_ne (fun hp => harm ⟨hp, rfl⟩) _ _
        all_goals rfl
      have hbefore : c.world.armed p = true := by
        have hframe := congrFun (exec_frame hx).armed p
        rw [harmed] at hframe
        by_cases hpq : p = q
        · subst hpq
          cases o
          case arm => exact absurd ⟨rfl, rfl⟩ harm
          case disarm =>
            cases r with
            | ok => exact absurd hframe (by simp)
            | error => exact hframe.symm
          all_goals exact hframe.symm
        · cases o
          case arm =>
            cases r with
            | ok => exact (hframe.trans (Function.update_of_ne hpq _ _)).symm
            | error => exact hframe.symm
          case disarm =>
            cases r with
            | ok => exact (hframe.trans (Function.update_of_ne hpq _ _)).symm
            | error => exact hframe.symm
          all_goals exact hframe.symm
      rw [hsince]
      exact (h p lease hbefore (hkept hbefore)).exec hc.inv hevo (hkept hbefore) hx ho
  · have hbefore : c.world.armed p = true := by
      rw [← congrFun (env_armed hx) p]
      exact harmed
    exact (h p lease hbefore (hkept hbefore)).env hc.inv hevo hx

/-- What an invocation has inserted is leased from its deadline on. -/
theorem Timed.allLeased (h : Timed clock since c) : AllLeased since c.world := by
  induction h with
  | start => exact fun p lease harmed => absurd harmed (by simp [Cfg.initial, World.initial])
  | move hc hmv hs ih => exact ih.move hc.reachable hmv hs

-- ---------------------------------------------------------------------------
-- How a run ends
-- ---------------------------------------------------------------------------

/-- The row has failed at the end of its lease or for the clean-up of its invocation. -/
def FailedFor (p : Pid) (r : RunRow) (w : World) : Prop :=
  (w.cleanup p).isSome = true ∨ ∃ e, r.leaseExpiresAt = some e ∧ e ≤ w.clock

/-- No row has failed for another reason. -/
def AllFailedFor (w : World) : Prop :=
  ∀ r ∈ w.db.runs, r.status = .failed → ∀ p, w.mint r.id = some p → FailedFor p r w

theorem FailedFor.later {w w' : World} {p : Pid} {r : RunRow} (h : FailedFor p r w)
    (hevo : Evolution w w') : FailedFor p r w' := by
  rcases h with h | ⟨e, he, hle⟩
  · obtain ⟨s, hs⟩ := Option.isSome_iff_exists.mp h
    exact Or.inl (by rw [hevo.cleanup p s hs]; rfl)
  · exact Or.inr ⟨e, he, Nat.le_trans hle hevo.clock⟩

/-- A transaction of the runtime lets a row fail for one of these reasons. -/
theorem Moved.failedFor {w : World} {q : Pid} {σ : Session} {old new : RunRow} {p : Pid}
    (hinv : Inv true w) (hσ : w.session q = some σ) (h : Moved w q σ old new)
    (hfailed : new.status = .failed) (hmint : w.mint old.id = some p) : FailedFor p new w := by
  obtain ⟨now, hnow, -, hmove⟩ := h
  have hok := (hinv.proc q).session σ hσ
  have hpriv := hok.callPriv rfl
  have hclock := (hok.now now hnow).2
  cases hmove with
  | expire he =>
    obtain ⟨-, hexpired, rfl⟩ := expire_some he
    unfold Db.leaseExpired at hexpired
    split at hexpired
    · next e hlease => exact Or.inr ⟨e, hlease, Nat.le_trans (of_decide_eq_true hexpired) hclock⟩
    · exact absurd hexpired Bool.false_ne_true
  | @transition token status response code hcall =>
    have hrunning := hpriv.transition _ _ _ _ _ hcall
    have hstatus : status = .failed := hfailed
    rw [hrunning] at hstatus
    exact absurd hstatus (by decide)
  | complete => exact absurd hfailed (by simp [completed])
  | @settle token status code hcall =>
    obtain ⟨p', hkind⟩ := hpriv.settle _ _ _ _ hcall
    obtain ⟨runId, token', code', hcall', hminted⟩ := hpriv.cleanup p' status hkind
    rw [hcall] at hcall'
    obtain ⟨rfl, -⟩ := Call.failIfRunning.inj hcall'
    rw [hmint] at hminted
    obtain rfl := Option.some.inj hminted
    exact Or.inl (by rw [(hinv.proc σ.client).parent p status hkind]; rfl)

theorem AllFailedFor.step {w w' : World} (h : AllFailedFor w) (hinv : Inv true w)
    (hevo : Evolution w w') : AllFailedFor w' := by
  intro r hr hfailed p hmint
  have hminted : ∀ old ∈ w.db.runs, old.id = r.id → w.mint old.id = some p := by
    intro old hold hid
    obtain ⟨p', hp', -⟩ := (hinv.rowsPriv rfl).minted old hold
    have hlater := hevo.mint _ _ hp'
    rw [hid, hmint] at hlater
    rw [hp', ← Option.some.inj hlater]
  rcases hevo.tables with ⟨hsame, -⟩ | ⟨q, σ, hc⟩
  · rw [hsame] at hr
    exact (h r hr hfailed p (hminted r hr rfl)).later hevo
  · rw [hc.db] at hr
    rcases hc.staged.backward hr with hold | ⟨old, hold, hmoved⟩ |
      ⟨-, args, lease, now, hcall, hrow⟩
    · exact (h r hold hfailed p (hminted r hold rfl)).later hevo
    · have hid : old.id = r.id := by
        obtain ⟨_, -, -, hmove⟩ := hmoved
        exact hmove.unmoved.id.symm
      exact (hmoved.failedFor hinv hc.session hfailed (hminted old hold hid)).later hevo
    · rw [hrow] at hfailed
      exact absurd hfailed (by simp [claimRow])

theorem Reachable.allFailedFor (h : Reachable true c) : AllFailedFor c.world := by
  obtain ⟨clock, hr⟩ := h
  have hstart : AllFailedFor (Cfg.initial clock).world := fun r hr => absurd hr List.not_mem_nil
  have hc₀ : Reachable true (Cfg.initial clock) := ⟨clock, .refl⟩
  exact hc₀.preserved (A := AllFailedFor) (fun _ _ hinv _ hevo h => h.step hinv hevo) hr hstart

/-- How the run of an invocation that is not being cleaned up has ended, if it has. -/
theorem Reachable.ends (h : Reachable true c) {r : RunRow} (hr : r ∈ c.world.db.runs) {p : Pid}
    (hmint : c.world.mint r.id = some p) (hclean : c.world.cleanup p = none) :
    r.status.isActive = true ∨ (∃ e, r.leaseExpiresAt = some e ∧ e ≤ c.world.clock) ∨
      ∃ σ before, .commit σ before ∈ c.world.log ∧ σ.client = p ∧ σ.call.completes = some r.id := by
  cases hstatus : r.status with
  | accepted => exact Or.inl rfl
  | running => exact Or.inl rfl
  | failed =>
    rcases h.allFailedFor r hr hstatus p hmint with hstarted | hexpired
    · rw [hclean] at hstarted
      exact absurd hstarted (by simp)
    · exact Or.inr (Or.inl hexpired)
  | blocked =>
    obtain ⟨p', s, hp', hs, -⟩ := (h.inv.rowsPriv rfl).blocked r hr hstatus
    rw [hmint] at hp'
    rw [← Option.some.inj hp', hclean] at hs
    exact absurd hs (by simp)
  | succeeded =>
    obtain ⟨e, he, hcompletes⟩ := List.mem_map.mp (h.inv.log.covered r hr hstatus)
    cases e with
    | commit σ before =>
      have hcall : σ.call.completes = some r.id := hcompletes
      refine Or.inr (Or.inr ⟨σ, before, he, ?_, hcall⟩)
      cases hσ : σ.call with
      | complete runId token messages response =>
        have hclient := ((h.inv.rowsPriv rfl).completedBy σ before _ _ _ _ he hσ).1
        rw [hσ] at hcall
        rw [show runId = r.id from Option.some.inj hcall, hmint] at hclient
        exact (Option.some.inj hclient).symm
      | _ =>
        rw [hσ] at hcall
        exact absurd hcall (by simp [Call.completes])
    | _ => exact absurd hcompletes (by simp [Event.completes])

end Runs

end AgentRuntimeKit
