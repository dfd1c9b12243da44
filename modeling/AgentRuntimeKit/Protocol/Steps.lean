import AgentRuntimeKit.Protocol.Commit

/-!
# What a step leaves alone

`Untouched q` is what a step of somebody else does to a process `q`: nothing. From
it follow the two halves of the argument about others: `q` sees only what `Other q`
allows, and what the invariant says about `q` still holds. `Change mine` is a step
that touches only the processes in `mine`.

## Results

* `Untouched.aside`, `Untouched.procOk` — the two halves for one process.
* `Change.other`, `Change.proc`         — the same for a step.
* `Change.inv`                          — the invariant after a step that leaves the
  tables and the log alone.
* `Change.invRecord`                    — after a step that records an event.
* `Change.invCommit`                    — after a commit.
-/

namespace AgentRuntimeKit

open Lib

-- ---------------------------------------------------------------------------
-- One process
-- ---------------------------------------------------------------------------

/-- A step leaves `q` alone. -/
structure Untouched (q : Pid) (w w' : World) : Prop where
  session : w'.session q = w.session q
  holder : ∀ k, w.holder k = some q → w'.holder k = some q
  inserting : ∀ k, (q, k) ∈ w.inserting → (q, k) ∈ w'.inserting
  kind : w'.kind q = w.kind q
  mint : ∀ u, w'.mint u = some q → w.mint u = some q
  runId : w'.runId q = w.runId q
  armed : w'.armed q = w.armed q
  pushed : (w'.stream q).pushed = (w.stream q).pushed
  stream : w.kind q = .idle → w'.stream q = w.stream q
  source : w'.source q = w.source q
  acked : w'.acked q = w.acked q
  cleanup : w'.cleanup q = w.cleanup q
  settled : w'.settled q = w.settled q
  resolving : w.resolving q = none → w'.resolving q = none
  resolver : ∀ c, w.resolving c = some q → w'.resolving c = some q
  log : ∀ e ∈ w'.log, e.isBy q = true → e ∈ w.log

section Untouched

variable {priv : Bool} {w w' : World} {q : Pid}

theorem Untouched.aside (h : Untouched q w w') (hevo : Evolution w w') : Aside q w w' where
  quiet := ⟨hevo, h.kind, h.runId, h.armed, h.cleanup, h.settled, h.pushed, h.source, h.log⟩
  session := h.session
  commits := by
    rintro r σ hc rfl
    have hsession := h.session
    rw [hc.session, hc.ended] at hsession
    exact absurd hsession (by simp)
  holder := h.holder
  inserting := h.inserting
  resolving := h.resolving
  acked := h.acked

/-- What the runtime passed to the store is still what it passes. -/
theorem CallPriv.evolve {σ : Session} (h : CallPriv w σ) (hevo : Evolution w w')
    (hstarted : w.kind σ.client ≠ .idle) (hrun : w'.runId σ.client = w.runId σ.client) :
    CallPriv w' σ := by
  have hkind := hevo.kind _ hstarted
  constructor
  · intro args hcall
    obtain ⟨hmint, hid, hasked⟩ := h.claim args hcall
    exact ⟨hevo.mint _ _ hmint, hrun.trans hid, by rw [hkind, hasked]⟩
  · exact h.transition
  · intro runId token messages response hcall
    obtain ⟨hmint, hended⟩ := h.complete runId token messages response hcall
    exact ⟨hevo.mint _ _ hmint, hevo.ended _ hended⟩
  · intro runId token code status hcall
    rw [hkind]
    exact h.settle runId token code status hcall
  · intro p status hcleanup
    rw [hkind] at hcleanup
    obtain ⟨runId, token, code, hcall, hmint⟩ := h.cleanup p status hcleanup
    exact ⟨runId, token, code, hcall, hevo.mint _ _ hmint⟩

theorem Untouched.sessionOk (h : Untouched q w w') (hinv : Inv priv w) (hevo : Evolution w w')
    {σ : Session} (hs : w.session q = some σ) (hrun : w'.runId σ.client = w.runId σ.client) :
    SessionOk priv w' q σ := by
  have hok := (hinv.proc q).session σ hs
  refine ⟨?_, hok.begun.trans hevo.clock, fun n hn => ?_, ?_, fun hp => ?_⟩
  · rw [hevo.kind _ hok.started]
    exact hok.started
  · obtain ⟨hlow, hhigh⟩ := hok.now n hn
    exact ⟨hlow, hhigh.trans hevo.clock⟩
  · rcases hok.client with hself | ⟨hkind, hresolving, hstaged⟩
    · exact Or.inl hself
    · refine Or.inr ⟨h.kind.trans hkind, h.resolver _ hresolving, ?_⟩
      exact (h.aside hevo).toBeside.staged hinv hok.started hstaged
  · exact (hok.callPriv hp).evolve hevo hok.started hrun

theorem Untouched.procOk (h : Untouched q w w') (hinv : Inv priv w) (hevo : Evolution w w')
    (hrun : ∀ σ, w.session q = some σ → w'.runId σ.client = w.runId σ.client) :
    ProcOk priv w' q where
  session σ hs := by
    rw [h.session] at hs
    exact h.sessionOk hinv hevo hs (hrun σ hs)
  idle hidle := by
    rw [h.kind] at hidle
    have hok := (hinv.proc q).idle hidle
    exact {
      session := h.session.trans hok.session
      runId := h.runId.trans hok.runId
      armed := h.armed.trans hok.armed
      cleanup := h.cleanup.trans hok.cleanup
      settled := h.settled.trans hok.settled
      resolving := h.resolving hok.resolving
      stream := (h.stream hidle).trans hok.stream
      source := h.source.trans hok.source
      acked := h.acked.trans hok.acked
      log := by
        intro e he
        cases hby : e.isBy q with
        | false => rfl
        | true => rw [← hby, hok.log e (h.log e he hby)]
      mint := fun u hu => hok.mint u (h.mint u hu) }
  cleanup s hs := by
    rw [h.cleanup] at hs
    obtain ⟨hsession, status, hkind⟩ := (hinv.proc q).cleanup s hs
    refine ⟨h.session.trans hsession, status, ?_⟩
    rw [hevo.kind s (by rw [hkind]; exact fun hk => Kind.noConfusion hk)]
    exact hkind
  parent r status hkind := by
    rw [h.kind] at hkind
    exact hevo.cleanup _ _ ((hinv.proc q).parent r status hkind)
  runId u hu := by
    rw [h.runId] at hu
    exact hevo.mint _ _ ((hinv.proc q).runId u hu)

end Untouched

-- ---------------------------------------------------------------------------
-- One step
-- ---------------------------------------------------------------------------

/-- A step that touches only the processes in `mine`. -/
structure Change (mine : Pid → Prop) (w w' : World) : Prop where
  evolution : Evolution w w'
  others : ∀ q, ¬ mine q → Untouched q w w'
  clients : ∀ q σ, ¬ mine q → w.session q = some σ → w'.runId σ.client = w.runId σ.client

namespace Change

variable {priv : Bool} {w w' : World} {mine : Pid → Prop}

/-- Nobody else, and nobody who has not started, sees more than `Other` allows. -/
theorem other (h : Change mine w w') {q : Pid} (hq : mine q → w.kind q = .idle) : Other q w w' := by
  refine ⟨h.evolution, fun hstarted => ?_⟩
  exact (h.others q fun hmine => hstarted (hq hmine)).aside h.evolution

theorem proc (h : Change mine w w') (hinv : Inv priv w) (hmine : ∀ q, mine q → ProcOk priv w' q)
    (q : Pid) : ProcOk priv w' q := by
  by_cases hq : mine q
  · exact hmine q hq
  · exact (h.others q hq).procOk hinv h.evolution fun σ hs => h.clients q σ hq hs

end Change

section Rows

variable {w w' : World}

theorem OutcomeOk.evolve {p s : Pid} {o : SettleOutcome} {status : RunStatus}
    (hinv : Inv true w) (hevo : Evolution w w') (hkind : w.kind s = .cleanup p status)
    (hterminal : ∀ r ∈ w.db.runs, r.status.isActive = false → r ∈ w'.db.runs)
    (hfresh : w.resolving p = none → ∀ r ∈ w'.db.runs, w'.runId p = some r.id →
      ∃ r₀ ∈ w.db.runs, r₀.id = r.id)
    (h : OutcomeOk w p o) : OutcomeOk w' p o := by
  have hcleanup := (hinv.proc s).parent p status hkind
  have hrun := hevo.runId p (by rw [hcleanup]; rfl)
  cases o with
  | settled record =>
    obtain ⟨hmem, hdone, hid⟩ := h
    exact ⟨hterminal record hmem hdone, hdone, hrun.trans hid⟩
  | notFound =>
    intro hpremature
    have hbefore : w.premature p = false := by
      cases hp : w.premature p with
      | false => rfl
      | true => rw [hevo.premature p hp] at hpremature; exact hpremature
    obtain ⟨hresolving, hnone⟩ := h hbefore
    -- the invocation has no transaction of its own any more, so nothing is left behind
    have hstays : w'.resolving p = none := by
      cases hr : w'.resolving p with
      | none => rfl
      | some q =>
        rcases hevo.resolving p q hr with hold | hopen
        · rw [hresolving] at hold
          exact absurd hold (by simp)
        · rw [((hinv.proc p).cleanup s hcleanup).1] at hopen
          exact absurd hopen (by simp)
    refine ⟨hstays, fun r hr hid => ?_⟩
    obtain ⟨r₀, hr₀, hid₀⟩ := hfresh hresolving r hr hid
    refine hnone r₀ hr₀ ?_
    rw [hid₀, ← hrun]
    exact hid
  | unavailable => trivial

/-- Whoever drew an identifier has started. -/
theorem Inv.minted_started {priv : Bool} (hinv : Inv priv w) {u : Uuid} {p : Pid}
    (h : w.mint u = some p) : w.kind p ≠ .idle :=
  fun hidle => ((hinv.proc p).idle hidle).mint u h

/-- What `RowsPriv` says of the log survives a step. A commit of the step is one of a call
that the runtime may make. -/
theorem RowsPriv.evolve (hinv : Inv true w) (hevo : Evolution w w') (h : RowsPriv w)
    (hminted : ∀ r ∈ w'.db.runs, ∃ p, w'.mint r.id = some p ∧ w'.runId p = some r.id)
    (hrows : ∀ r ∈ w'.db.runs, (∃ r₀ ∈ w.db.runs, r₀.id = r.id ∧ r₀.asked = r.asked) ∨
      ∃ p, w.mint r.id = some p ∧ (w.kind p).asked = some r.asked)
    (hblocked : ∀ r ∈ w'.db.runs, r.status = .blocked →
      ∃ p s, w'.mint r.id = some p ∧ w'.cleanup p = some s ∧ w'.kind s = .cleanup p .blocked)
    (hcommit : ∀ σ before, .commit σ before ∈ w'.log → .commit σ before ∈ w.log ∨
      (w.kind σ.client ≠ .idle ∧ CallPriv w σ ∧
        ∀ p status, w.kind σ.client = .cleanup p status → ∀ r ∈ before.runs,
          w.mint r.id ≠ some p → r ∈ (before.after σ.writes).runs))
    (houtcomes : ∀ s o p status, w'.settled s = some o → w'.kind s = .cleanup p status →
      OutcomeOk w' p o) : RowsPriv w' where
  minted := hminted
  asked := by
    intro r hr p hp
    have hsame : ∀ q, w.mint r.id = some q → (w.kind q).asked = some r.asked →
        (w'.kind p).asked = some r.asked := by
      intro q hq hasked
      have hpq := Option.some.inj (hp.symm.trans (hevo.mint _ _ hq))
      rw [hpq, hevo.kind q (hinv.minted_started hq), hasked]
    rcases hrows r hr with ⟨r₀, hr₀, hid, hasked⟩ | ⟨q, hq, hasked⟩
    · obtain ⟨q, hq, -⟩ := h.minted r₀ hr₀
      exact hsame q (hid ▸ hq) (hasked ▸ h.asked r₀ hr₀ q hq)
    · exact hsame q hq hasked
  blocked := hblocked
  completedBy := by
    intro σ before runId token messages response hmem hcall
    rcases hcommit σ before hmem with hold | ⟨-, hpriv, -⟩
    · obtain ⟨hmint, hended⟩ := h.completedBy σ before runId token messages response hold hcall
      exact ⟨hevo.mint _ _ hmint, hevo.ended _ hended⟩
    · obtain ⟨hmint, hended⟩ := hpriv.complete runId token messages response hcall
      exact ⟨hevo.mint _ _ hmint, hevo.ended _ hended⟩
  spared := by
    intro σ before p status hmem hkind r hr hmint
    have hmint' : w.mint r.id ≠ some p := fun hm => hmint (hevo.mint _ _ hm)
    rcases hcommit σ before hmem with hold | ⟨hstarted, -, hspared⟩
    · rw [hevo.kind _ (hinv.clients σ before hold)] at hkind
      exact h.spared σ before p status hold hkind r hr hmint'
    · rw [hevo.kind _ hstarted] at hkind
      exact hspared p status hkind r hr hmint'
  outcomes := houtcomes

/-- The kind of a process that has settled is not new. -/
theorem Inv.settled_kind {priv : Bool} (hinv : Inv priv w) (hevo : Evolution w w') {s : Pid}
    {o : SettleOutcome} (hs : w.settled s = some o) : w'.kind s = w.kind s := by
  refine hevo.kind s fun hidle => ?_
  rw [((hinv.proc s).idle hidle).settled] at hs
  exact absurd hs (by simp)

/-- A step that leaves the tables alone. -/
theorem RowsPriv.frame (hinv : Inv true w) (hevo : Evolution w w') (h : RowsPriv w)
    (hdb : w'.db = w.db) (hlog : ∀ σ before, .commit σ before ∈ w'.log → .commit σ before ∈ w.log)
    (hrun : ∀ p, w'.runId p = w.runId p)
    (hsettled : ∀ s o, w'.settled s = some o → w.settled s = some o) : RowsPriv w' := by
  refine h.evolve hinv hevo ?_ ?_ ?_ (fun σ before hmem => Or.inl (hlog σ before hmem)) ?_
  · rw [hdb]
    intro r hr
    obtain ⟨p, hmint, hid⟩ := h.minted r hr
    exact ⟨p, hevo.mint _ _ hmint, (hrun p).trans hid⟩
  · rw [hdb]
    exact fun r hr => Or.inl ⟨r, hr, rfl, rfl⟩
  · rw [hdb]
    intro r hr hblocked
    obtain ⟨p, s, hmint, hcleanup, hkind⟩ := h.blocked r hr hblocked
    refine ⟨p, s, hevo.mint _ _ hmint, hevo.cleanup _ _ hcleanup, ?_⟩
    rw [hevo.kind s (by rw [hkind]; exact fun hk => Kind.noConfusion hk), hkind]
  · intro s o p status hs hkind
    have hs' := hsettled s o hs
    rw [hinv.settled_kind hevo hs'] at hkind
    refine (h.outcomes s o p status hs' hkind).evolve hinv hevo hkind ?_ ?_
    · rw [hdb]
      exact fun r hr _ => hr
    · rw [hdb]
      exact fun _ r hr _ => ⟨r, hr, rfl⟩

end Rows

/-- A row that a commit of the runtime adds is that of a claim, for a run of its client. -/
theorem Staged.new_row {p : Pid} {σ : Session} (h : Staged w p σ) (hpriv : CallPriv w σ)
    {r : RunRow} (hr : r ∈ (w.db.after σ.writes).runs) :
    (∃ r₀ ∈ w.db.runs, r₀.id = r.id ∧ r₀.asked = r.asked) ∨
      (w.mint r.id = some σ.client ∧ w.runId σ.client = some r.id ∧
        (w.kind σ.client).asked = some r.asked) := by
  rcases h.backward hr with hr | ⟨old, hold, now, -, -, hmove⟩ | ⟨-, args, lease, now, hcall, rfl⟩
  · exact Or.inl ⟨r, hr, rfl, rfl⟩
  · have hsame := hmove.unmoved
    refine Or.inl ⟨old, hold, hsame.id.symm, ?_⟩
    rw [RunRow.asked, RunRow.asked, hsame.agentId, hsame.idempotencyKey, hsame.requestHash]
  · exact Or.inr (hpriv.claim args hcall)

/-- No transaction works for an invocation whose clean-up has started, once its own commits are
over. -/
theorem Inv.none_open {priv : Bool} (hinv : Inv priv w) {q s : Pid}
    (hcleanup : w.cleanup q = some s)
    (hresolving : w.resolving q = none) {p : Pid} {σ : Session} (hs : w.session p = some σ) :
    σ.client ≠ q := by
  rintro rfl
  rcases ((hinv.proc p).session σ hs).client with hself | ⟨-, hresolver, -⟩
  · have hnone := ((hinv.proc σ.client).cleanup s hcleanup).1
    rw [hself, hs] at hnone
    exact absurd hnone (by simp)
  · rw [hresolving] at hresolver
    exact absurd hresolver (by simp)

/-- What a clean-up found stays so. -/
theorem OutcomeOk.step {p s : Pid} {o : SettleOutcome} {status : RunStatus} (hinv : Inv true w)
    (hevo : Evolution w w') (hkind : w.kind s = .cleanup p status) (h : OutcomeOk w p o) :
    OutcomeOk w' p o := by
  have hcleanup := (hinv.proc s).parent p status hkind
  refine h.evolve hinv hevo hkind ?_ ?_
  · intro r hr hdone
    rcases hevo.tables with ⟨hdb, -⟩ | ⟨q, σ, hc⟩
    · exact hdb ▸ hr
    · rw [hc.db]
      exact hc.staged.terminal hinv.db hr hdone
  · intro hresolving r hr hid
    rcases hevo.tables with ⟨hdb, -⟩ | ⟨q, σ, hc⟩
    · exact ⟨r, hdb ▸ hr, rfl⟩
    · rw [hc.db] at hr
      have hpriv := ((hinv.proc q).session σ hc.session).callPriv rfl
      rcases hc.staged.new_row hpriv hr with ⟨r₀, hr₀, hid₀, -⟩ | ⟨hmint, -⟩
      · exact ⟨r₀, hr₀, hid₀⟩
      · -- a new row would be a run of `p`, for which nothing is open
        rw [hevo.runId p (by rw [hcleanup]; rfl)] at hid
        rw [(hinv.proc p).runId r.id hid, Option.some.injEq] at hmint
        exact absurd hmint.symm (hinv.none_open hcleanup hresolving hc.session)

-- ---------------------------------------------------------------------------
-- The invariant after a step
-- ---------------------------------------------------------------------------

namespace Change

variable {priv : Bool} {w w' : World} {mine : Pid → Prop}

/-- A step that leaves the tables and the log alone. -/
theorem inv (h : Change mine w w') (hinv : Inv priv w) (hmine : ∀ q, mine q → ProcOk priv w' q)
    (hdb : w'.db = w.db) (hlog : w'.log = w.log)
    (hins : ∀ p q k, (p, k) ∈ w'.inserting → (q, k) ∈ w'.inserting → p = q)
    (hrows : priv = true → RowsPriv w') : Inv priv w' where
  db := hdb ▸ hinv.db
  log := by
    rw [hdb, hlog]
    exact hinv.log
  serial := by
    rw [hlog]
    exact hinv.serial.mono h.evolution.kind hinv.clients
  enteredBy := by
    rw [hlog]
    exact fun p runId a k he => h.evolution.mint _ _ (hinv.enteredBy p runId a k he)
  readOnce := hlog ▸ hinv.readOnce
  inserting := hins
  proc := h.proc hinv hmine
  rowsPriv := hrows
  clients := by
    rw [hlog]
    intro σ before hmem
    rw [h.evolution.kind _ (hinv.clients σ before hmem)]
    exact hinv.clients σ before hmem

/-- A step that records an event other than a commit. -/
theorem invRecord (h : Change mine w w') (hinv : Inv priv w)
    (hmine : ∀ q, mine q → ProcOk priv w' q) (hdb : w'.db = w.db) {e : Event}
    (hlog : w'.log = e :: w.log) (hcommit : e.isCommit = false)
    (hentered : ∀ p runId agentId key, e = .enter p runId agentId key →
      w.mint runId = some p ∧ .some runId ∉ w.log.map Event.entered ∧
        ∃ r ∈ w.db.runs, r.id = runId ∧ r.agentId = agentId ∧ r.idempotencyKey = key)
    (hread : ∀ p, e.reader = some p → .some p ∉ w.log.map Event.reader)
    (hins : ∀ p q k, (p, k) ∈ w'.inserting → (q, k) ∈ w'.inserting → p = q)
    (hrows : priv = true → RowsPriv w') : Inv priv w' where
  db := hdb ▸ hinv.db
  log := by
    rw [hdb, hlog]
    refine ⟨fun t => ?_, fun σ before runId token messages response hmem hcall => ?_,
      fun r hr hs => List.mem_cons_of_mem _ (hinv.log.covered r hr hs), ?_,
      fun p runId agentId key hmem => ?_, ?_⟩
    · rw [hinv.log.transcript t, List.reverse_cons, List.flatMap_append, List.flatMap_singleton,
        Event.batchOn_of_not_commit t hcommit, List.append_nil]
    · rcases List.mem_cons.mp hmem with rfl | hmem
      · exact absurd hcommit (by simp [Event.isCommit])
      · exact hinv.log.completed σ before runId token messages response hmem hcall
    · rw [List.filterMap_cons_none
        (by cases e <;> first | rfl | exact absurd hcommit (by simp [Event.isCommit]))]
      exact hinv.log.once
    · rcases List.mem_cons.mp hmem with rfl | hmem
      · exact (hentered p runId agentId key rfl).2.2
      · exact hinv.log.entered p runId agentId key hmem
    · cases e with
      | enter p runId agentId key =>
        rw [List.filterMap_cons_some (by rfl), List.nodup_cons]
        refine ⟨fun hmem => ?_, hinv.log.enteredOnce⟩
        obtain ⟨e, he, hrun⟩ := List.mem_filterMap.mp hmem
        exact (hentered p runId agentId key rfl).2.1 (List.mem_map.mpr ⟨e, he, hrun⟩)
      | _ => exact hinv.log.enteredOnce
  serial := by
    rw [hlog, ← List.singleton_append]
    refine (hinv.serial.mono h.evolution.kind hinv.clients).extend fun e' he' => ?_
    rw [List.mem_singleton.mp he']
    exact hcommit
  enteredBy := by
    rw [hlog]
    intro p runId agentId key hmem
    rcases List.mem_cons.mp hmem with rfl | hmem
    · exact h.evolution.mint _ _ (hentered p runId agentId key rfl).1
    · exact h.evolution.mint _ _ (hinv.enteredBy p runId agentId key hmem)
  readOnce := by
    rw [hlog]
    cases hr : e.reader with
    | none =>
      rw [List.filterMap_cons_none hr]
      exact hinv.readOnce
    | some p =>
      rw [List.filterMap_cons_some hr, List.nodup_cons]
      refine ⟨fun hmem => ?_, hinv.readOnce⟩
      obtain ⟨e', he', hp⟩ := List.mem_filterMap.mp hmem
      exact hread p hr (List.mem_map.mpr ⟨e', he', hp⟩)
  inserting := hins
  proc := h.proc hinv hmine
  rowsPriv := hrows
  clients := by
    rw [hlog]
    intro σ before hmem
    rcases List.mem_cons.mp hmem with rfl | hmem
    · exact absurd hcommit (by simp [Event.isCommit])
    · rw [h.evolution.kind _ (hinv.clients σ before hmem)]
      exact hinv.clients σ before hmem

/-- What the runtime's rows satisfy after a commit of one of its calls. -/
theorem rowsCommit (h : Change mine w w') (hinv : Inv true w) {p : Pid} {σ : Session}
    (hsession : w.session p = some σ) (hstaged : Staged w p σ) (hdb : w'.db = w.db.after σ.writes)
    (hlog : w'.log = .commit σ w.db :: w.log) (hrun : w'.runId = w.runId)
    (hsettled : w'.settled = w.settled) : RowsPriv w' := by
  have hok := (hinv.proc p).session σ hsession
  have hpriv := hok.callPriv rfl
  have hrows := hinv.rowsPriv rfl
  have hevo := h.evolution
  refine hrows.evolve hinv hevo ?_ ?_ ?_ ?_ ?_
  · -- each row was minted by a process
    rw [hdb]
    intro r hr
    rcases hstaged.new_row hpriv hr with ⟨r₀, hr₀, hid, -⟩ | ⟨hmint, hid, -⟩
    · obtain ⟨q, hmint, hq⟩ := hrows.minted r₀ hr₀
      rw [hid] at hmint hq
      exact ⟨q, hevo.mint _ _ hmint, by rw [hrun, hq]⟩
    · exact ⟨σ.client, hevo.mint _ _ hmint, by rw [hrun, hid]⟩
  · -- and is what that process asked for
    rw [hdb]
    intro r hr
    rcases hstaged.new_row hpriv hr with hold | ⟨hmint, -, hasked⟩
    · exact Or.inl hold
    · exact Or.inr ⟨σ.client, hmint, hasked⟩
  · -- a blocked row has a clean-up that blocked it
    rw [hdb]
    intro r hr hblocked
    have hold : ∀ r₀ ∈ w.db.runs, r₀.id = r.id → r₀.status = .blocked →
        ∃ q s, w'.mint r.id = some q ∧ w'.cleanup q = some s ∧ w'.kind s = .cleanup q .blocked := by
      intro r₀ hr₀ hid hb
      obtain ⟨q, s, hmint, hcleanup, hkind⟩ := hrows.blocked r₀ hr₀ hb
      refine ⟨q, s, hevo.mint _ _ (hid ▸ hmint), hevo.cleanup _ _ hcleanup, ?_⟩
      rw [hevo.kind s (by rw [hkind]; exact fun hk => Kind.noConfusion hk), hkind]
    rcases hstaged.backward hr with hr | ⟨old, hmem, now, -, -, hmove⟩ |
      ⟨-, args, lease, now, hcall, rfl⟩
    · exact hold r hr rfl hblocked
    · cases hmove with
      | expire he =>
        rw [(expire_some he).2.2] at hblocked
        exact RunStatus.noConfusion hblocked
      | @transition token status response code hcall =>
        have hstatus : status = .blocked := hblocked
        rw [hpriv.transition _ _ _ _ _ hcall] at hstatus
        exact RunStatus.noConfusion hstatus
      | complete => exact RunStatus.noConfusion hblocked
      | @settle token status code hcall =>
        have hstatus : status = .blocked := hblocked
        obtain ⟨q, hkind⟩ := hpriv.settle _ _ _ _ hcall
        obtain ⟨runId, token', code', hcall', hmint⟩ := hpriv.cleanup q status hkind
        rw [hcall, Call.failIfRunning.injEq] at hcall'
        rw [← hcall'.1] at hmint
        rw [hstatus] at hkind
        -- the client is its own process: a clean-up hands over at most to its resolver
        have hcleanup := (hinv.proc σ.client).parent q .blocked hkind
        refine ⟨q, σ.client, hevo.mint _ _ hmint, hevo.cleanup _ _ hcleanup, ?_⟩
        rw [hevo.kind _ hok.started, hkind]
    · exact RunStatus.noConfusion hblocked
  · -- a clean-up commits to its own run only
    rw [hlog]
    intro σ' before hmem
    rcases List.mem_cons.mp hmem with hhead | hmem
    · obtain ⟨rfl, rfl⟩ := Event.commit.inj hhead
      refine Or.inr ⟨hok.started, hpriv, fun q status hkind r hr hmint => ?_⟩
      obtain ⟨runId, token, code, hcall, hid⟩ := hpriv.cleanup q status hkind
      refine hstaged.untargeted (by rw [hcall]; rfl) hr ?_
      rintro rfl
      exact hmint hid
    · exact Or.inl hmem
  · -- what a clean-up has ended with still holds
    rw [hsettled]
    intro s o q status hs hkind
    rw [hinv.settled_kind hevo hs] at hkind
    exact (hrows.outcomes s o q status hs hkind).step hinv hevo hkind

/-- A commit. -/
theorem invCommit (h : Change mine w w') (hinv : Inv priv w)
    (hmine : ∀ q, mine q → ProcOk priv w' q) {p : Pid} {σ : Session}
    (hsession : w.session p = some σ) (hstaged : Staged w p σ) (hdb : w'.db = w.db.after σ.writes)
    (hlog : w'.log = .commit σ w.db :: w.log) (hrun : w'.runId = w.runId)
    (hsettled : w'.settled = w.settled)
    (hins : ∀ p q k, (p, k) ∈ w'.inserting → (q, k) ∈ w'.inserting → p = q) : Inv priv w' where
  db := by
    rw [hdb]
    exact hstaged.dbOk hinv.db
  log := by
    rw [hdb, hlog]
    exact hstaged.logOk hinv.db hinv.log
  serial := by
    have hok := (hinv.proc p).session σ hsession
    rw [hlog]
    refine (hstaged.serial hinv.serial).mono h.evolution.kind fun σ' before hmem => ?_
    rcases List.mem_cons.mp hmem with hhead | hmem
    · rw [(Event.commit.inj hhead).1]
      exact hok.started
    · exact hinv.clients σ' before hmem
  enteredBy := by
    rw [hlog]
    intro q runId agentId key hmem
    rcases List.mem_cons.mp hmem with hhead | hmem
    · exact Event.noConfusion hhead
    · exact h.evolution.mint _ _ (hinv.enteredBy q runId agentId key hmem)
  readOnce := by
    rw [hlog, List.filterMap_cons_none (by rfl)]
    exact hinv.readOnce
  inserting := hins
  proc := h.proc hinv hmine
  rowsPriv := by
    rintro rfl
    exact h.rowsCommit hinv hsession hstaged hdb hlog hrun hsettled
  clients := by
    have hok := (hinv.proc p).session σ hsession
    rw [hlog]
    intro σ' before hmem
    rcases List.mem_cons.mp hmem with hhead | hmem
    · rw [(Event.commit.inj hhead).1, h.evolution.kind _ hok.started]
      exact hok.started
    · rw [h.evolution.kind _ (hinv.clients σ' before hmem)]
      exact hinv.clients σ' before hmem

end Change

end AgentRuntimeKit
