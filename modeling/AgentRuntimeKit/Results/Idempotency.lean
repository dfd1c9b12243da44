import AgentRuntimeKit.Model.Documents
import AgentRuntimeKit.Protocol.Answers
import AgentRuntimeKit.Results.Transcripts

/-!
# Idempotency keys

Any number of invocations and streams with one key of one agent, on any threads and workers, with
faults, cancellations and expired leases anywhere. `HasAnswered` says that a call has returned a
response, as its result or as the completed event of a stream.

The results hold in every configuration that `Legal true` moves reach: callers start invocations,
streams and public store calls, but pass no run identifier or owner token of their own. Hooks,
invokers and sources return and raise anything, and the clock moves as it likes.

A key is bound to one row by the unique index, and the row to one invocation by the identifier that
it drew. What a row can do later is what `RunMachine` allows: a run that is dead stays dead, since a
transaction that would complete it has read the clock at the end of the lease or after it.

What is *answered* needs more. A row holds the JSON form of a response, and the call whose invoker
ran returns the response that it has built itself. The two are equal exactly where the metadata
that the invoker returned is lossless JSON: a tuple, a key that is no string, or a float that is
not finite reaches the first caller, and every replay returns what was made of it.

## Results

* `Reachable.oncePerKey` — at most one execution; every answer is, in its JSON form, the response of
  that one run, for a request with its hash; a dead run enters and answers nothing any more.
* `Reachable.atMostOnce` — every answer is the very response that is stored if and only if the
  invoker's metadata is lossless JSON wherever a call answered with what its invoker returned.
* `Sample.tupled_differs_stored` — a tuple that the first caller gets and no replay.
-/

namespace AgentRuntimeKit

open Lib

/-- The run of an event that enters the invoker for this agent and key. -/
def Event.entersFor (agentId key : String) : Event → Option Uuid
  | enter _ runId agentId' key' =>
    if agentId' = agentId ∧ key' = some key then some runId else none
  | _ => none

/-- An active row that has expired: its lease is over, and no transaction that carries its
owner token has read the clock before. -/
structure Lapsed (w : World) (r : RunRow) : Prop where
  active : r.status.isActive = true
  lease : ∃ lease, r.leaseExpiresAt = some lease ∧ lease ≤ w.clock ∧
    ∀ q σ now, w.session q = some σ → σ.now = some now → σ.call.ownerToken = r.ownerToken →
      lease ≤ now

/-- A run that can give no answer any more. -/
def Dead (w : World) (r : RunRow) : Prop :=
  r.status = .failed ∨ r.status = .blocked ∨ Lapsed w r

/-- The metadata that the invoker returned to the invocation `p`, which answered with it: it has
answered, and no clean-up has been started for it. -/
structure AnsweredWith (c : Cfg) (p : Pid) (metadata : Metadata) : Prop where
  answered : ∃ response, HasAnswered c p response
  cleanup : c.world.cleanup p = none
  returned : Returned c.world p metadata

/-- Wherever a call with this key answered with what its invoker returned, the metadata of that is
lossless JSON. -/
def LosslessOutputs (c : Cfg) (agentId key : String) : Prop :=
  ∀ p hash metadata, (c.world.kind p).asked = some (agentId, some key, hash) →
    AnsweredWith c p metadata → metadata.isLossless = true

/-- What holds of one key of one agent, whatever the invoker returns. -/
structure OncePerKey (c : Cfg) (agentId key : String) : Prop where
  /-- At most one event enters the invoker, and it is the run of the one row with the key. -/
  entered : (c.world.log.filterMap (Event.entersFor agentId key)).length ≤ 1 ∧
    ∀ e ∈ c.world.log, ∀ runId, e.entersFor agentId key = some runId →
      ∀ r ∈ c.world.db.runs, r.agentId = agentId → r.idempotencyKey = some key → r.id = runId
  /-- An answer is given for a request with the hash of the row, which holds its JSON form. -/
  stored : ∀ p hash response, (c.world.kind p).asked = some (agentId, some key, hash) →
    HasAnswered c p response → ∃ r ∈ c.world.db.runs,
      r.asked = (agentId, some key, hash) ∧ r.status = .succeeded ∧
        r.response = some response.jsonForm
  closed : ∀ r ∈ c.world.db.runs, r.agentId = agentId → r.idempotencyKey = some key →
    Dead c.world r → ∀ c', machine.Reaches (Legal true) c c' → ∀ p, c.world.kind p = .idle →
      (∀ e ∈ c'.world.log, e.isBy p = true → e.entersFor agentId key = none) ∧
      ∀ hash response, (c'.world.kind p).asked = some (agentId, some key, hash) →
        ¬HasAnswered c' p response

/-- At most one execution and one answer: besides, every call that answers returns the response
that is stored. -/
structure AtMostOnce (c : Cfg) (agentId key : String) : Prop extends OncePerKey c agentId key where
  answered : ∀ p hash response, (c.world.kind p).asked = some (agentId, some key, hash) →
    HasAnswered c p response → ∃ r ∈ c.world.db.runs,
      r.asked = (agentId, some key, hash) ∧ r.status = .succeeded ∧ r.response = some response

section Idempotency

variable {c c' : Cfg} {agentId key : String}

theorem Event.entersFor_some {e : Event} {runId : Uuid} (h : e.entersFor agentId key = some runId) :
    ∃ p, e = .enter p runId agentId (some key) := by
  cases e with
  | enter p runId' agentId' key' =>
    simp only [entersFor] at h
    split at h
    · next hcond =>
      obtain ⟨rfl, rfl⟩ := hcond
      rw [Option.some.inj h]
      exact ⟨p, rfl⟩
    · exact absurd h (by simp)
  | _ => exact absurd h (by simp [entersFor])

/-- The rows of a key are one row. -/
theorem DbOk.one_row {db : Db} (h : DbOk db) {a b : RunRow} (ha : a ∈ db.runs) (hb : b ∈ db.runs)
    (hagent : a.agentId = agentId) (hkey : a.idempotencyKey = some key)
    (hagent' : b.agentId = agentId) (hkey' : b.idempotencyKey = some key) : a = b :=
  h.unique_key ha hb (hagent.trans hagent'.symm) hkey hkey'

/-- Different events enter different runs. -/
theorem entersFor_nodup {log : List Event} (h : (log.filterMap Event.entered).Nodup) :
    (log.filterMap (Event.entersFor agentId key)).Nodup := by
  have hsub : (log.filterMap (Event.entersFor agentId key)).Sublist
      (log.filterMap Event.entered) := by
    clear h
    induction log with
    | nil => exact List.Sublist.slnil
    | cons e rest ih =>
      cases he : e.entersFor agentId key with
      | none =>
        rw [List.filterMap_cons_none he]
        cases he' : e.entered with
        | none => rwa [List.filterMap_cons_none he']
        | some runId =>
          rw [List.filterMap_cons_some he']
          exact ih.cons _
      | some runId =>
        have he' : e.entered = some runId := by
          obtain ⟨p, rfl⟩ := Event.entersFor_some he
          rfl
        rw [List.filterMap_cons_some he, List.filterMap_cons_some he']
        exact ih.cons_cons _
  exact hsub.nodup h

/-- Every entry for the key is one for the run of its row. -/
theorem Reachable.entered_row (h : Reachable true c) {e : Event} (he : e ∈ c.world.log)
    {runId : Uuid} (hruns : e.entersFor agentId key = some runId) {r : RunRow}
    (hr : r ∈ c.world.db.runs) (hagent : r.agentId = agentId)
    (hkey : r.idempotencyKey = some key) : r.id = runId := by
  obtain ⟨p, rfl⟩ := Event.entersFor_some hruns
  obtain ⟨r', hr', hid, hagent', hkey'⟩ := h.inv.log.entered p runId agentId (some key) he
  rw [h.inv.db.one_row hr hr' hagent hkey hagent' hkey']
  exact hid

theorem Reachable.entered_once (h : Reachable true c) :
    (c.world.log.filterMap (Event.entersFor agentId key)).length ≤ 1 := by
  have hnodup : (c.world.log.filterMap (Event.entersFor agentId key)).Nodup :=
    entersFor_nodup h.inv.log.enteredOnce
  have hsame : ∀ u ∈ c.world.log.filterMap (Event.entersFor agentId key),
      ∀ v ∈ c.world.log.filterMap (Event.entersFor agentId key), u = v := by
    intro u hu v hv
    obtain ⟨e, he, heu⟩ := List.mem_filterMap.mp hu
    obtain ⟨e', he', hev⟩ := List.mem_filterMap.mp hv
    obtain ⟨p, rfl⟩ := Event.entersFor_some heu
    obtain ⟨r, hr, hid, hagent, hkey⟩ := h.inv.log.entered p u agentId (some key) he
    rw [← hid]
    exact h.entered_row he' hev hr hagent hkey
  match hl : c.world.log.filterMap (Event.entersFor agentId key) with
  | [] => exact Nat.zero_le 1
  | [u] => exact Nat.le_refl 1
  | u :: v :: rest =>
    rw [hl] at hnodup hsame
    have heq : u = v := hsame u List.mem_cons_self v (List.mem_cons_of_mem _ List.mem_cons_self)
    rw [heq] at hnodup
    exact absurd List.mem_cons_self (List.nodup_cons.mp hnodup).1

theorem Reachable.answered_row (h : Reachable true c) {p : Pid} {hash : Option String}
    {response : RuntimeResponse} (hasked : (c.world.kind p).asked = some (agentId, some key, hash))
    (ha : HasAnswered c p response) : ∃ r ∈ c.world.db.runs,
      r.asked = (agentId, some key, hash) ∧ r.status = .succeeded ∧
        r.response = some response.jsonForm := by
  obtain ⟨r, hr⟩ := h.answered ha
  refine ⟨r, hr.mem, ?_, hr.status, hr.response⟩
  exact Option.some.inj (hr.asked.symm.trans hasked)

/-- Where the invoker's metadata is lossless JSON, the row holds the very response that was
answered. -/
theorem AnsweredBy.exact {p : Pid} {r : RunRow} {response : RuntimeResponse}
    (hr : AnsweredBy c.world p r response) (ha : HasAnswered c p response)
    (hlossless : ∀ metadata, AnsweredWith c p metadata → metadata.isLossless = true) :
    r.response = some response := by
  have hsame : response.jsonForm = response := by
    cases hr.origin with
    | read hform _ => exact hform
    | own _ hcleanup hsource _ hgives =>
      refine RuntimeResponse.jsonForm_eq_self_iff.mpr (hlossless _ ?_)
      exact ⟨⟨response, ha⟩, hcleanup, _, hsource, hgives⟩
  rw [hr.response, hsame]

/-- A call that answered with what its invoker returned: the row is its own, and it holds the very
response only if the metadata is lossless JSON. -/
theorem AnsweredWith.origin (h : Reachable true c) {p : Pid} {metadata : Metadata}
    (hw : AnsweredWith c p metadata) : ∃ response r, HasAnswered c p response ∧
      AnsweredBy c.world p r response ∧ c.world.runId p = some r.id ∧
      (r.response = some response → metadata.isLossless = true) := by
  obtain ⟨⟨response, ha⟩, hcleanup, rd, hsource, hgives⟩ := hw
  obtain ⟨r, hr⟩ := h.answered ha
  cases hr.origin with
  | read _ hnone => exact absurd ((hnone hcleanup).symm.trans hsource) (by simp)
  | @own rd' hrun _ hsource' hended hgives' =>
    obtain rfl : rd' = rd := Option.some.inj (hsource'.symm.trans hsource)
    refine ⟨response, r, ha, hr, hrun, fun hexact => ?_⟩
    have hform : response.jsonForm = response :=
      (Option.some.inj (hexact.symm.trans hr.response)).symm
    rw [hended.gives hgives hgives']
    exact RuntimeResponse.jsonForm_eq_self_iff.mp hform

-- ---------------------------------------------------------------------------
-- Dead runs stay dead
-- ---------------------------------------------------------------------------

/-- A transaction that has read the clock reads it in this step, or has read it before. -/
theorem step_reading {mv : Move Choice Env} (hs : machine.step c mv = some c') {q : Pid}
    {σ : Session} {now : Time} (hq : c'.world.session q = some σ) (hnow : σ.now = some now) :
    now = c.world.clock ∨ ∃ q' σ', c.world.session q' = some σ' ∧ σ'.now = some now ∧
      σ'.call = σ.call := by
  rcases Machine.step_cases hs with ⟨p, ch, o, k, r, fs, -, -, hx, -⟩ | ⟨e, fs, -, hx, -⟩
  · cases exec_sessions hx hq with
    | kept h => exact Or.inr ⟨q, σ, h, hnow, rfl⟩
    | begun _ h =>
      rw [h] at hnow
      exact absurd hnow (by simp)
    | reading _ _ h =>
      rw [h] at hnow
      exact Or.inl (Option.some.inj hnow).symm
    | @flushed σ₀ x _ h₀ h =>
      rw [h] at hnow
      exact Or.inr ⟨p, σ₀, h₀, hnow, by rw [h]⟩
    | handed h₀ _ => exact Or.inr ⟨p, σ, h₀, hnow, rfl⟩
  · have hsame : c'.world.session = c.world.session := by
      cases e with
      | start p t =>
        simp only [machine, env] at hx
        split at hx
        · obtain ⟨hw, -⟩ : _ ∧ _ := by simpa only [Option.some.injEq, Prod.mk.injEq] using hx
          rw [← hw]
        · exact absurd hx (by simp)
      | take p =>
        simp only [machine, env] at hx
        split at hx
        · obtain ⟨hw, -⟩ : _ ∧ _ := by simpa only [Option.some.injEq, Prod.mk.injEq] using hx
          rw [← hw]
          rfl
        · exact absurd hx (by simp)
      | close p =>
        simp only [machine, env] at hx
        split at hx
        · obtain ⟨hw, -⟩ : _ ∧ _ := by simpa only [Option.some.injEq, Prod.mk.injEq] using hx
          rw [← hw]
          rfl
        · exact absurd hx (by simp)
      | _ =>
        obtain ⟨hw, -⟩ : _ ∧ _ := by
          simpa only [machine, env, Option.some.injEq, Prod.mk.injEq] using hx
        rw [← hw]
    rw [hsame] at hq
    exact Or.inr ⟨q, σ, hq, hnow, rfl⟩

/-- The row of a dead run, later. -/
def StillDead (r : RunRow) (w : World) : Prop := ∃ r' ∈ w.db.runs, SameRun r r' ∧ Dead w r'

theorem StillDead.step (h : Reachable true c) {mv : Move Choice Env} (hmv : Legal true c mv)
    (hs : machine.step c mv = some c') {r : RunRow} (hd : StillDead r c.world) :
    StillDead r c'.world := by
  obtain ⟨r', hr', hsame, hdead⟩ := hd
  have hevo := h.evolution hmv hs
  -- a failed or blocked row is terminal
  have hterminal : (r'.status = .failed ∨ r'.status = .blocked) → StillDead r c'.world := by
    intro hstatus
    refine ⟨r', hevo.terminal h.inv.db hr' ?_, hsame, hstatus.imp id Or.inl⟩
    rcases hstatus with hstatus | hstatus
    · rw [hstatus]
      rfl
    · rw [hstatus]
      rfl
  rcases hdead with hfailed | hblocked | ⟨hactive, lease, hlease, hover, hread⟩
  · exact hterminal (Or.inl hfailed)
  · exact hterminal (Or.inr hblocked)
  · rcases hevo.changes h.inv hr' with hkept | ⟨q, σ, now, new, hc⟩
    · refine ⟨r', hkept, hsame, Or.inr (Or.inr ⟨hactive, lease, hlease, ?_, ?_⟩)⟩
      · exact Nat.le_trans hover hevo.clock
      · intro q σ now hq hnow hcarries
        rcases step_reading hs hq hnow with rfl | ⟨q', σ', hq', hnow', hcall⟩
        · exact hover
        · exact hread q' σ' now hq' hnow' (by rw [hcall, hcarries])
    · -- whoever changes it has read the clock at the end of the lease or later
      cases hf : hc.fenced with
      | owner htoken hcarries hlease' hbefore =>
        have hle := hread q σ now hc.session hc.reading (by rw [hcarries, htoken])
        rw [hlease] at hlease'
        rw [Option.some.inj hlease'] at hle
        exact absurd hbefore (Nat.not_lt_of_le hle)
      | expired hlease' hafter => exact ⟨_, hc.row, hsame.trans hc.same, Or.inl rfl⟩

theorem StillDead.reaches (h : Reachable true c) (hr : machine.Reaches (Legal true) c c')
    {r : RunRow} (hd : StillDead r c.world) : StillDead r c'.world := by
  induction hr with
  | refl => exact hd
  | step hr' hok hs ih => exact StillDead.step (h.reaches hr') hok hs ih

theorem Dead.not_succeeded {w : World} {r : RunRow} (h : Dead w r) : r.status ≠ .succeeded := by
  rcases h with h | h | h
  · rw [h]
    exact fun hs => RunStatus.noConfusion hs
  · rw [h]
    exact fun hs => RunStatus.noConfusion hs
  · intro hs
    have hactive := h.active
    rw [hs] at hactive
    exact Bool.noConfusion hactive

/-- A later call does not enter the invoker for a key that has a row. -/
theorem Reachable.late_enter (h : Reachable true c) (hr : machine.Reaches (Legal true) c c')
    {r : RunRow} (hrow : r ∈ c.world.db.runs) (hagent : r.agentId = agentId)
    (hkey : r.idempotencyKey = some key) {p : Pid} (hidle : c.world.kind p = .idle) {e : Event}
    (he : e ∈ c'.world.log) (hby : e.isBy p = true) : e.entersFor agentId key = none := by
  cases hfor : e.entersFor agentId key with
  | none => rfl
  | some runId =>
    have h' := h.reaches hr
    -- the run is the one of the row, and somebody drew its identifier before
    obtain ⟨r', hr', hsame⟩ := h.preserved (A := fun w => ∃ r' ∈ w.db.runs, SameRun r r')
      (fun w w' hi _ hevo ⟨a, ha, hsame⟩ => by
        rcases hevo.changes hi ha with hkept | ⟨q, σ, now, new, hc⟩
        · exact ⟨a, hkept, hsame⟩
        · exact ⟨new, hc.row, hsame.trans hc.same⟩) hr ⟨r, hrow, .refl r⟩
    have hid :=
      h'.entered_row he hfor hr' (hsame.agentId.trans hagent) (hsame.idempotencyKey.trans hkey)
    obtain ⟨q, rfl⟩ := Event.entersFor_some hfor
    obtain rfl : q = p := by simpa [Event.isBy] using hby
    have hmint := h'.inv.enteredBy q runId agentId (some key) he
    obtain ⟨owner, howner, -⟩ := (h.inv.rowsPriv rfl).minted r hrow
    have hlater := h.preserved (A := fun w => w.mint r.id = some owner)
      (fun w w' _ _ hevo hm => hevo.mint _ _ hm) hr howner
    rw [← hsame.id, hid, hmint] at hlater
    rw [← Option.some.inj hlater] at howner
    exact absurd hidle (h.inv.minted_started howner)

/-- **Idempotency keys: at most one execution.** The entries of a key are entries for its one row,
and distinct entries are entries for distinct runs. -/
theorem Reachable.oncePerKey (h : Reachable true c) (agentId key : String) :
    OncePerKey c agentId key where
  entered := ⟨h.entered_once, fun _ he _ hfor _ hr => h.entered_row he hfor hr⟩
  stored _ _ _ hasked ha := h.answered_row hasked ha
  closed r hr hagent hkey hdead c' hreach p hidle := by
    refine ⟨fun e he hby => h.late_enter hreach hr hagent hkey hidle he hby, ?_⟩
    intro hash response hasked ha
    have h' := h.reaches hreach
    obtain ⟨r', hr', hrow, hstatus, -⟩ := h'.answered_row hasked ha
    -- the row that has answered is the dead one
    obtain ⟨r₁, hr₁, hsame, hdead'⟩ := StillDead.reaches h hreach ⟨r, hr, .refl r, hdead⟩
    have hagent' : r'.agentId = agentId := congrArg Prod.fst hrow
    have hkey' : r'.idempotencyKey = some key := congrArg (fun x => x.2.1) hrow
    have hsameRow := h'.inv.db.one_row hr' hr₁ hagent' hkey' (hsame.agentId.trans hagent)
      (hsame.idempotencyKey.trans hkey)
    exact hdead'.not_succeeded (hsameRow ▸ hstatus)

/-- The response that is stored is the one that is answered exactly where the invoker's metadata
is lossless JSON. -/
theorem Reachable.atMostOnce_iff (h : Reachable true c) (agentId key : String) :
    AtMostOnce c agentId key ↔ LosslessOutputs c agentId key := by
  constructor
  · intro honce p hash metadata hasked hw
    obtain ⟨response, r, ha, hr, -, hlossless⟩ := hw.origin h
    obtain ⟨r', hr', hrow, -, hexact⟩ := honce.answered p hash response hasked ha
    have hrow' : r.asked = (agentId, some key, hash) :=
      Option.some.inj (hr.asked.symm.trans hasked)
    have hsame : r = r' := h.inv.db.one_row hr.mem hr' (congrArg Prod.fst hrow')
      (congrArg (fun x => x.2.1) hrow') (congrArg Prod.fst hrow) (congrArg (fun x => x.2.1) hrow)
    exact hlossless (hsame ▸ hexact)
  · intro hlossless
    refine ⟨h.oncePerKey agentId key, fun p hash response hasked ha => ?_⟩
    obtain ⟨r, hr⟩ := h.answered ha
    refine ⟨r, hr.mem, Option.some.inj (hr.asked.symm.trans hasked), hr.status, ?_⟩
    exact hr.exact ha fun metadata hw => hlossless p hash metadata hasked hw

/-- **Idempotency keys: at most one execution, and one answer.** Whatever is returned, the key has
one execution and one stored response; every call returns that response if and only if the
metadata the invoker returned is lossless JSON. -/
theorem Reachable.atMostOnce (h : Reachable true c) (agentId key : String) :
    OncePerKey c agentId key ∧ (AtMostOnce c agentId key ↔ LosslessOutputs c agentId key) :=
  ⟨h.oncePerKey agentId key, h.atMostOnce_iff agentId key⟩

end Idempotency

-- ---------------------------------------------------------------------------
-- A tuple in the metadata
-- ---------------------------------------------------------------------------

namespace Sample

/-- The output of the sample run, with a tuple in its metadata. -/
def tupledOutput : InvocationOutput := { output with metadata := tupled }

/-- The sample run with that output, and the same call again, from its start to its replay. -/
def tupledInvocation : List (Move Choice Env) :=
  .env (.start 1 (.invoke runtime "agent" request (some "key"))) :: ok 1 1 ++
    .run 1 (.uuid 30) :: ok 1 2 ++ .run 1 (.uuid 100) :: ok 1 4 ++ .run 1 (.uuid 10) ::
    ok 1 19 ++ .run 1 (.output tupledOutput) :: ok 1 1 ++ .run 1 (.trace none) ::
    ok 1 12 ++ .run 1 (.flag false) ::
  -- the replay
  .env (.start 2 (.invoke runtime "agent" request (some "key"))) :: ok 2 1 ++
    .run 2 (.uuid 31) :: ok 2 4 ++ [.run 2 (.flag false)]

set_option maxRecDepth 8000 in
/-- Where `tupledInvocation` ends. -/
def tupledInvoked : Cfg := (machine.run (Cfg.initial 0) tupledInvocation).get (by decide)

theorem reachable_tupledInvoked (priv : Bool) : Reachable priv tupledInvoked :=
  .of_schedule (by decide) (Option.some_get _).symm

set_option maxRecDepth 8000 in
/-- The first caller gets the tuple, and the replay a list. -/
theorem answered_tupledInvoked :
    HasAnswered tupledInvoked 1 { stored tupled with
      runId := 10, requestId := 20, threadId := 100, agent := agent, message := reply
      usage := none } ∧
    HasAnswered tupledInvoked 2 { stored listed with
      runId := 10, requestId := 20, threadId := 100, agent := agent, message := reply
      usage := none } := ⟨rfl, rfl⟩

end Sample

set_option maxRecDepth 8000 in
/-- Two calls with one key: the invoker is entered once, and both answer. -/
theorem Sample.key_replayed :
    (Sample.tupledInvoked.world.log.filterMap (Event.entersFor "agent" "key")).length = 1 ∧
      OncePerKey Sample.tupledInvoked "agent" "key" ∧
      (AtMostOnce Sample.tupledInvoked "agent" "key" ↔
        LosslessOutputs Sample.tupledInvoked "agent" "key") := by
  constructor
  · decide
  · exact (Sample.reachable_tupledInvoked true).atMostOnce "agent" "key"

set_option maxRecDepth 8000 in
/-- The two answers of the key differ, and the row holds the second. -/
theorem Sample.tupled_differs_stored : Reachable true Sample.tupledInvoked ∧
    (∃ r, HasAnswered Sample.tupledInvoked 1 r ∧ r.metadata = Sample.tupled) ∧
    (∃ r, HasAnswered Sample.tupledInvoked 2 r ∧ r.metadata = Sample.listed) ∧
    ¬AtMostOnce Sample.tupledInvoked "agent" "key" := by
  have hreach := Sample.reachable_tupledInvoked true
  have hanswered := Sample.answered_tupledInvoked
  refine ⟨hreach, ⟨_, hanswered.1, rfl⟩, ⟨_, hanswered.2, rfl⟩, ?_⟩
  intro honce
  have hlossless := (hreach.atMostOnce_iff "agent" "key").mp honce
  have hcleanup : Sample.tupledInvoked.world.cleanup 1 = none := rfl
  have hreturned : Returned Sample.tupledInvoked.world 1 Sample.tupled :=
    ⟨.ofOutput Sample.tupledOutput, rfl, Sample.tupledOutput, List.mem_cons_self, rfl⟩
  have htuple : Sample.tupled.isLossless = true :=
    hlossless 1 _ Sample.tupled rfl ⟨⟨_, hanswered.1⟩, hcleanup, hreturned⟩
  exact absurd htuple (by decide)

end AgentRuntimeKit
