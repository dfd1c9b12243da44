import AgentRuntimeKit.Protocol.Balance
import AgentRuntimeKit.Protocol.Confinement

/-!
# Balanced transcripts, along every run

The history that a turn has read is what its thread holds when the turn commits, and the turn
extends that history to well-formed messages only. So every transcript is well formed after every
commit, if nobody else writes messages.

## Results

* `exec_calls`        — where the call of an open transaction comes from.
* `Staged.current`    — the history of a completion is in the log.
* `Selected.balanced` — the transcripts, in every run of this kind.
-/

namespace AgentRuntimeKit

open Lib Prog

-- ---------------------------------------------------------------------------
-- Runs of this kind
-- ---------------------------------------------------------------------------

/-- A task that stores messages only as the turn of a runtime with a context window. -/
def Task.selects : Task → Bool
  | .invoke rt _ _ _ | .stream rt _ _ _ => rt.contextWindow.isSome
  | .call (.appendMessages _ _ _) => false
  | .call c => c.isPublic

/-- An invoker answers what a native agent puts out for the messages it is given. -/
def NativeAnswer : Op → Choice → Prop
  | .awaitInvoker messages, .output output => NativeOutput messages output
  | .openSource messages, .source source => NativeSource messages source
  | _, _ => True

/-- Callers start only such tasks, and all agents are native. -/
structure Selecting (c : Cfg) (mv : Move Choice Env) : Prop where
  started : ∀ p t, mv = .env (.start p t) → t.selects = true
  native : ∀ p, Performs p (fun _ o ch => NativeAnswer o ch) c mv

/-- Configurations that such runs reach. -/
def Selected (c : Cfg) : Prop := ∃ clock, machine.Reaches Selecting (Cfg.initial clock) c

theorem Task.isRuntime_of_selects {t : Task} (h : t.selects = true) : t.isRuntime = true := by
  cases t with
  | call c =>
    cases c
    all_goals first
      | rfl
      | exact absurd h Bool.false_ne_true
  | _ => rfl

theorem Selecting.legal {c : Cfg} {mv : Move Choice Env} (h : Selecting c mv) : Legal true c mv :=
  fun e he _ p t ht => Task.isRuntime_of_selects (h.started p t (by rw [he, ht]))

theorem Selected.reachable {c : Cfg} (h : Selected c) : Reachable true c := by
  obtain ⟨clock, hr⟩ := h
  induction hr with
  | refl => exact ⟨clock, .refl⟩
  | step _ hmv hs ih => exact ih.step hmv.legal hs

-- ---------------------------------------------------------------------------
-- One operation
-- ---------------------------------------------------------------------------

section Operations

variable {priv : Bool} {w w' : World} {p q : Pid} {σ : Session} {o : Op} {c : Choice}
  {r : Except Exn (Res o)} {fs : Forks}

/-- The call of an open transaction was there, or it begins. -/
theorem exec_calls (h : exec p w o c = some (r, w', fs)) (hσ : w'.session q = some σ) :
    (∃ q₀ σ₀, w.session q₀ = some σ₀ ∧ σ₀.call = σ.call ∧ σ₀.client = σ.client) ∨
      (o = .begin σ.call ∧ σ.client = p) := by
  cases exec_sessions h hσ with
  | kept h₀ => exact Or.inl ⟨q, σ, h₀, rfl, rfl⟩
  | @reading σ₀ _ h₀ heq => exact Or.inl ⟨p, σ₀, h₀, by rw [heq], by rw [heq]⟩
  | @flushed σ₀ x _ h₀ heq => exact Or.inl ⟨p, σ₀, h₀, by rw [heq], by rw [heq]⟩
  | handed h₀ => exact Or.inl ⟨p, σ, h₀, rfl, rfl⟩
  | begun hq heq =>
    subst hq
    by_cases hstate : o.leavesState = true
    · rw [(leaves_state hstate h).1] at hσ
      exact Or.inl ⟨q, σ, hσ, rfl, rfl⟩
    · have hclient : σ.client = q := by rw [heq]
      have hupdate : ∀ {x : Option Session}, Function.update w.session q x q = some σ →
          x = some σ := fun hx => (Function.update_self q _ w.session).symm.trans hx
      have hover : ∀ {q' : Pid} {σ₀ : Session},
          Function.update (Function.update w.session q none) q' (some σ₀) q = some σ → σ₀ = σ := by
        intro q' σ₀ hx
        by_cases hq : q = q'
        · subst hq
          exact Option.some.inj ((Function.update_self q _ _).symm.trans hx)
        · rw [Function.update_of_ne hq, Function.update_self] at hx
          exact absurd hx (by simp)
      cases o
      all_goals first
        | exact absurd rfl hstate
        | skip
      all_goals cases c
      all_goals simp only [exec, execOk, answer] at h
      all_goals repeat' split at h
      all_goals first
        | obtain ⟨-, rfl, -⟩ : _ ∧ _ ∧ _ := by
            simpa only [Option.some.injEq, Prod.mk.injEq] using h
        | exact absurd h (by simp)
      all_goals first
        | exact Or.inl ⟨q, σ, hσ, rfl, rfl⟩
        | (have hsome := Option.some.inj (hupdate hσ)
           exact Or.inl ⟨q, _, by assumption, by rw [← hsome], by rw [← hsome]⟩)
        | (have hsome := Option.some.inj (hupdate hσ)
           exact Or.inr ⟨by rw [← hsome], hclient⟩)
        | exact Or.inl ⟨q, _, by assumption, by rw [hover hσ], by rw [hover hσ]⟩
        | exact absurd (hupdate hσ) (by simp)

theorem env_kind {e : Env} (h : env w e = some (w', fs)) (q : Pid) :
    w'.kind q = w.kind q ∨ ∃ t, e = .start q t ∧ w'.kind q = .task t := by
  cases e with
  | start p t =>
    simp only [env] at h
    split at h
    · obtain ⟨rfl, -⟩ : _ ∧ _ := by simpa only [Option.some.injEq, Prod.mk.injEq] using h
      by_cases hq : q = p
      · rw [hq]
        exact Or.inr ⟨t, rfl, Function.update_self _ _ _⟩
      · exact Or.inl (Function.update_of_ne hq _ _)
    · exact absurd h (by simp)
  | _ =>
    simp only [env] at h
    repeat' split at h
    all_goals first
      | (obtain ⟨rfl, -⟩ : _ ∧ _ := by simpa only [Option.some.injEq, Prod.mk.injEq] using h
         exact Or.inl rfl)
      | exact absurd h (by simp)

/-- A task was there, or it is started. -/
theorem step_kind {c c' : Cfg} {mv : Move Choice Env} (hs : machine.step c mv = some c')
    {t : Task} (hkind : c'.world.kind q = .task t) :
    c.world.kind q = .task t ∨ mv = .env (.start q t) := by
  rcases Machine.step_cases hs with ⟨p, ch, o, k, r, fs, rfl, hp, hx, -⟩ | ⟨e, fs, rfl, hx, -⟩
  · rcases (exec_frame hx).kind q with hsame | ⟨-, hnot⟩
    · exact Or.inl (hsame.symm.trans hkind)
    · rw [hkind] at hnot
      exact absurd hnot (by simp [Kind.isTask])
  · rcases env_kind hx q with hsame | ⟨t', rfl, hstart⟩
    · exact Or.inl (hsame.symm.trans hkind)
    · rw [Kind.task.inj (hstart.symm.trans hkind)]
      exact Or.inr rfl

theorem Evolution.log_subset (h : Evolution w w') : w.log ⊆ w'.log := by
  rcases h.tables with ⟨-, new, hlog, -⟩ | ⟨q, σ, hc⟩
  · rw [hlog]
    exact List.subset_append_right _ _
  · rw [hc.log]
    exact List.subset_cons_self _ _

-- ---------------------------------------------------------------------------
-- Histories
-- ---------------------------------------------------------------------------

/-- `rows` is the history that `p` has read, if it has read one. -/
def ReadsOnly (p : Pid) (rows : List MessageRow) (log : List Event) : Prop :=
  ∀ t found, .history p t found ∈ log → found = rows

theorem ReadsOnly.before {rows : List MessageRow} (h : ReadsOnly p rows w'.log)
    (hevo : Evolution w w') : ReadsOnly p rows w.log :=
  fun t found hmem => h t found (hevo.log_subset hmem)

theorem Inv.readsOnly (hi : Inv priv w) {t : Uuid} {rows : List MessageRow}
    (h : .history p t rows ∈ w.log) : ReadsOnly p rows w.log := by
  obtain ⟨newer, older, hlog⟩ := List.append_of_mem h
  have honce := hi.readOnce
  have hreader : Event.reader (.history p t rows) = some p := rfl
  rw [hlog, List.filterMap_append, List.filterMap_cons_some hreader, List.nodup_middle,
    List.nodup_cons, ← List.filterMap_append] at honce
  intro t' found hfound
  rw [hlog] at hfound
  have hnot : .history p t' found ∉ newer ++ older :=
    fun hmem => honce.1 (List.mem_filterMap.mpr ⟨_, hmem, rfl⟩)
  rcases List.mem_append.mp hfound with hnewer | hrest
  · exact absurd (List.mem_append_left older hnewer) hnot
  · rcases List.mem_cons.mp hrest with hsame | holder
    · exact (Event.history.inj hsame).2.2
    · exact absurd (List.mem_append_right newer holder) hnot

theorem Inv.exists_readsOnly (hi : Inv priv w) (p : Pid) : ∃ rows, ReadsOnly p rows w.log := by
  by_cases hread : ∃ t rows, .history p t rows ∈ w.log
  · obtain ⟨t, rows, hmem⟩ := hread
    exact ⟨rows, hi.readsOnly hmem⟩
  · exact ⟨[], fun t found hmem => absurd ⟨t, found, hmem⟩ hread⟩

/-- An invocation that completes its run has read what the thread holds. -/
theorem Staged.current (h : Staged w q σ) {runId token : Uuid} {messages : List Message}
    {response : RuntimeResponse} (hcall : σ.call = .complete runId token messages response)
    (hinvocation : (w.kind σ.client).isInvocation = true)
    (hturns : ∀ e ∈ w.log, ∀ t, e.appends t = false) :
    .history σ.client response.threadId (w.db.messagesOf response.threadId) ∈ w.log := by
  cases h with
  | nothing _ _ hcompletes =>
    rw [hcall] at hcompletes
    exact absurd hcompletes (by simp [Call.completes])
  | update _ _ _ _ _ _ hcompletes =>
    rw [hcall] at hcompletes
    exact absurd hcompletes (by simp [Call.completes])
  | insert hclaim => exact absurd (hcall.symm.trans hclaim) (by simp)
  | append happend => exact absurd (hcall.symm.trans happend) (by simp)
  | thread hcreate => exact absurd (hcall.symm.trans hcreate) (by simp)
  | @finish now old token' messages' response' hcomplete _ _ _ _ _ hcheck hhistory =>
    obtain ⟨-, -, -, rfl⟩ := Call.complete.inj (hcall.symm.trans hcomplete)
    rw [(checkCompletion_ok hcheck).2.2.1]
    rcases hhistory hinvocation with ⟨e, he, happends⟩ | ⟨newer, older, hlog, -⟩
    · rw [hturns e he] at happends
      exact absurd happends Bool.false_ne_true
    · rw [hlog]
      exact List.mem_append_cons_self

end Operations

-- ---------------------------------------------------------------------------
-- The invariant
-- ---------------------------------------------------------------------------

/-- What holds in every such run. -/
structure BalancedCfg (c : Cfg) : Prop where
  kinds : ∀ p t, c.world.kind p = .task t → t.selects = true
  procs : ∀ p m, c.procs p = some m → c.world.kind p ≠ .idle ∧
    ∀ rows, ReadsOnly p rows c.world.log → Balances (c.world.kind p) rows m
  sessions : ∀ q σ, c.world.session q = some σ → ∀ rows, ReadsOnly σ.client rows c.world.log →
    σ.call.Extends (c.world.kind σ.client) rows
  turns : ∀ e ∈ c.world.log, ∀ t, e.appends t = false
  threads : ∀ t, WellFormed ((c.world.db.messagesOf t).map MessageRow.message)

section Invariant

variable {c c' : Cfg} {mv : Move Choice Env}

theorem task_balances {w : World} {p : Pid} {m : P Answer} (h : TaskOf true p m w)
    (hselects : ∀ t, w.kind p = .task t → t.selects = true) (rows : List MessageRow) :
    w.kind p ≠ .idle ∧ Balances (w.kind p) rows m := by
  unfold TaskOf at h
  cases hkind : w.kind p with
  | idle =>
    rw [hkind] at h
    exact h.elim
  | task t =>
    rw [hkind] at h
    obtain ⟨rfl, -⟩ := h
    refine ⟨Kind.noConfusion, ?_⟩
    have ht := hselects t hkind
    cases t with
    | invoke rt agentId request key =>
      exact under_bind (invokeTracked_balances rfl ht _ _ _) fun _ => under_done _
    | stream rt agentId request key => exact produce_balances rfl ht _ _ _
    | call call =>
      cases call with
      | recover runId => exact under_bind (recover_neutral _).balances fun _ => under_done _
      | recoverExpired limit =>
        exact under_bind (recoverExpired_neutral _).balances fun _ => under_done _
      | createThread name user =>
        exact under_bind (createThread_neutral _ _).balances fun _ => under_done _
      | _ => exact absurd ht Bool.false_ne_true
  | cleanup parent status =>
    rw [hkind] at h
    obtain ⟨-, -, runId, token, code, rfl, -⟩ := h
    exact ⟨Kind.noConfusion, (cleanupTask_neutral _ _ _ _).balances⟩
  | resolver client =>
    rw [hkind] at h
    obtain ⟨rfl, -⟩ := h
    exact ⟨Kind.noConfusion, under_step trivial fun _ => under_done _⟩

/-- What an operation answers in such a run. -/
theorem Selecting.gives {p : Pid} {ch : Choice} {o : Op} {k : Except Exn (Res o) → P Answer}
    {r : Except Exn (Res o)} {fs : Forks} {rows : List MessageRow} (h : Selecting c (.run p ch))
    (hp : c.procs p = some (.op o k)) (hx : exec p c.world o ch = some (r, c'.world, fs))
    (hreads : ReadsOnly p rows c'.world.log) : o.Gives rows r := by
  have hnative := h.native p ch o k rfl hp
  cases o with
  | transcript t =>
    cases r with
    | error e => trivial
    | ok found =>
      rcases exec_plain rfl hx with hx | ⟨e, he, -⟩
      · obtain ⟨hfound, hworld, -⟩ : _ ∧ _ ∧ _ := by
          simpa only [execOk, answer, Option.some.injEq, Prod.mk.injEq, Except.ok.injEq] using hx
        refine hreads t found ?_
        rw [← hworld, hfound]
        exact List.mem_cons_self
      · exact absurd he (by simp)
  | awaitInvoker messages =>
    cases r with
    | error e => trivial
    | ok output =>
      cases ch
      all_goals simp only [exec, execOk, answer] at hx
      all_goals repeat' split at hx
      all_goals first
        | obtain ⟨rfl, -, -⟩ : _ ∧ _ ∧ _ := by
            simpa only [Option.some.injEq, Prod.mk.injEq, Except.ok.injEq] using hx
        | exact absurd hx (by simp)
      exact NativeOutput.wellFormed hnative
  | openSource messages =>
    cases r with
    | error e => trivial
    | ok source =>
      cases ch
      all_goals simp only [exec, execOk, answer] at hx
      all_goals repeat' split at hx
      all_goals first
        | obtain ⟨rfl, -, -⟩ : _ ∧ _ ∧ _ := by
            simpa only [Option.some.injEq, Prod.mk.injEq, Except.ok.injEq] using hx
        | exact absurd hx (by simp)
      exact fun hending before output hevents => NativeSource.wellFormed hnative hending hevents
  | _ => cases r <;> trivial

/-- A commit extends one transcript to well-formed messages. -/
theorem BalancedCfg.commits (h : BalancedCfg c) (hi : Inv true c.world) {w' : World} {q : Pid}
    {σ : Session} (hc : Commits c.world w' q σ) (t : Uuid) :
    WellFormed ((w'.db.messagesOf t).map MessageRow.message) := by
  obtain ⟨rows, hrows, hbatch, -⟩ := hc.staged.messagesOf t
  rw [hc.db, hrows, List.map_append, hbatch]
  obtain ⟨read, hread⟩ := hi.exists_readsOnly σ.client
  have hextends := h.sessions q σ hc.session
  have hplain : σ.call.batchOn t = [] →
      WellFormed ((c.world.db.messagesOf t).map MessageRow.message ++ σ.call.batchOn t) := by
    intro hempty
    rw [hempty, List.append_nil]
    exact h.threads t
  cases hcall : σ.call with
  | complete runId token messages response =>
    rw [hcall] at hplain hextends
    by_cases ht : response.threadId = t
    · have hinvocation := (hextends read hread).1
      have hcurrent := hc.staged.current hcall hinvocation h.turns
      rw [Call.batchOn, if_pos ht]
      rw [ht] at hcurrent
      exact (hextends _ (hi.readsOnly hcurrent)).2
    · exact hplain (if_neg ht)
  | appendMessages t' messages name =>
    rw [hcall] at hextends
    exact (hextends read hread).elim
  | _ =>
    rw [hcall] at hplain
    exact hplain rfl

/-- One move. -/
theorem BalancedCfg.move (h : BalancedCfg c) (hc : Reachable true c) (hmv : Selecting c mv)
    (hs : machine.step c mv = some c') : BalancedCfg c' := by
  have hi := hc.inv
  have hevo := hc.evolution hmv.legal hs
  have hkinds : ∀ p t, c'.world.kind p = .task t → t.selects = true := by
    intro p t hkind
    rcases step_kind hs hkind with hbefore | hstart
    · exact h.kinds p t hbefore
    · exact hmv.started p t hstart
  refine ⟨hkinds, fun p m hp => ?_, fun q σ hσ rows hreads => ?_, fun e he t => ?_, fun t => ?_⟩
  · rcases Machine.step_proc hs hp with hnew | hsame | ⟨ch, o, k, r, fs, rfl, hbefore, hx, rfl⟩
    · have hstarted := hc.started hmv.legal hs hnew hp
      exact ⟨(task_balances hstarted (hkinds p) []).1,
        fun rows _ => (task_balances hstarted (hkinds p) rows).2⟩
    · obtain ⟨hstarted, hall⟩ := h.procs p m hsame
      rw [hevo.kind p hstarted]
      exact ⟨hstarted, fun rows hreads => hall rows (hreads.before hevo)⟩
    · obtain ⟨hstarted, hall⟩ := h.procs p _ hbefore
      rw [hevo.kind p hstarted]
      refine ⟨hstarted, fun rows hreads => ?_⟩
      have hnext := (hall rows (hreads.before hevo)).2 r (hmv.gives hbefore hx hreads)
      exact Tame.mono hnext fun _ _ => trivial
  · have hsession : ∀ q₀ σ₀, c.world.session q₀ = some σ₀ → σ₀.call = σ.call →
        σ₀.client = σ.client → σ.call.Extends (c'.world.kind σ.client) rows := by
      intro q₀ σ₀ h₀ hcall hclient
      have hstarted := ((hi.proc q₀).session σ₀ h₀).started
      rw [hclient] at hstarted
      rw [hevo.kind _ hstarted, ← hcall, ← hclient]
      exact h.sessions q₀ σ₀ h₀ rows (hclient ▸ hreads.before hevo)
    rcases Machine.step_cases hs with ⟨p, ch, o, k, r, fs, rfl, hp, hx, -⟩ | ⟨e, fs, rfl, hx, -⟩
    · rcases exec_calls hx hσ with ⟨q₀, σ₀, h₀, hcall, hclient⟩ | ⟨rfl, hclient⟩
      · exact hsession q₀ σ₀ h₀ hcall hclient
      · obtain ⟨hstarted, hall⟩ := h.procs p _ hp
        rw [hclient] at hreads
        rw [hclient, hevo.kind p hstarted]
        exact (hall rows (hreads.before hevo)).1
    · rw [(Scoped.env_frame hx).1] at hσ
      exact hsession q σ hσ rfl rfl
  · rcases hevo.tables with ⟨-, new, hlog, hplain⟩ | ⟨q, σ, hcommit⟩
    · rw [hlog] at he
      rcases List.mem_append.mp he with hnew | hold
      · have hnot := hplain e hnew
        cases e with
        | commit σ before => exact absurd hnot (by simp [Event.isCommit])
        | _ => rfl
      · exact h.turns e hold t
    · rw [hcommit.log] at he
      rcases List.mem_cons.mp he with rfl | hold
      · obtain ⟨rows, hreads⟩ := hi.exists_readsOnly σ.client
        have hextends := h.sessions q σ hcommit.session rows hreads
        cases hcall : σ.call with
        | appendMessages t' messages name =>
          rw [hcall] at hextends
          exact hextends.elim
        | _ => simp only [Event.appends, hcall]
      · exact h.turns e hold t
  · rcases hevo.tables with ⟨hdb, -⟩ | ⟨q, σ, hcommit⟩
    · rw [hdb]
      exact h.threads t
    · exact h.commits hi hcommit t

theorem Selected.balanced (h : Selected c) : BalancedCfg c := by
  obtain ⟨clock, hr⟩ := h
  induction hr with
  | refl =>
    exact {
      kinds := fun p t hkind => Kind.noConfusion hkind
      procs := fun p m hp => absurd hp (by simp [Cfg.initial])
      sessions := fun q σ hσ => absurd hσ (by simp [Cfg.initial, World.initial])
      turns := fun e he => absurd he List.not_mem_nil
      threads := fun t => (Exchange.wellFormed_iff _).mpr rfl }
  | step hbefore hmv hs ih =>
    have hselected : Selected _ := ⟨clock, hbefore⟩
    exact ih.move hselected.reachable hmv hs

end Invariant

end AgentRuntimeKit
