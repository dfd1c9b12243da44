import AgentRuntimeKit.Protocol.Execution

/-!
# Deadline and clean-up, checked

`_invoke_with_deadline` around `_execute`, and the clean-up task that it starts. Once
`_execute` has ended, an invocation opens no transaction any more: it is `Resting`, and its
clean-up, if it has one, is the only process that still works for its run.

## Results

* `timeoutScope_triple`  — `asyncio.timeout` around a body.
* `cleanupTask_triple`   — the clean-up ends with what it found.
* `invokeTracked_triple` — a whole invocation, reconciled with the durable row.
* `produce_triple`       — the producer of a stream.
-/

namespace AgentRuntimeKit

open Lib Prog

-- ---------------------------------------------------------------------------
-- Outside of transactions for good
-- ---------------------------------------------------------------------------

/-- What `p` is once it opens no transaction any more. -/
structure Parked (p : Pid) (κ : Kind) (L : List Call) (c : Option Pid) (w : World) : Prop where
  kind : w.kind p = κ
  session : w.session p = none
  cleanup : w.cleanup p = c
  acked : w.acked p = L

/-- What an invocation knows once it opens no transaction any more. -/
def Resting (p : Pid) (κ : Kind) (L : List Call) (c : Option Pid) (k : Kept) (F : World → Prop)
    (w : World) : Prop :=
  Parked p κ L c w ∧ Turn p k w ∧ F w

section Resting

variable {priv : Bool} {p : Pid} {κ : Kind} {L : List Call} {c : Option Pid} {k : Kept}
  {F : World → Prop} {task : Pid → P Answer → World → Prop}
  {post : Pid → Except Exn Answer → World → Prop}

theorem Closed.parked {w : World} (h : Closed p κ L w) : Parked p κ L none w :=
  ⟨h.kind, h.session, h.cleanup, h.acked⟩

theorem Parked.started {w : World} (h : Parked p κ L c w) (hκ : κ ≠ .idle) : w.kind p ≠ .idle := by
  rw [h.kind]
  exact hκ

theorem Resting.stable (hκ : κ ≠ .idle) (hF : Durable priv p F) :
    (discipline priv task post).Stable p (Resting p κ L c k F) := by
  intro w w' hi hi' ho h
  have ha := ho.2 (h.1.started hκ)
  exact ⟨⟨ha.quiet.kind.trans h.1.kind, ha.session.trans h.1.session,
    ha.quiet.cleanup.trans h.1.cleanup, ha.acked.trans h.1.acked⟩,
    Turn.lasts w w' hi hi' ha.quiet h.2.1, hF.lasts w w' hi hi' ha.quiet h.2.2⟩

/-- What `p` knows is kept by a step that changes only its own state. -/
theorem Resting.own {w w' : World} {k' : Kept} (hi : Inv priv w) (hstep : StepOk priv p w w')
    (hF : Durable priv p F) (h : Resting p κ L c k F w) (hkind : w'.kind p = w.kind p)
    (hsession : w'.session p = w.session p) (hcleanup : w'.cleanup p = w.cleanup p)
    (hacked : w'.acked p = w.acked p) (hturn : Turn p k' w') : Resting p κ L c k' F w' := by
  have hevo : Evolution w w' := (hstep.other (p + 1) (Nat.succ_ne_self p)).1
  exact ⟨⟨hkind.trans h.1.kind, hsession.trans h.1.session, hcleanup.trans h.1.cleanup,
    hacked.trans h.1.acked⟩, hturn, hF w w' hi hstep.inv hevo hkind h.2.2⟩

section Rules

variable {α : Type} {Q : Except Exn α → World → Prop}

/-- `queue.put`, when nothing else is left to do. It is cancelled only on a full queue. -/
theorem putLast {item : Item} {f : Unit → P α} (hκ : κ ≠ .idle) (hF : Durable priv p F)
    (herr : 64 ≤ k.pushed.length → ∀ b w, Inv priv w → Resting p κ L c k F w →
      Q (.error (.cancelled b)) w)
    (hf : (discipline priv task post).Triple machine p (fun _ _ => True)
      (Resting p κ L c { k with pushed := k.pushed ++ [item] } F) (f ()) Q) :
    (discipline priv task post).Triple machine p (fun _ _ => True) (Resting p κ L c k F)
      (perform (.put item) >>= f) Q := by
  refine outside (C := fun _ => Resting p κ L c { k with pushed := k.pushed ++ [item] } F)
    (E := fun e w => Resting p κ L c k F w ∧ 64 ≤ k.pushed.length ∧ ∃ b, e = .cancelled b)
    (Resting.stable hκ hF) ?_ (fun e => ⟨(Resting.stable hκ hF).and (.const _), ?_⟩) fun _ => hf
  · intro w c r w' fs hi h hx
    obtain ⟨rfl, ⟨rfl, rfl⟩ | ⟨rfl, hfull, b, rfl⟩⟩ := exec_put hx
    · have hstep := StepOk.put item hi (h.1.started hκ)
      refine ⟨hstep, fun f hf => absurd hf List.not_mem_nil, ?_⟩
      exact h.own hi hstep hF rfl rfl rfl rfl h.2.1.put
    · rw [h.2.1.pushed] at hfull
      exact ⟨.refl hi, fun f hf => absurd hf List.not_mem_nil, h, hfull, b, rfl⟩
  · rintro w hi ⟨h, hfull, b, rfl⟩
    exact herr hfull b w hi h

/-- Leaving `asyncio.timeout`. -/
theorem disarmRule {f : Unit → P α} (hκ : κ ≠ .idle) (hF : Durable priv p F)
    (hf : (discipline priv task post).Triple machine p (fun _ _ => True)
      (Resting p κ L c k F) (f ()) Q) :
    (discipline priv task post).Triple machine p (fun _ _ => True) (Resting p κ L c k F)
      (perform .disarm >>= f) Q := by
  refine outside (C := fun _ => Resting p κ L c k F) (E := fun _ _ => False) (Resting.stable hκ hF)
    ?_ (fun e => ⟨fun _ _ _ _ _ h => h, fun _ _ h => h.elim⟩) fun _ => hf
  intro w c r w' fs hi h hx
  rcases exec_plain rfl hx with hx | ⟨e, rfl, rfl, rfl, hmay⟩
  · simp only [execOk] at hx
    obtain ⟨rfl, rfl, rfl⟩ : _ ∧ _ ∧ _ := by simpa [answer] using hx
    have hstep := StepOk.own w.mint (Function.update w.armed p false) w.stream w.source hi
      (h.1.started hκ) (fun _ _ hm => hm) (fun _ _ _ hm => hm)
      (fun q hq => Function.update_of_ne hq _ _) (fun _ _ => rfl) (fun _ _ => rfl)
      fun r hr he => ⟨r, hr, he⟩
    refine ⟨hstep, fun f hf => absurd hf List.not_mem_nil, ?_⟩
    exact h.own hi hstep hF rfl rfl rfl rfl
      ⟨h.2.1.runId, h.2.1.pushed, h.2.1.source, h.2.1.settled, h.2.1.reads, h.2.1.enters⟩
  · exact absurd hmay (by cases e <;> simp [Op.mayRaise, Op.suspends, Op.isStatement, Op.isForeign])

/-- `budget.expired()`. -/
theorem expiredRule {f : Bool → P α} (hκ : κ ≠ .idle) (hF : Durable priv p F)
    (hf : ∀ b, (discipline priv task post).Triple machine p (fun _ _ => True)
      (Resting p κ L c k F) (f b) Q) :
    (discipline priv task post).Triple machine p (fun _ _ => True) (Resting p κ L c k F)
      (perform .expired >>= f) Q := by
  refine outside (C := fun _ => Resting p κ L c k F) (E := fun _ _ => False) (Resting.stable hκ hF)
    ?_ (fun e => ⟨fun _ _ _ _ _ h => h, fun _ _ h => h.elim⟩) hf
  intro w ch r w' fs hi h hx
  cases ch with
  | flag b =>
    obtain ⟨rfl, rfl, rfl⟩ : _ ∧ _ ∧ _ := by simpa [exec, answer] using hx
    exact ⟨.refl hi, fun f hf => absurd hf List.not_mem_nil, h⟩
  | fail e =>
    exact absurd hx
      (by cases e <;> simp [exec, Op.mayRaise, Op.suspends, Op.isStatement, Op.isForeign])
  | _ => exact absurd hx (by simp [exec, execOk])

/-- Reading `state.run_id`. -/
theorem getRunIdRule {f : Option Uuid → P α} (hκ : κ ≠ .idle) (hF : Durable priv p F)
    (hf : (discipline priv task post).Triple machine p (fun _ _ => True)
      (Resting p κ L c k F) (f k.runId) Q) :
    (discipline priv task post).Triple machine p (fun _ _ => True) (Resting p κ L c k F)
      (perform .getRunId >>= f) Q := by
  refine outside (C := fun a w => Resting p κ L c k F w ∧ a = k.runId) (E := fun _ _ => False)
    (Resting.stable hκ hF) ?_ (fun e => ⟨fun _ _ _ _ _ h => h, fun _ _ h => h.elim⟩) ?_
  · intro w ch r w' fs hi h hx
    rcases exec_plain rfl hx with hx | ⟨e, rfl, rfl, rfl, hmay⟩
    · simp only [execOk, h.2.1.runId] at hx
      obtain ⟨rfl, rfl, rfl⟩ : _ ∧ _ ∧ _ := by simpa [answer] using hx
      exact ⟨.refl hi, fun f hf => absurd hf List.not_mem_nil, h, rfl⟩
    · exact absurd hmay
        (by cases e <;> simp [Op.mayRaise, Op.suspends, Op.isStatement, Op.isForeign])
  · rintro a w hi ⟨h, rfl⟩
    exact hf w hi h

end Rules

-- ---------------------------------------------------------------------------
-- Deadlines
-- ---------------------------------------------------------------------------

/-- `asyncio.timeout` around a body after which the process rests. -/
theorem timeoutScope_triple {β : Type} {body : P β}
    {G : Except Exn β → List Call → Kept → World → Prop} (hκ : κ ≠ .idle) (hF : Durable priv p F)
    (hG : ∀ r L k, Durable priv p (G r L k))
    (hbody : (discipline priv task post).Triple machine p (fun _ _ => True) (Holding p κ L k F) body
      fun r w => ∃ L k, Resting p κ L none k (G r L k) w)
    (hlate : ∀ L k w, G (.error (.cancelled true)) L k w → G (.error .timeout) L k w) :
    (discipline priv task post).Triple machine p (fun _ _ => True) (Holding p κ L k F)
      (timeoutScope body)
      fun r w => ∃ out b, r = .ok (out, b) ∧ ∃ L k, Resting p κ L none k (G out L k) w := by
  unfold timeoutScope
  refine armRule hκ hF (Or.inl rfl) fun _ => ?_
  rw [attempt_bind]
  refine Discipline.Triple.handle hbody fun r => ?_
  refine Discipline.Triple.exists fun L => Discipline.Triple.exists fun k => ?_
  refine disarmRule hκ (hG r L k) ?_
  -- only the cancellation of the deadline turns into something else
  have hother : (discipline priv task post).Triple machine p (fun _ _ => True)
      (Resting p κ L none k (G r L k)) (perform .expired >>= fun expired => pure (r, expired))
      fun r w => ∃ out b, r = .ok (out, b) ∧ ∃ L k, Resting p κ L none k (G out L k) w := by
    refine expiredRule hκ (hG r L k) fun b => ?_
    exact Discipline.Triple.done (Resting.stable hκ (hG r L k)) fun w _ h => ⟨r, b, rfl, L, k, h⟩
  split
  · refine Discipline.Triple.done (Resting.stable hκ (hG _ L k)) fun w _ h => ?_
    exact ⟨_, _, rfl, L, k, h.1, h.2.1, hlate L k w h.2.2⟩
  · exact hother

-- ---------------------------------------------------------------------------
-- The clean-up
-- ---------------------------------------------------------------------------

/-- The clean-up works for the run that its invocation has named. -/
def Cleaning (priv : Bool) (p : Pid) (runId : Uuid) (w : World) : Prop :=
  priv = true → ∀ parent status, w.kind p = .cleanup parent status →
    w.mint runId = some parent ∧ w.runId parent = some runId

theorem Cleaning.durable (runId : Uuid) : Durable priv p (Cleaning priv p runId) := by
  intro w w' hi _ hevo hsame h hpriv parent status hkind
  rw [hsame] at hkind
  obtain ⟨hmint, hrun⟩ := h hpriv parent status hkind
  have hcleanup := (hi.proc p).parent parent status hkind
  exact ⟨hevo.mint _ _ hmint, (hevo.runId parent (by rw [hcleanup]; rfl)).trans hrun⟩

theorem Found.unavailable (w : World) : Found priv p .unavailable w := fun _ _ _ _ => trivial

/-- A store call with which a process comes to rest. -/
theorem restingCall {β : Type} {m : P β} {call : Call} {A N : World → Prop} {C : β → World → Prop}
    {G : Except Exn β → World → Prop} (hκ : κ ≠ .idle) (hF : Durable priv p F)
    (hN : Lasts priv p N) (hC : ∀ b, Durable priv p (C b))
    (hm : (discipline priv task post).Triple machine p (Quiet p) (fun w => At p κ L none w ∧ A w) m
      (CallPost p κ L call N C))
    (hA : ∀ w, Inv priv w → F w → A w)
    (herr : ∀ e w, Inv priv w → F w → ((∃ m, e = .kit .runNotFound m) → N w) → G (.error e) w)
    (hok : ∀ b w, Inv priv w → F w → C b w → G (.ok b) w) :
    (discipline priv task post).Triple machine p (fun _ _ => True) (Holding p κ L k F) m
      fun r w => ∃ L k, Resting p κ L none k (G r) w := by
  rw [← bind_pure m]
  refine Discipline.Triple.pre (A := fun w => Holding p κ L k F w ∧ True)
    (fun _ _ h => ⟨h, trivial⟩) ?_
  refine storeCall hκ hF hN hm (fun w hi hf _ => hA w hi hf) ?_ fun b => ?_
  · exact fun e w hi hclosed hturn hf hn => ⟨L, k, hclosed.parked, hturn, herr e w hi hf hn⟩
  · refine Holding.learn
      (Discipline.Triple.done (Holding.stable hκ (hF.and (hC b))) fun w hi h => ?_)
    exact ⟨_, k, h.closed.parked, h.2.1, hok b w hi h.2.2.1 h.2.2.2⟩

/-- What `_settle_failure` finds. -/
theorem settleFailure_triple {runId token : Uuid} {code : String} {status : RunStatus}
    (hκ : κ ≠ .idle) (hclean : ∃ parent, κ = .cleanup parent status)
    (htask : ResolverTask priv task) (hstatus : status = .failed ∨ status = .blocked) :
    (discipline priv task post).Triple machine p (fun _ _ => True)
      (Holding p κ L k (Cleaning priv p runId))
      (settleFailure runId token code status)
      fun r w => match r with
        | .ok o => ∃ L k, Resting p κ L none k (Found priv p o) w
        | .error _ => True := by
  have hF : Durable priv p (Cleaning priv p runId) := Cleaning.durable runId
  have hG : ∀ r : Except Exn RunRecord, Durable priv p fun w => match r with
      | .ok record => Found priv p (.settled record) w
      | .error e => (∃ m, e = .kit .runNotFound m) → Found priv p .notFound w := by
    rintro (e | record)
    · exact fun w w' hi hi' hevo hk h hm => Found.durable _ w w' hi hi' hevo hk (h hm)
    · exact Found.durable _
  unfold settleFailure
  refine Discipline.Triple.bind
    (R := fun r w => ∃ out b, r = .ok (out, b) ∧ ∃ L k, Resting p κ L none k
    (fun w => match out with
      | .ok record => Found priv p (.settled record) w
      | .error e => (∃ m, e = .kit .runNotFound m) → Found priv p .notFound w) w)
    (timeoutScope_triple hκ hF (fun r _ _ => hG r)
      (restingCall hκ hF (Found.durable .notFound).lasts
        (fun record => (Final.durable record).and (.const (record.id = runId)))
        (failIfRunning_triple hκ hF.lasts.persists htask hstatus ?_ ?_) (fun _ _ h => h) ?_ ?_)
      ?_) ?_ ?_
  · exact fun w _ h hp parent st hkind => (h hp parent st hkind).2
  · intro w hi hat h hp
    obtain ⟨parent, rfl⟩ := hclean
    constructor
    · exact fun args h => Call.noConfusion h
    · exact fun _ _ _ _ _ h => Call.noConfusion h
    · exact fun _ _ _ _ h => Call.noConfusion h
    · rintro id t c st hcall
      injection hcall with _ _ _ hst
      exact ⟨parent, hst ▸ hat.kind⟩
    · intro q st hkind
      obtain ⟨rfl, rfl⟩ := Kind.cleanup.inj (hat.kind.symm.trans hkind)
      exact ⟨runId, token, code, rfl, (h hp _ _ hkind).1⟩
  · exact fun e w _ _ hn => hn
  · rintro record w hi hf ⟨⟨hmem, hdone⟩, rfl⟩ hp parent st hkind
    exact ⟨hmem, hdone, (hf hp parent st hkind).2⟩
  · exact fun L k w _ ⟨m, hm⟩ => Exn.noConfusion hm
  · rintro ⟨out, b⟩ w hi ⟨out', b', heq, L, k, h⟩
    obtain ⟨rfl, rfl⟩ := Prod.mk.inj (Except.ok.inj heq)
    have hunavailable : Resting p κ L none k (Found priv p .unavailable) w :=
      ⟨h.1, h.2.1, Found.unavailable w⟩
    dsimp only
    split
    · exact Discipline.Triple.done (Resting.stable hκ (Found.durable _))
        (fun w _ h => ⟨L, k, h⟩) w hi h
    · next m =>
      exact Discipline.Triple.done (Resting.stable hκ (Found.durable _))
        (fun w _ h => ⟨L, k, h⟩) w hi ⟨h.1, h.2.1, h.2.2 ⟨m, rfl⟩⟩
    · split
      · exact Discipline.Triple.done (Resting.stable hκ (Found.durable _))
          (fun w _ h => ⟨L, k, h⟩) w hi hunavailable
      · exact Discipline.Triple.done (Resting.stable hκ (Found.durable _))
          (fun _ _ _ => trivial) w hi hunavailable
  · exact fun e => ⟨fun _ _ _ _ _ ⟨_, _, h, _⟩ => absurd h (by simp), fun _ _ _ => trivial⟩

/-- The clean-up task ends with what it found. -/
theorem cleanupTask_triple {runId token : Uuid} {code : String} {status : RunStatus}
    (hκ : κ ≠ .idle) (hclean : ∃ parent, κ = .cleanup parent status)
    (htask : ResolverTask priv task) (hstatus : status = .failed ∨ status = .blocked) :
    (discipline priv task post).Triple machine p (fun _ _ => True)
      (Holding p κ L k (Cleaning priv p runId))
      (cleanupTask runId token code status) fun _ _ => True := by
  unfold cleanupTask
  refine Discipline.Triple.bind (settleFailure_triple hκ hclean htask hstatus)
    (fun o => ?_) fun e =>
    ⟨fun _ _ _ _ _ h => h, fun _ _ _ => trivial⟩
  refine Discipline.Triple.exists fun L => Discipline.Triple.exists fun k => ?_
  refine outside (C := fun _ _ => True) (E := fun _ _ => True)
    (Resting.stable hκ (Found.durable o)) ?_
    (fun e => ⟨.const _, fun _ _ _ => trivial⟩) fun _ =>
      Discipline.Triple.done (.const _) fun _ _ h => h
  intro w c r w' fs hi h hx
  obtain ⟨parent, rfl⟩ := hclean
  rcases exec_plain rfl hx with hx | ⟨e, rfl, rfl, rfl, -⟩
  · simp only [execOk] at hx
    obtain ⟨rfl, rfl, rfl⟩ : _ ∧ _ ∧ _ := by simpa [answer] using hx
    refine ⟨.finished hi h.1.kind h.1.session h.2.1.settled ?_,
      fun f hf => absurd hf List.not_mem_nil,
      trivial⟩
    exact fun hp => h.2.2 hp parent status h.1.kind
  · exact ⟨.refl hi, fun f hf => absurd hf List.not_mem_nil, trivial⟩

-- ---------------------------------------------------------------------------
-- Waiting for the clean-up
-- ---------------------------------------------------------------------------

/-- A clean-up that is just started is a task. -/
def SpawnTask (priv : Bool) (task : Pid → P Answer → World → Prop) : Prop :=
  ∀ w q parent status runId token code, Inv priv w → w.kind q = .cleanup parent status →
    IdleOk w q → Cleaning priv q runId w → (status = .failed ∨ status = .blocked) →
    task q (cleanupTask runId token code status) w

/-- `s` cleans up for `p`, with this status. -/
def CleanedBy (p s : Pid) (status : RunStatus) (w : World) : Prop := w.kind s = .cleanup p status

theorem CleanedBy.durable (s : Pid) (status : RunStatus) : Durable priv p (CleanedBy p s status) :=
  fun _ _ _ _ hevo _ h => (hevo.kind s (by rw [h]; exact fun hk => Kind.noConfusion hk)).trans h

/-- What the clean-up `s` ended with. -/
def SettledAs (s : Pid) (o : SettleOutcome) (w : World) : Prop := w.settled s = some o

theorem SettledAs.durable (s : Pid) (o : SettleOutcome) : Durable priv p (SettledAs s o) :=
  fun _ _ _ _ hevo _ h => hevo.settled s o h

section Rules

variable {α : Type} {Q : Except Exn α → World → Prop}

/-- The clean-up starts. -/
theorem spawnRule {runId token : Uuid} {code : String} {status : RunStatus} {timeout : Time}
    {f : Pid → P α} (hκ : κ ≠ .idle) (hF : Durable priv p F) (hrun : k.runId = some runId)
    (hspawn : SpawnTask priv task) (hstatus : status = .failed ∨ status = .blocked)
    (hf : ∀ s, (discipline priv task post).Triple machine p (fun _ _ => True)
      (Resting p κ L (some s) k fun w => F w ∧ CleanedBy p s status w) (f s) Q) :
    (discipline priv task post).Triple machine p (fun _ _ => True) (Resting p κ L none k F)
      (perform (.spawnCleanup runId token code status timeout) >>= f) Q := by
  refine outside (C := fun s => Resting p κ L (some s) k fun w => F w ∧ CleanedBy p s status w)
    (E := fun _ _ => False) (Resting.stable hκ hF) ?_
    (fun e => ⟨fun _ _ _ _ _ h => h, fun _ _ h => h.elim⟩) hf
  intro w ch r w' fs hi h hx
  cases ch with
  | pid q =>
    simp only [exec] at hx
    split at hx
    · next hfree =>
      obtain ⟨rfl, rfl, rfl⟩ : _ ∧ _ ∧ _ := by simpa using hx
      have hq : w.kind q = .idle := by
        cases hk : w.kind q with
        | idle => rfl
        | _ =>
          rw [hk] at hfree
          exact absurd hfree Bool.false_ne_true
      have hstarted := h.1.started hκ
      have hpq : p ≠ q := by
        rintro rfl
        exact hstarted hq
      have hstep : StepOk priv p w { w with
          kind := Function.update w.kind q (.cleanup p status)
          cleanup := Function.update w.cleanup p (some q) } :=
        .spawned hi hstarted h.1.session h.1.cleanup hq
      have hidle := (hi.proc q).idle hq
      have hevo := (hstep.other (p + 1) (Nat.succ_ne_self p)).1
      have hsame : Function.update w.kind q (.cleanup p status) p = w.kind p :=
        Function.update_of_ne hpq _ _
      refine ⟨hstep, fun f hf => ?_, ⟨hsame.trans h.1.kind, h.1.session, Function.update_self _ _ _,
        h.1.acked⟩, ⟨h.2.1.runId, h.2.1.pushed, h.2.1.source, h.2.1.settled, h.2.1.reads,
        h.2.1.enters⟩, hF w _ hi hstep.inv hevo hsame h.2.2, Function.update_self _ _ _⟩
      rw [List.mem_singleton.mp hf]
      refine hspawn _ q p status runId token code hstep.inv
        (Function.update_self _ _ _) ?_ ?_ hstatus
      · exact { hidle with cleanup := (Function.update_of_ne hpq.symm _ _).trans hidle.cleanup }
      · intro _ parent st hkind
        obtain ⟨rfl, -⟩ := Kind.cleanup.inj ((Function.update_self q _ w.kind).symm.trans hkind)
        have hnamed : w.runId p = some runId := h.2.1.runId.trans hrun
        exact ⟨(hi.proc p).runId runId hnamed, hnamed⟩
    · exact absurd hx (by simp)
  | fail e =>
    exact absurd hx
      (by cases e <;> simp [exec, Op.mayRaise, Op.suspends, Op.isStatement, Op.isForeign])
  | _ => exact absurd hx (by simp [exec, execOk])

/-- The shielded wait. Only a cancellation ends it before the clean-up does. -/
theorem awaitRule {s : Pid} {f : Option RunRecord → P α} (hκ : κ ≠ .idle) (hF : Durable priv p F)
    (herr : ∀ b w, Inv priv w → Resting p κ L c k F w → Q (.error (.cancelled b)) w)
    (hf : ∀ o, (discipline priv task post).Triple machine p (fun _ _ => True)
      (Resting p κ L c k fun w => F w ∧ SettledAs s o w) (f o.result) Q) :
    (discipline priv task post).Triple machine p (fun _ _ => True) (Resting p κ L c k F)
      (perform (.awaitCleanup s) >>= f) Q := by
  refine outside
    (C := fun a w => ∃ o, (Resting p κ L c k fun w => F w ∧ SettledAs s o w) w ∧ a = o.result)
    (E := fun e w => Resting p κ L c k F w ∧ ∃ b, e = .cancelled b) (Resting.stable hκ hF) ?_
    (fun e => ⟨(Resting.stable hκ hF).and (.const _), ?_⟩) ?_
  · intro w ch r w' fs hi h hx
    rcases exec_plain rfl hx with hx | ⟨e, rfl, rfl, rfl, hmay⟩
    · simp only [execOk] at hx
      split at hx
      · next o hsettled =>
        obtain ⟨rfl, rfl, rfl⟩ : _ ∧ _ ∧ _ := by simpa [answer] using hx
        exact ⟨.refl hi, fun f hf => absurd hf List.not_mem_nil, o, ⟨h.1, h.2.1, h.2.2, hsettled⟩,
          rfl⟩
      · exact absurd hx (by simp)
    · refine ⟨.refl hi, fun f hf => absurd hf List.not_mem_nil, h, ?_⟩
      cases e with
      | cancelled b => exact ⟨b, rfl⟩
      | _ => exact absurd hmay (by simp [Op.mayRaise, Op.isForeign, Op.isStatement])
  · rintro w hi ⟨h, b, rfl⟩
    exact herr b w hi h
  · rintro a w hi ⟨o, h, rfl⟩
    exact hf o w hi h

end Rules

end Resting

-- ---------------------------------------------------------------------------
-- The reconciled invocation
-- ---------------------------------------------------------------------------

section Reconciled

variable (rt : Runtime) (agentId : String) (request : RuntimeRequest) (key : Option String)
  (emit : Bool)

/-- How `_invoke_with_deadline` ends. -/
inductive Reconciled (p : Pid) (L : List Call) (k : Kept) (w : World) :
    Except Exn RuntimeResponse → Option Pid → Prop
  | answered {response : RuntimeResponse}
      (h : Responded rt agentId request key emit response L k w) :
      Reconciled p L k w (.ok response) none
  | unnamed {e : Exn} (h : Progress rt agentId request emit L k w) (hrun : k.runId = none) :
      Reconciled p L k w (.error e) none
  /-- The durable row had succeeded after all. -/
  | recovered {response : RuntimeResponse} {s : Pid} {record : RunRow} {status : RunStatus}
      (h : Progress rt agentId request emit L k w) (hclean : CleanedBy p s status w)
      (hsettled : SettledAs s (.settled record) w)
      (hresponse : durableResponse (some record) = some response) :
      Reconciled p L k w (.ok response) (some s)
  | failed {e : Exn} {s : Pid} {o : SettleOutcome} (h : Progress rt agentId request emit L k w)
      (hclean : CleanedBy p s (failureStatus e) w) (hsettled : SettledAs s o w)
      (hnone : durableResponse o.result = none) : Reconciled p L k w (.error e) (some s)
  /-- The invocation was cancelled, and did not wait for its clean-up, or did not look at it. -/
  | cancelled {e : Exn} {s : Pid} {status : RunStatus}
      (h : Progress rt agentId request emit L k w) (hclean : CleanedBy p s status w)
      (he : e.isException = false) : Reconciled p L k w (.error e) (some s)

end Reconciled

section Invocations

variable {priv : Bool} {p : Pid} {κ : Kind} {L : List Call} {c : Option Pid} {k : Kept}
  {F : World → Prop} {task : Pid → P Answer → World → Prop}
  {post : Pid → Except Exn Answer → World → Prop}
  {rt : Runtime} {agentId : String} {request : RuntimeRequest} {key : Option String} {emit : Bool}

theorem Reconciled.durable (r : Except Exn RuntimeResponse) (L : List Call) (c : Option Pid)
    (k : Kept) :
    Durable priv p fun w => Reconciled rt agentId request key emit p L k w r c := by
  intro w w' hi hi' hevo hkind h
  cases h with
  | answered h => exact .answered (Responded.durable _ _ _ w w' hi hi' hevo hkind h)
  | unnamed h hrun => exact .unnamed (Progress.durable _ _ w w' hi hi' hevo hkind h) hrun
  | recovered h hclean hsettled hresponse =>
    exact .recovered (Progress.durable _ _ w w' hi hi' hevo hkind h)
      (CleanedBy.durable _ _ w w' hi hi' hevo hkind hclean) (hevo.settled _ _ hsettled) hresponse
  | failed h hclean hsettled hnone =>
    exact .failed (Progress.durable _ _ w w' hi hi' hevo hkind h)
      (CleanedBy.durable _ _ w w' hi hi' hevo hkind hclean) (hevo.settled _ _ hsettled) hnone
  | cancelled h hclean he =>
    exact .cancelled (Progress.durable _ _ w w' hi hi' hevo hkind h)
      (CleanedBy.durable _ _ w w' hi hi' hevo hkind hclean) he

theorem failureStatus_cases (e : Exn) : failureStatus e = .failed ∨ failureStatus e = .blocked := by
  unfold failureStatus
  split
  · exact Or.inr rfl
  · exact Or.inl rfl

/-- Where an invocation ends. -/
def Invoked (rt : Runtime) (agentId : String) (request : RuntimeRequest) (key : Option String)
    (emit : Bool) (p : Pid) (κ : Kind) (r : Except Exn RuntimeResponse) (w : World) : Prop :=
  ∃ L c k, Resting p κ L c k (fun w => Reconciled rt agentId request key emit p L k w r c) w

/-- A failure of `_execute`, reconciled with the durable row. -/
theorem reconcile_triple {token : Uuid} {exc : Exn} {expired : Bool} (hκ : κ ≠ .idle)
    (hspawn : SpawnTask priv task) :
    (discipline priv task post).Triple machine p (fun _ _ => True)
      (Resting p κ L none k (Progress rt agentId request emit L k))
      (reconcile rt token exc expired)
      (Invoked rt agentId request key emit p κ) := by
  have hF : Durable priv p (Progress rt agentId request emit L k) := Progress.durable L k
  have hunnamed : k.runId = none → ∀ e w, Inv priv w →
      Resting p κ L none k (Progress rt agentId request emit L k) w →
      Invoked rt agentId request key emit p κ (.error e) w :=
    fun hrun e w _ h => ⟨L, none, k, h.1, h.2.1, .unnamed h.2.2 hrun⟩
  -- once the clean-up has started, a cancellation ends the invocation
  have hcancelled : ∀ s status e w, e.isException = false → Resting p κ L (some s) k
      (fun w => Progress rt agentId request emit L k w ∧ CleanedBy p s status w) w →
      Invoked rt agentId request key emit p κ (.error e) w :=
    fun s status e w he h => ⟨L, some s, k, h.1, h.2.1, .cancelled h.2.2.1 h.2.2.2 he⟩
  have hclean : ∀ s status, Durable priv p fun w =>
      Progress rt agentId request emit L k w ∧ CleanedBy p s status w :=
    fun s status => hF.and (CleanedBy.durable s status)
  unfold reconcile
  refine getRunIdRule hκ hF ?_
  split
  · next hrun => exact Discipline.Triple.done (Resting.stable hκ hF) (hunnamed hrun _)
  · next b runId hrun =>
    unfold recordFailure
    rw [bind_bind]
    refine spawnRule hκ hF hrun hspawn (Or.inl rfl) fun s => ?_
    refine awaitRule hκ (hclean s _) (fun b w _ h => hcancelled s _ _ w rfl h) fun o => ?_
    refine Discipline.Triple.done (Resting.stable hκ ((hclean s _).and (SettledAs.durable s o))) ?_
    exact fun w _ h => hcancelled s _ _ w rfl ⟨h.1, h.2.1, h.2.2.1⟩
  · next hrun => exact Discipline.Triple.done (Resting.stable hκ hF) (hunnamed hrun _)
  · next runId hrun =>
    unfold recordFailure
    simp only [bind_bind]
    refine spawnRule hκ hF hrun hspawn (failureStatus_cases _) fun s => ?_
    refine awaitRule hκ (hclean s _) (fun b w _ h => hcancelled s _ _ w rfl h) fun o => ?_
    have hstable := fun status => (hclean s status).and (SettledAs.durable s o)
    cases hresponse : durableResponse o.result with
    | none =>
      refine Discipline.Triple.done (Resting.stable hκ (hstable _)) fun w _ h => ?_
      exact ⟨L, some s, k, h.1, h.2.1, .failed h.2.2.1.1 h.2.2.1.2 h.2.2.2 hresponse⟩
    | some response =>
      refine Discipline.Triple.done (Resting.stable hκ (hstable _)) fun w _ h => ?_
      cases o with
      | settled record =>
        exact ⟨L, some s, k, h.1, h.2.1, .recovered h.2.2.1.1 h.2.2.1.2 h.2.2.2 hresponse⟩
      | _ => exact absurd hresponse (by simp [SettleOutcome.result, durableResponse])

/-- `_invoke_with_deadline`. -/
theorem invokeWithDeadline_triple (hκ : κ ≠ .idle) (hclean : ∀ q status, κ ≠ .cleanup q status)
    (htask : ResolverTask priv task) (hspawn : SpawnTask priv task)
    (hasked : κ.asked = some (agentId, key, some (rt.requestHash request))) (hL : NotUnderway L) :
    (discipline priv task post).Triple machine p (fun _ _ => True)
      (Holding p κ L .fresh fun _ => True)
      (invokeWithDeadline rt agentId request key emit)
      (Invoked rt agentId request key emit p κ) := by
  unfold invokeWithDeadline
  refine uuidRule hκ (.const True) fun token => ?_
  -- what `_execute` leaves behind, under its deadline
  let G : Except Exn RuntimeResponse → List Call → Kept → World → Prop := fun r L k =>
    ifOk (fun response => Responded rt agentId request key emit response L k)
      (fun _ => Progress rt agentId request emit L k) r
  have hG : ∀ r L k, Durable priv p (G r L k) := by
    rintro (e | response) L k
    · exact Progress.durable L k
    · exact Responded.durable response L k
  have hbody : (discipline priv task post).Triple machine p (fun _ _ => True)
      (Holding p κ L .fresh fun _ => True) (execute rt agentId request key emit token)
      fun r w => ∃ L k, Resting p κ L none k (G r L k) w := by
    refine (execute_triple hκ hclean htask hasked hL).conseq (fun _ _ h => h) ?_
    rintro (e | response) w ⟨L, k, hat, hturn, h⟩
    · exact ⟨L, k, hat.parked, hturn, h⟩
    · exact ⟨L, k, hat.closed.parked, hturn, h⟩
  refine Discipline.Triple.pre (fun _ _ h => ⟨h.1.1, h.1.2.1, trivial⟩) (Discipline.Triple.bind
    (timeoutScope_triple hκ (.const True) hG hbody fun _ _ _ h => h) ?_ fun e =>
      ⟨fun _ _ _ _ _ ⟨_, _, h, _⟩ => absurd h (by simp),
        fun _ _ ⟨_, _, h, _⟩ => absurd h (by simp)⟩)
  rintro ⟨out, expired⟩ w hi ⟨out', expired', heq, L, k, h⟩
  obtain ⟨rfl, rfl⟩ := Prod.mk.inj (Except.ok.inj heq)
  cases out with
  | ok response =>
    refine Discipline.Triple.done (Resting.stable hκ (hG (.ok response) L k))
      (fun w _ h => ?_) w hi h
    exact ⟨L, none, k, h.1, h.2.1, .answered h.2.2⟩
  | error exc => exact reconcile_triple hκ hspawn w hi h

/-- `_invoke`. -/
theorem invokeTracked_triple (hκ : κ ≠ .idle) (hclean : ∀ q status, κ ≠ .cleanup q status)
    (htask : ResolverTask priv task) (hspawn : SpawnTask priv task)
    (hasked : κ.asked = some (agentId, key, some (rt.requestHash request))) (hL : NotUnderway L) :
    (discipline priv task post).Triple machine p (fun _ _ => True)
      (Holding p κ L .fresh fun _ => True)
      (invokeTracked rt agentId request key emit)
      (Invoked rt agentId request key emit p κ) := by
  have hrefused : ∀ e w, Inv priv w → Holding p κ L .fresh (fun _ => True) w →
      Invoked rt agentId request key emit p κ (.error e) w :=
    fun e w _ h => ⟨L, none, .fresh, h.closed.parked, h.2.1, .unnamed (.waiting hL rfl rfl) rfl⟩
  unfold invokeTracked
  refine keep hκ (.const True) (same_triple rfl hκ (.const True)) hrefused fun closing => ?_
  split
  · exact Discipline.Triple.done (Holding.stable hκ (.const True)) (hrefused _)
  · exact invokeWithDeadline_triple hκ hclean htask hspawn hasked hL

-- ---------------------------------------------------------------------------
-- The producer of a stream
-- ---------------------------------------------------------------------------

/-- What `produce` enqueues after the events of the turn, if it is not cancelled before. -/
def marks : Except Exn RuntimeResponse → List Item
  | .ok response => [.event (.completed response), .sentinel]
  | .error e => if e.isException then [.failure e, .sentinel] else []

/-- What is known of the items that a producer has enqueued after the events of its turn, from how
its invocation ended, and how many items it has enqueued in all. -/
abbrev MarksAre := Except Exn RuntimeResponse → List Item → Nat → Prop

/-- Where a producer ends: its invocation has ended, and it has enqueued a part of the marks. -/
def Produced (rt : Runtime) (agentId : String) (request : RuntimeRequest) (key : Option String)
    (p : Pid) (κ : Kind) (tail : MarksAre) (w : World) : Prop :=
  ∃ L c k outcome items, Resting p κ L c { k with pushed := k.pushed ++ items }
    (fun w => Reconciled rt agentId request key true p L k w outcome c) w ∧
      tail outcome items (k.pushed ++ items).length

theorem Produced.stable {tail : MarksAre} (hκ : κ ≠ .idle) :
    (discipline priv task post).Stable p (Produced rt agentId request key p κ tail) := by
  refine .exists fun L => .exists fun c => .exists fun k => .exists fun outcome =>
    .exists fun items => ?_
  exact (Resting.stable hκ (Reconciled.durable outcome L c k)).and (.const _)

theorem Produced.mono {tail tail' : MarksAre} {w : World}
    (h : Produced rt agentId request key p κ tail w)
    (himp : ∀ o items n, tail o items n → tail' o items n) :
    Produced rt agentId request key p κ tail' w := by
  obtain ⟨L, c, k, outcome, items, h, htail⟩ := h
  exact ⟨L, c, k, outcome, items, h, himp _ _ _ htail⟩

/-- One more mark. -/
theorem produceRule {item : Item} {tail : MarksAre} (tail' : MarksAre) {α : Type} {f : Unit → P α}
    {Q : Except Exn α → World → Prop} (hκ : κ ≠ .idle)
    (herr : ∀ b w, Inv priv w →
      Produced rt agentId request key p κ (fun o items n => tail o items n ∧ 64 ≤ n) w →
      Q (.error (.cancelled b)) w)
    (hmark : ∀ o items n, tail o items n → tail' o (items ++ [item]) (n + 1))
    (hf : (discipline priv task post).Triple machine p (fun _ _ => True)
      (Produced rt agentId request key p κ tail') (f ()) Q) :
    (discipline priv task post).Triple machine p (fun _ _ => True)
      (Produced rt agentId request key p κ tail) (perform (.put item) >>= f) Q := by
  rintro w hi ⟨L, c, k, outcome, items, h, htail⟩
  refine putLast hκ (Reconciled.durable outcome L c k) ?_ ?_ w hi h
  · exact fun hfull b w hi h => herr b w hi ⟨L, c, k, outcome, items, h, htail, hfull⟩
  · refine Discipline.Triple.pre (fun w _ h => ?_) hf
    refine ⟨L, c, k, outcome, items ++ [item], ?_, ?_⟩
    · rw [← List.append_assoc]
      exact h
    · have hlength : (k.pushed ++ (items ++ [item])).length = (k.pushed ++ items).length + 1 := by
        simp only [List.length_append, List.length_singleton]
        omega
      rw [hlength]
      exact hmark _ _ _ htail

/-- A cancellation, which a `queue.put` delivers only on a full queue. -/
def CutOff (e : Exn) (n : Nat) : Prop := 64 ≤ n ∧ ∃ b, e = .cancelled b

/-- What has been enqueued when the `try` block of `produce` ends in `r`. -/
def marksTried (r : Except Exn Unit) (outcome : Except Exn RuntimeResponse) (items : List Item)
    (n : Nat) : Prop :=
  match r with
  | .ok _ => items ++ [.sentinel] = marks outcome
  | .error e => items = [] ∧ (outcome = .error e ∨ CutOff e n)

/-- What has been enqueued when the `try` statement of `produce` ends in `r`. -/
def marksHandled (r : Except Exn Unit) (outcome : Except Exn RuntimeResponse) (items : List Item)
    (n : Nat) : Prop :=
  match r with
  | .ok _ => items ++ [.sentinel] = marks outcome
  | .error e => items <+: marks outcome ∧ (items = marks outcome ∨ CutOff e n)

/-- What has been enqueued when `produce` ends in `r`. -/
def marksEnded (r : Except Exn Answer) (outcome : Except Exn RuntimeResponse) (items : List Item)
    (n : Nat) : Prop :=
  items <+: marks outcome ∧ (items = marks outcome ∨ ∃ e, r = .error e ∧ CutOff e n)

/-- The invocation of a producer, and the mark that follows it. -/
theorem produceTry_triple (hκ : κ ≠ .idle) (hclean : ∀ q status, κ ≠ .cleanup q status)
    (htask : ResolverTask priv task) (hspawn : SpawnTask priv task)
    (hasked : κ.asked = some (agentId, key, some (rt.requestHash request))) (hL : NotUnderway L) :
    (discipline priv task post).Triple machine p (fun _ _ => True)
      (Holding p κ L .fresh fun _ => True)
      (do
        let response ← invokeTracked rt agentId request key true
        perform (.put (.event (.completed response))))
      fun r => Produced rt agentId request key p κ (marksTried r) := by
  have hstart : ∀ outcome w, Invoked rt agentId request key true p κ outcome w →
      Produced rt agentId request key p κ (fun o items _ => o = outcome ∧ items = []) w := by
    rintro outcome w ⟨L, c, k, h⟩
    refine ⟨L, c, k, outcome, [], ?_, rfl, rfl⟩
    rw [List.append_nil]
    exact h
  have hstable : ∀ outcome, (discipline priv task post).Stable p
      (Invoked rt agentId request key true p κ outcome) := fun outcome =>
    .exists fun L => .exists fun c => .exists fun k =>
      Resting.stable hκ (Reconciled.durable outcome L c k)
  refine Discipline.Triple.bind (invokeTracked_triple hκ hclean htask hspawn hasked hL)
    (fun response => ?_) fun e => ⟨hstable _, fun w _ h => ?_⟩
  · rw [← bind_pure (perform _)]
    refine Discipline.Triple.pre (fun w _ h => hstart _ w h) (produceRule
      (fun o items _ => o = .ok response ∧ items = [.event (.completed response)]) hκ
      (fun b w _ h => h.mono ?_) ?_
        (Discipline.Triple.done (Produced.stable hκ) fun w _ h => h.mono ?_))
    · exact fun o items n h => ⟨h.1.2, Or.inr ⟨h.2, b, rfl⟩⟩
    · rintro o items n ⟨rfl, rfl⟩
      exact ⟨rfl, rfl⟩
    · rintro o items n ⟨rfl, rfl⟩
      rfl
  · refine (hstart _ w h).mono ?_
    rintro o items n ⟨rfl, rfl⟩
    exact ⟨rfl, Or.inl rfl⟩

/-- `produce` enqueues the marks one after the other, and stops when it is cancelled. -/
theorem produce_triple (hκ : κ ≠ .idle) (hclean : ∀ q status, κ ≠ .cleanup q status)
    (htask : ResolverTask priv task) (hspawn : SpawnTask priv task)
    (hasked : κ.asked = some (agentId, key, some (rt.requestHash request))) (hL : NotUnderway L) :
    (discipline priv task post).Triple machine p (fun _ _ => True)
      (Holding p κ L .fresh fun _ => True)
      (produce rt agentId request key)
      fun r => Produced rt agentId request key p κ (marksEnded r) := by
  unfold produce
  rw [tryCatch_eq]
  refine Discipline.Triple.bind (R := fun r => Produced rt agentId request key p κ (marksHandled r))
    (Discipline.Triple.handle (produceTry_triple hκ hclean htask hspawn hasked hL) ?_) (fun _ => ?_)
    fun e => ⟨Produced.stable hκ, fun w _ h => h.mono fun _ _ _ h =>
      ⟨h.1, h.2.imp id fun hcut => ⟨e, rfl, hcut⟩⟩⟩
  · rintro (e | u)
    · show (discipline priv task post).Triple machine p _ _ (if e.isException then _ else _) _
      split
      · next he =>
        have hraised : ∀ o items n, marksTried (.error e) o items n → items = [] ∧
            o = .error e := by
          rintro o items n ⟨hitems, ho | ⟨-, b, rfl⟩⟩
          · exact ⟨hitems, ho⟩
          · exact absurd he Bool.false_ne_true
        rw [← bind_pure (perform _)]
        refine produceRule (marksHandled (.ok ())) hκ (fun b w _ h => h.mono ?_) ?_
          (Discipline.Triple.done (Produced.stable hκ) fun w _ h => h)
        · rintro o items n ⟨htried, hfull⟩
          obtain ⟨rfl, rfl⟩ := hraised o items n htried
          exact ⟨List.nil_prefix, Or.inr ⟨hfull, b, rfl⟩⟩
        · rintro o items n htried
          obtain ⟨rfl, rfl⟩ := hraised o items n htried
          rw [marksHandled, marks, if_pos he]
          rfl
      · next he =>
        refine Discipline.Triple.done (Produced.stable hκ) fun w _ h => h.mono ?_
        rintro o items n ⟨rfl, rfl | hcut⟩
        · exact ⟨List.nil_prefix, Or.inl (by rw [marks, if_neg he])⟩
        · exact ⟨List.nil_prefix, Or.inr hcut⟩
    · exact Discipline.Triple.done (Produced.stable hκ) fun w _ h => h
  · refine produceRule (fun o items _ => items = marks o) hκ (fun b w _ h => h.mono ?_)
      (fun o items n h => h) (Discipline.Triple.done (Produced.stable hκ) fun w _ h => h.mono ?_)
    · rintro o items n ⟨h, hfull⟩
      have h : items ++ [.sentinel] = marks o := h
      exact ⟨h ▸ List.prefix_append items _, Or.inr ⟨_, rfl, hfull, b, rfl⟩⟩
    · rintro o items n rfl
      exact ⟨List.prefix_rfl, Or.inl rfl⟩

end Invocations

end AgentRuntimeKit
