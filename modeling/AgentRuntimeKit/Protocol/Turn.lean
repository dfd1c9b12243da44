import AgentRuntimeKit.Protocol.Calls

/-!
# One invocation, checked

`_execute` against the discipline. Between its store calls an invocation knows what it is
and which of its calls it saw commit (`At`), and the state it keeps itself (`Turn`): the
run it named, what it enqueued, what its invoker produced, and what it has logged.

## Results

* `outside`          — one operation outside of transactions.
* `forward_triple`   — the loop over a streaming invoker.
* `runClaimed_triple` — the turn of a run that the invocation has claimed.
* `execute_triple`   — a whole turn.
-/

namespace AgentRuntimeKit

open Lib Prog

-- ---------------------------------------------------------------------------
-- What an invocation keeps
-- ---------------------------------------------------------------------------

/-- The state that an invocation keeps outside of the database: the run it has named, what it
has enqueued, what its invoker has produced, and whether it has read a history and entered the
invoker. -/
structure Kept where
  runId : Option Uuid
  pushed : List Item
  source : Option Reading
  hasRead : Bool
  hasEntered : Bool

/-- `p` keeps this. -/
structure Turn (p : Pid) (k : Kept) (w : World) : Prop where
  runId : w.runId p = k.runId
  pushed : (w.stream p).pushed = k.pushed
  source : w.source p = k.source
  /-- `p` has not ended as a clean-up. -/
  settled : w.settled p = none
  reads : ∀ e ∈ w.log, e.reader = some p → k.hasRead = true
  enters : ∀ e ∈ w.log, e.isBy p = true → e.entered.isSome = true → k.hasEntered = true

/-- What an invocation outside of a transaction knows. -/
def Holding (p : Pid) (κ : Kind) (L : List Call) (k : Kept) (F : World → Prop) (w : World) : Prop :=
  At p κ L none w ∧ Turn p k w ∧ F w

section Turn

variable {priv : Bool} {p : Pid} {κ : Kind} {L : List Call} {k : Kept} {F : World → Prop}
  {task : Pid → P Answer → World → Prop} {post : Pid → Except Exn Answer → World → Prop}

theorem Event.isBy_of_reader {e : Event} (h : e.reader = some p) : e.isBy p = true := by
  cases e with
  | history q t rows => exact decide_eq_true (Option.some.inj h)
  | _ => exact absurd h (by simp [Event.reader])

theorem Turn.lasts : Lasts priv p (Turn p k) :=
  fun _ _ _ _ hq h => ⟨hq.runId.trans h.runId, hq.pushed.trans h.pushed, hq.source.trans h.source,
    hq.settled.trans h.settled,
    fun e he hr => h.reads e (hq.log e he (Event.isBy_of_reader hr)) hr,
    fun e he hby => h.enters e (hq.log e he hby) hby⟩

theorem Holding.stable (hκ : κ ≠ .idle) (hF : Durable priv p F) :
    (discipline priv task post).Stable p (Holding p κ L k F) :=
  At.stable hκ (Turn.lasts.and hF.lasts).persists

/-- One operation outside of transactions. -/
theorem outside {α : Type} {o : Op} {f : Res o → P α} {A : World → Prop}
    {C : Res o → World → Prop} {E : Exn → World → Prop} {Q : Except Exn α → World → Prop}
    (hA : (discipline priv task post).Stable p A)
    (hok : ∀ w c r w' fs, Inv priv w → A w → exec p w o c = some (r, w', fs) →
      StepOk priv p w w' ∧ (∀ f ∈ fs, task f.1 f.2 w') ∧
        match r with
        | .ok a => C a w'
        | .error e => E e w')
    (herr : ∀ e, (discipline priv task post).Stable p (E e) ∧
      ∀ w, Inv priv w → E e w → Q (.error e) w)
    (hf : ∀ a, (discipline priv task post).Triple machine p (fun _ _ => True) (C a) (f a) Q) :
    (discipline priv task post).Triple machine p (fun _ _ => True) A (perform o >>= f) Q := by
  refine Discipline.Triple.op (B := fun r w => match r with
    | .ok a => C a w
    | .error e => E e w) hA ?_ ?_
  · intro w c r w' fs hi ha hx
    obtain ⟨hstep, hforks, hr⟩ := hok w c r w' fs hi ha hx
    exact ⟨hstep.inv, hstep.other, hforks, trivial, hr⟩
  · rintro (e | a)
    · exact Discipline.Triple.done (herr e).1 (herr e).2
    · exact hf a

/-- Plain operations that change nothing. -/
def Op.isSame : Op → Bool
  | getThread _ _ | runsByKey _ _ | fetch | closeCursor | expiredRuns _ | getRunId | isClosing _
  | hook _ _ | closeSource | awaitCleanup _ => true
  | _ => false

theorem Op.plain_of_isSame {o : Op} (h : o.isSame = true) : o.isPlain = true := by
  cases o <;> first
    | rfl
    | exact absurd h Bool.false_ne_true

theorem execOk_same {w : World} {o : Op} (hsame : o.isSame = true) :
    execOk p w o = none ∨ ∃ a, execOk p w o = answer (.ok a) w := by
  cases o with
  | awaitCleanup s =>
    cases hs : w.settled s with
    | none => exact Or.inl (by simp [execOk, hs])
    | some outcome => exact Or.inr ⟨outcome.result, by simp [execOk, hs]⟩
  | _ => first
    | exact Or.inr ⟨_, rfl⟩
    | exact absurd hsame Bool.false_ne_true

theorem exec_same {w w' : World} {o : Op} {c : Choice} {r : Except Exn (Res o)} {fs : Forks}
    (hsame : o.isSame = true) (h : exec p w o c = some (r, w', fs)) :
    w' = w ∧ fs = [] ∧ ((∃ a, r = .ok a ∧ execOk p w o = answer (.ok a) w) ∨
      ∃ e, r = .error e ∧ o.mayRaise w p e = true) := by
  rcases exec_plain (Op.plain_of_isSame hsame) h with hok | ⟨e, rfl, rfl, rfl, hmay⟩
  · rcases execOk_same hsame with hnone | ⟨a, ha⟩
    · rw [hnone] at hok
      exact absurd hok (by simp)
    · rw [ha] at hok
      obtain ⟨rfl, rfl, rfl⟩ : _ ∧ _ ∧ _ := by simpa [answer] using hok
      exact ⟨rfl, rfl, Or.inl ⟨a, rfl, ha⟩⟩
  · exact ⟨rfl, rfl, Or.inr ⟨e, rfl, hmay⟩⟩

/-- An operation that changes nothing, outside of transactions. -/
theorem outsideSame {α : Type} {o : Op} {f : Res o → P α} {A : World → Prop}
    {C : Res o → World → Prop} {Q : Except Exn α → World → Prop}
    (hsame : o.isSame = true) (hA : (discipline priv task post).Stable p A)
    (hok : ∀ w a, Inv priv w → A w → execOk p w o = answer (.ok a) w → C a w)
    (herr : ∀ e w, Inv priv w → A w → Q (.error e) w)
    (hf : ∀ a, (discipline priv task post).Triple machine p (fun _ _ => True)
      (fun w => A w ∧ C a w) (f a) Q) :
    (discipline priv task post).Triple machine p (fun _ _ => True) A (perform o >>= f) Q := by
  refine outside (C := fun a w => A w ∧ C a w) (E := fun _ => A) hA ?_ (fun e => ⟨hA, herr e⟩) hf
  intro w c r w' fs hi ha hx
  obtain ⟨rfl, rfl, hr⟩ := exec_same hsame hx
  refine ⟨.refl hi, fun f hf => absurd hf List.not_mem_nil, ?_⟩
  rcases hr with ⟨a, rfl, hans⟩ | ⟨e, rfl, -⟩
  · exact ⟨ha, hok w' a hi ha hans⟩
  · exact ha

/-- What `p` knows is kept by a step that changes only its own state. -/
theorem Holding.own {w w' : World} {k' : Kept} (hi : Inv priv w) (hstep : StepOk priv p w w')
    (hF : Durable priv p F) (h : Holding p κ L k F w) (hkind : w'.kind p = w.kind p)
    (hsession : w'.session p = w.session p) (hresolving : w'.resolving p = w.resolving p)
    (hcleanup : w'.cleanup p = w.cleanup p) (hacked : w'.acked p = w.acked p)
    (hturn : Turn p k' w') : Holding p κ L k' F w' := by
  obtain ⟨hat, -, hf⟩ := h
  have hevo : Evolution w w' := (hstep.other (p + 1) (Nat.succ_ne_self p)).1
  exact ⟨⟨hkind.trans hat.kind, hsession.trans hat.session, hat.client,
    hresolving.trans hat.resolving, hcleanup.trans hat.cleanup, hacked.trans hat.acked⟩, hturn,
    hF w w' hi hstep.inv hevo hkind hf⟩

theorem At.started {w : World} {s : Option Session} (h : At p κ L s w) (hκ : κ ≠ .idle) :
    w.kind p ≠ .idle := by
  rw [h.kind]
  exact hκ

/-- What is learnt joins what is known. -/
theorem Holding.learn {α : Type} {G : World → Prop} {m : P α} {Q : Except Exn α → World → Prop}
    (h : (discipline priv task post).Triple machine p (fun _ _ => True)
      (Holding p κ L k fun w => F w ∧ G w) m Q) :
    (discipline priv task post).Triple machine p (fun _ _ => True)
      (fun w => Holding p κ L k F w ∧ G w) m Q :=
  Discipline.Triple.pre (fun _ _ h => ⟨h.1.1, h.1.2.1, h.1.2.2, h.2⟩) h

section Rules

variable {α : Type} {Q : Except Exn α → World → Prop}

/-- A `queue.put` enqueues, or is cancelled on a full queue. -/
theorem exec_put {w w' : World} {item : Item} {c : Choice} {r : Except Exn (Res (.put item))}
    {fs : Forks} (h : exec p w (.put item) c = some (r, w', fs)) : fs = [] ∧
      ((r = .ok () ∧
          w' = w.setStream p { w.stream p with pushed := (w.stream p).pushed ++ [item] }) ∨
        (w' = w ∧ 64 ≤ (w.stream p).pushed.length ∧ ∃ b, r = .error (.cancelled b))) := by
  rcases exec_plain rfl h with hx | ⟨e, rfl, rfl, rfl, hmay⟩
  · simp only [execOk] at hx
    split at hx
    · exact absurd hx (by simp)
    · obtain ⟨rfl, rfl, rfl⟩ : _ ∧ _ ∧ _ := by simpa [answer] using hx
      exact ⟨rfl, Or.inl ⟨rfl, rfl⟩⟩
  · refine ⟨rfl, Or.inr ?_⟩
    cases e with
    | cancelled b =>
      -- only a full queue suspends
      simp only [Op.mayRaise, Op.suspends, Bool.and_eq_true] at hmay
      have hfull : 64 ≤ (w'.stream p).pushed.length - (w'.stream p).taken :=
        of_decide_eq_true hmay.1
      exact ⟨rfl, by omega, b, rfl⟩
    | _ => exact absurd hmay (by simp [Op.mayRaise, Op.isForeign, Op.isStatement])

theorem StepOk.put {w : World} (item : Item) (hi : Inv priv w) (hstarted : w.kind p ≠ .idle) :
    StepOk priv p w
      (w.setStream p { w.stream p with pushed := (w.stream p).pushed ++ [item] }) :=
  StepOk.own w.mint w.armed _ w.source hi hstarted (fun _ _ hm => hm) (fun _ _ _ hm => hm)
    (fun _ _ => rfl) (fun _ hq => Function.update_of_ne hq _ w.stream) (fun _ _ => rfl)
    fun r hr he => ⟨r, hr, he⟩

theorem Turn.put {w : World} {item : Item} (h : Turn p k w) :
    Turn p { k with pushed := k.pushed ++ [item] }
      (w.setStream p { w.stream p with pushed := (w.stream p).pushed ++ [item] }) := by
  refine ⟨h.runId, ?_, h.source, h.settled, h.reads, h.enters⟩
  show (Function.update w.stream p _ p).pushed = _
  rw [Function.update_self, ← h.pushed]

/-- `queue.put`. It fails only on a full queue. -/
theorem putRule {item : Item} {f : Unit → P α} (hκ : κ ≠ .idle) (hF : Durable priv p F)
    (herr : 64 ≤ k.pushed.length → ∀ e w, Inv priv w → Holding p κ L k F w → Q (.error e) w)
    (hf : (discipline priv task post).Triple machine p (fun _ _ => True)
      (Holding p κ L { k with pushed := k.pushed ++ [item] } F) (f ()) Q) :
    (discipline priv task post).Triple machine p (fun _ _ => True) (Holding p κ L k F)
      (perform (.put item) >>= f) Q := by
  refine outside (C := fun _ => Holding p κ L { k with pushed := k.pushed ++ [item] } F)
    (E := fun _ w => Holding p κ L k F w ∧ 64 ≤ k.pushed.length) (Holding.stable hκ hF) ?_
    (fun e => ⟨(Holding.stable hκ hF).and (.const _), fun w hi h => herr h.2 e w hi h.1⟩)
    fun _ => hf
  intro w c r w' fs hi h hx
  obtain ⟨rfl, ⟨rfl, rfl⟩ | ⟨rfl, hfull, b, rfl⟩⟩ := exec_put hx
  · have hstep := StepOk.put item hi (h.1.started hκ)
    refine ⟨hstep, fun f hf => absurd hf List.not_mem_nil, ?_⟩
    exact h.own hi hstep hF rfl rfl rfl rfl rfl h.2.1.put
  · rw [h.2.1.pushed] at hfull
    exact ⟨.refl hi, fun f hf => absurd hf List.not_mem_nil, h, hfull⟩

/-- The invoker of `p` has produced more. -/
theorem Holding.advanced {w : World} (rd : Reading) (hi : Inv priv w) (hκ : κ ≠ .idle)
    (hF : Durable priv p F) (h : Holding p κ L k F w)
    (hended : ∀ r, k.source = some r → r.ended → rd.ended) :
    StepOk priv p w (w.setSource p rd) ∧
      Holding p κ L { k with source := some rd } F (w.setSource p rd) := by
  have hstep := StepOk.own w.mint w.armed w.stream (Function.update w.source p (some rd)) hi
    (h.1.started hκ) (fun _ _ hm => hm) (fun _ _ _ hm => hm) (fun _ _ => rfl) (fun _ _ => rfl)
    (fun q hq => Function.update_of_ne hq _ w.source)
    fun r hr he => ⟨rd, Function.update_self _ _ _, hended r (h.2.1.source ▸ hr) he⟩
  refine ⟨hstep, h.own hi hstep hF rfl rfl rfl rfl rfl ?_⟩
  exact ⟨h.2.1.runId, h.2.1.pushed, Function.update_self _ _ _, h.2.1.settled, h.2.1.reads,
    h.2.1.enters⟩

/-- One step of a source. -/
theorem pullRule {source : Source} {n : Nat} {f : Unit → P α} (hκ : κ ≠ .idle)
    (hF : Durable priv p F) (hsource : k.source = some ⟨source, n⟩)
    (herr : ∀ e w, Inv priv w → Holding p κ L k F w → Q (.error e) w)
    (hf : (discipline priv task post).Triple machine p (fun _ _ => True)
      (Holding p κ L { k with source := some ⟨source, n + 1⟩ } F) (f ()) Q) :
    (discipline priv task post).Triple machine p (fun _ _ => True) (Holding p κ L k F)
      (perform .pull >>= f) Q := by
  refine outside (C := fun _ => Holding p κ L { k with source := some ⟨source, n + 1⟩ } F)
    (E := fun _ => Holding p κ L k F) (Holding.stable hκ hF) ?_
    (fun e => ⟨Holding.stable hκ hF, herr e⟩) fun _ => hf
  intro w c r w' fs hi h hx
  rcases exec_plain rfl hx with hx | ⟨e, rfl, rfl, rfl, -⟩
  · simp only [execOk, h.2.1.source, hsource] at hx
    obtain ⟨rfl, rfl, rfl⟩ : _ ∧ _ ∧ _ := by simpa [answer] using hx
    obtain ⟨hstep, hnext⟩ := h.advanced ⟨source, n + 1⟩ hi hκ hF fun r hr he => by
      rw [hsource, Option.some.injEq] at hr
      subst hr
      exact ⟨he.1, Nat.lt_succ_of_lt he.2.1, he.2.2⟩
    exact ⟨hstep, fun f hf => absurd hf List.not_mem_nil, hnext⟩
  · exact ⟨.refl hi, fun f hf => absurd hf List.not_mem_nil, h⟩

/-- A streaming invoker hands over its source. -/
theorem openSourceRule {messages : List Message} {f : Source → P α} (hκ : κ ≠ .idle)
    (hF : Durable priv p F) (hsource : k.source = none)
    (herr : ∀ e w, Inv priv w → Holding p κ L k F w → Q (.error e) w)
    (hf : ∀ source, (discipline priv task post).Triple machine p (fun _ _ => True)
      (Holding p κ L { k with source := some ⟨source, 0⟩ } F) (f source) Q) :
    (discipline priv task post).Triple machine p (fun _ _ => True) (Holding p κ L k F)
      (perform (.openSource messages) >>= f) Q := by
  refine outside (C := fun source => Holding p κ L { k with source := some ⟨source, 0⟩ } F)
    (E := fun _ => Holding p κ L k F) (Holding.stable hκ hF) ?_
    (fun e => ⟨Holding.stable hκ hF, herr e⟩) hf
  intro w c r w' fs hi h hx
  cases c with
  | source src =>
    simp only [exec] at hx
    split at hx
    · obtain ⟨rfl, rfl, rfl⟩ : _ ∧ _ ∧ _ := by simpa [answer] using hx
      obtain ⟨hstep, hnext⟩ := h.advanced ⟨src, 0⟩ hi hκ hF fun r hr => by
        rw [hsource] at hr
        exact absurd hr (by simp)
      exact ⟨hstep, fun f hf => absurd hf List.not_mem_nil, hnext⟩
    · exact absurd hx (by simp)
  | fail e =>
    simp only [exec] at hx
    split at hx
    · obtain ⟨rfl, rfl, rfl⟩ : _ ∧ _ ∧ _ := by simpa [answer] using hx
      exact ⟨.refl hi, fun f hf => absurd hf List.not_mem_nil, h⟩
    · exact absurd hx (by simp)
  | _ => exact absurd hx (by simp [exec, execOk])

/-- An invoker answers. -/
theorem awaitInvokerRule {messages : List Message} {f : InvocationOutput → P α} (hκ : κ ≠ .idle)
    (hF : Durable priv p F) (hsource : k.source = none)
    (herr : ∀ e w, Inv priv w → Holding p κ L k F w → Q (.error e) w)
    (hf : ∀ output, (discipline priv task post).Triple machine p (fun _ _ => True)
      (Holding p κ L { k with source := some (.ofOutput output) } F) (f output) Q) :
    (discipline priv task post).Triple machine p (fun _ _ => True) (Holding p κ L k F)
      (perform (.awaitInvoker messages) >>= f) Q := by
  refine outside (C := fun output => Holding p κ L { k with source := some (.ofOutput output) } F)
    (E := fun _ => Holding p κ L k F) (Holding.stable hκ hF) ?_
    (fun e => ⟨Holding.stable hκ hF, herr e⟩) hf
  intro w c r w' fs hi h hx
  cases c with
  | output output =>
    simp only [exec] at hx
    obtain ⟨rfl, rfl, rfl⟩ : _ ∧ _ ∧ _ := by simpa [answer] using hx
    obtain ⟨hstep, hnext⟩ := h.advanced (.ofOutput output) hi hκ hF fun r hr => by
      rw [hsource] at hr
      exact absurd hr (by simp)
    exact ⟨hstep, fun f hf => absurd hf List.not_mem_nil, hnext⟩
  | fail e =>
    simp only [exec] at hx
    split at hx
    · obtain ⟨rfl, rfl, rfl⟩ : _ ∧ _ ∧ _ := by simpa [answer] using hx
      exact ⟨.refl hi, fun f hf => absurd hf List.not_mem_nil, h⟩
    · exact absurd hx (by simp)
  | _ => exact absurd hx (by simp [exec, execOk])

/-- `p` drew this identifier. -/
def Minted (p : Pid) (u : Uuid) (w : World) : Prop := w.mint u = some p

theorem Minted.durable (u : Uuid) : Durable priv p (Minted p u) :=
  fun _ _ _ _ hevo _ h => hevo.mint _ _ h

/-- `uuid4()`. -/
theorem uuidRule {f : Uuid → P α} (hκ : κ ≠ .idle) (hF : Durable priv p F)
    (hf : ∀ u, (discipline priv task post).Triple machine p (fun _ _ => True)
      (fun w => Holding p κ L k (fun w => F w ∧ Minted p u w) w ∧ Absent priv p u w) (f u) Q) :
    (discipline priv task post).Triple machine p (fun _ _ => True) (Holding p κ L k F)
      (perform .uuid4 >>= f) Q := by
  refine outside
    (C := fun u w => Holding p κ L k (fun w => F w ∧ Minted p u w) w ∧ Absent priv p u w)
    (E := fun _ _ => False) (Holding.stable hκ hF) ?_
    (fun e => ⟨fun _ _ _ _ _ h => h, fun _ _ h => h.elim⟩) hf
  intro w c r w' fs hi h hx
  cases c with
  | uuid u =>
    simp only [exec] at hx
    split at hx
    · next hfresh =>
      obtain ⟨rfl, rfl, rfl⟩ : _ ∧ _ ∧ _ := by simpa [answer] using hx
      have hnone : w.mint u = none := Option.isNone_iff_eq_none.mp hfresh
      have hmono : ∀ x q, w.mint x = some q → Function.update w.mint u (some p) x = some q := by
        intro x q hq
        rw [← hq]
        refine Function.update_of_ne ?_ _ _
        rintro rfl
        rw [hnone] at hq
        exact absurd hq (by simp)
      have hstep := StepOk.own (Function.update w.mint u (some p)) w.armed w.stream w.source hi
        (h.1.started hκ) hmono (fun x q hq hx => by
          rw [← hx]
          refine (Function.update_of_ne ?_ _ _).symm
          rintro rfl
          rw [Function.update_self] at hx
          exact hq (Option.some.inj hx).symm) (fun _ _ => rfl) (fun _ _ => rfl) (fun _ _ => rfl)
        fun r hr he => ⟨r, hr, he⟩
      have hown : Holding p κ L k F
          (w.withState (Function.update w.mint u (some p)) w.armed w.stream w.source) :=
        h.own hi hstep hF rfl rfl rfl rfl rfl
        ⟨h.2.1.runId, h.2.1.pushed, h.2.1.source, h.2.1.settled, h.2.1.reads, h.2.1.enters⟩
      have hminted : Minted p u (w.withState (Function.update w.mint u (some p)) w.armed w.stream
          w.source) := Function.update_self _ _ _
      refine ⟨hstep, fun f hf => absurd hf List.not_mem_nil, ⟨hown.1, hown.2.1, hown.2.2, hminted⟩,
        fun hp => ⟨h.1.resolving, hminted, ?_⟩⟩
      -- the rows of the runtime have names that were drawn before
      rintro r hr rfl
      subst hp
      obtain ⟨q, hq, -⟩ := (hi.rowsPriv rfl).minted r hr
      rw [hnone] at hq
      exact absurd hq (by simp)
    · exact absurd hx (by simp)
  | fail e =>
    exact absurd hx
      (by cases e <;> simp [exec, Op.mayRaise, Op.suspends, Op.isStatement, Op.isForeign])
  | _ => exact absurd hx (by simp [exec, execOk])

/-- The rows of the runtime are of named runs. -/
theorem Inv.row_named {w : World} (hi : Inv true w) {r : RunRow} (hr : r ∈ w.db.runs)
    (hmint : w.mint r.id = some p) : w.runId p = some r.id := by
  obtain ⟨q, hq, hid⟩ := (hi.rowsPriv rfl).minted r hr
  rw [hmint, Option.some.injEq] at hq
  rw [hq]
  exact hid

/-- The invocation names its run, or forgets it, while there is no row for it. -/
theorem setRunIdRule {u : Uuid} {runId : Option Uuid} {f : Unit → P α} (hκ : κ ≠ .idle)
    (hF : Durable priv p F) (hminted : ∀ w, F w → Minted p u w)
    (hswitch : (k.runId = none ∧ runId = some u) ∨ (k.runId = some u ∧ runId = none))
    (hf : (discipline priv task post).Triple machine p (fun _ _ => True)
      (fun w => Holding p κ L { k with runId := runId } F w ∧ Absent priv p u w) (f ()) Q) :
    (discipline priv task post).Triple machine p (fun _ _ => True)
      (fun w => Holding p κ L k F w ∧ Absent priv p u w) (perform (.setRunId runId) >>= f) Q := by
  refine outside
    (C := fun _ w => Holding p κ L { k with runId := runId } F w ∧ Absent priv p u w)
    (E := fun _ _ => False) ?_ ?_ (fun e => ⟨fun _ _ _ _ _ h => h, fun _ _ h => h.elim⟩) fun _ => hf
  · intro w w' hi hi' ho h
    have ha := ho.2 (h.1.1.started hκ)
    have hstable : (discipline priv task post).Stable p (Holding p κ L k F) := Holding.stable hκ hF
    exact ⟨hstable w w' hi hi' ho h.1, Absent.persists u w w' hi hi' ha.toBeside h.2⟩
  · intro w c r w' fs hi h hx
    rcases exec_plain rfl hx with hx | ⟨e, rfl, rfl, rfl, hmay⟩
    · simp only [execOk] at hx
      obtain ⟨rfl, rfl, rfl⟩ : _ ∧ _ ∧ _ := by simpa [answer] using hx
      obtain ⟨hhold, habsent⟩ := h
      have hstep : StepOk priv p w { w with runId := Function.update w.runId p runId } := by
        refine .namedRun hi (hhold.1.started hκ) hhold.1.session hhold.1.resolving hhold.1.cleanup
          (fun q hq => Function.update_of_ne hq _ _) ?_ ?_
        · intro x hx
          rw [Function.update_self] at hx
          rcases hswitch with ⟨-, rfl⟩ | ⟨-, rfl⟩
          · rw [← Option.some.inj hx]
            exact hminted w hhold.2.2
          · exact absurd hx (by simp)
        · rintro rfl r hr hmint
          -- a row of `p` would be of the run it has named so far, and that one has none
          have hnamed := hi.row_named hr hmint
          rw [hhold.2.1.runId] at hnamed
          rcases hswitch with ⟨hnone, -⟩ | ⟨hsome, -⟩
          · rw [hnone] at hnamed
            exact absurd hnamed (by simp)
          · rw [hsome, Option.some.injEq] at hnamed
            exact absurd hnamed.symm ((habsent rfl).2.2 r hr)
      refine ⟨hstep, fun f hf => absurd hf List.not_mem_nil, ?_, habsent⟩
      refine hhold.own hi hstep hF rfl rfl rfl rfl rfl ⟨Function.update_self _ _ _,
        hhold.2.1.pushed, hhold.2.1.source, hhold.2.1.settled, hhold.2.1.reads, hhold.2.1.enters⟩
    · exact absurd hmay
        (by cases e <;> simp [Op.mayRaise, Op.suspends, Op.isStatement, Op.isForeign])

/-- A history that an invocation reads after its transition to running is current. -/
theorem historyRule {runId t token : Uuid} {f : List MessageRow → P α} (hκ : κ ≠ .idle)
    (hF : Durable priv p F) (hread : k.hasRead = false)
    (hfacts : ∀ w, Inv priv w → F w → Committed p (.transition runId .running token none none) w ∧
      ∃ r, Known r w ∧ r.id = runId ∧ r.threadId = t)
    (herr : ∀ e w, Inv priv w → Holding p κ L k F w → Q (.error e) w)
    (hf : ∀ rows, (discipline priv task post).Triple machine p (fun _ _ => True)
      (Holding p κ L { k with hasRead := true } fun w => F w ∧ Watching p runId w) (f rows) Q) :
    (discipline priv task post).Triple machine p (fun _ _ => True) (Holding p κ L k F)
      (perform (.transcript t) >>= f) Q := by
  refine outside
    (C := fun _ => Holding p κ L { k with hasRead := true } fun w => F w ∧ Watching p runId w)
    (E := fun _ => Holding p κ L k F) (Holding.stable hκ hF) ?_
    (fun e => ⟨Holding.stable hκ hF, herr e⟩) hf
  intro w c r w' fs hi h hx
  rcases exec_plain rfl hx with hx | ⟨e, rfl, rfl, rfl, -⟩
  · have hview : w.view p = w.db := by
      rw [World.view, h.1.session]
    simp only [execOk, hview, hi.db.transcript] at hx
    obtain ⟨rfl, rfl, rfl⟩ : _ ∧ _ ∧ _ := by simpa [answer] using hx
    have hstep : StepOk priv p w (w.record (.history p t (w.db.messagesOf t))) := by
      refine .recorded hi (h.1.started hκ) h.1.session rfl (fun q hq => ?_)
        (fun _ _ _ _ he => Event.noConfusion he) fun q hq hmem => ?_
      · exact decide_eq_false fun hpq => hq hpq.symm
      · rw [← Option.some.inj hq] at hmem
        obtain ⟨e, he, hr⟩ := List.mem_map.mp hmem
        rw [h.2.1.reads e he hr] at hread
        exact absurd hread (by simp)
    have hnext : Holding p κ L { k with hasRead := true } F
        (w.record (.history p t (w.db.messagesOf t))) := by
      refine h.own hi hstep hF rfl rfl rfl rfl rfl ⟨h.2.1.runId, h.2.1.pushed, h.2.1.source,
        h.2.1.settled, fun _ _ _ => rfl, fun e he hby hsome => ?_⟩
      rcases List.mem_cons.mp he with rfl | he
      · exact absurd hsome (by simp [Event.entered])
      · exact h.2.1.enters e he hby hsome
    refine ⟨hstep, fun f hf => absurd hf List.not_mem_nil, hnext.1, hnext.2.1, hnext.2.2,
      fun _ => ?_⟩
    obtain ⟨⟨σ, before, hmem, hclient, hcall⟩, r, ⟨row, hrow, hsame, -⟩, hid, ht⟩ :=
      hfacts w hi h.2.2
    refine ⟨row, hrow, hsame.id.trans hid, fun _ => Or.inr ⟨[], w.log, ?_, ?_, ?_⟩⟩
    · rw [hsame.threadId, ht]
      rfl
    · exact fun e he => absurd he List.not_mem_nil
    · exact ⟨σ, before, token, hmem, hclient, hcall⟩
  · exact ⟨.refl hi, fun f hf => absurd hf List.not_mem_nil, h⟩

/-- The invoker is entered for the run that `p` has claimed. -/
theorem enterRule {runId : Uuid} {agentId : String} {key : Option String} {f : Unit → P α}
    (hκ : κ ≠ .idle) (hF : Durable priv p F) (hentered : k.hasEntered = false)
    (hfacts : ∀ w, Inv priv w → F w → Minted p runId w ∧
      ∃ r ∈ w.db.runs, r.id = runId ∧ r.agentId = agentId ∧ r.idempotencyKey = key)
    (hf : (discipline priv task post).Triple machine p (fun _ _ => True)
      (Holding p κ L { k with hasEntered := true } F) (f ()) Q) :
    (discipline priv task post).Triple machine p (fun _ _ => True) (Holding p κ L k F)
      (perform (.enter runId agentId key) >>= f) Q := by
  refine outside (C := fun _ => Holding p κ L { k with hasEntered := true } F)
    (E := fun _ _ => False) (Holding.stable hκ hF) ?_
    (fun e => ⟨fun _ _ _ _ _ h => h, fun _ _ h => h.elim⟩) fun _ => hf
  intro w c r w' fs hi h hx
  rcases exec_plain rfl hx with hx | ⟨e, rfl, rfl, rfl, hmay⟩
  · simp only [execOk] at hx
    obtain ⟨rfl, rfl, rfl⟩ : _ ∧ _ ∧ _ := by simpa [answer] using hx
    obtain ⟨hmint, hrow⟩ := hfacts w hi h.2.2
    have hstep : StepOk priv p w (w.record (.enter p runId agentId key)) := by
      refine .recorded hi (h.1.started hκ) h.1.session rfl (fun q hq => ?_) ?_
        fun _ he => absurd he (by simp [Event.reader])
      · exact decide_eq_false fun hpq => hq hpq.symm
      · intro q u a key' he
        obtain ⟨rfl, rfl, rfl, rfl⟩ := Event.enter.inj he
        refine ⟨hmint, fun hmem => ?_, hrow⟩
        -- whoever entered with this run is `p`, and `p` has not
        obtain ⟨e, he, hu⟩ := List.mem_map.mp hmem
        cases e with
        | enter q u a key' =>
          have hq := hi.enteredBy q u a key' he
          rw [show u = runId from Option.some.inj hu] at hq
          rw [show w.mint runId = some p from hmint, Option.some.injEq] at hq
          have htrue := h.2.1.enters _ he (decide_eq_true hq.symm) rfl
          rw [htrue] at hentered
          exact absurd hentered (by simp)
        | _ => exact absurd hu (by simp [Event.entered])
    refine ⟨hstep, fun f hf => absurd hf List.not_mem_nil, ?_⟩
    refine h.own hi hstep hF rfl rfl rfl rfl rfl ⟨h.2.1.runId, h.2.1.pushed, h.2.1.source,
      h.2.1.settled, fun e he hr => ?_, fun _ _ _ _ => rfl⟩
    rcases List.mem_cons.mp he with rfl | he
    · exact absurd hr (by simp [Event.reader])
    · exact h.2.1.reads e he hr
  · exact absurd hmay (by cases e <;> simp [Op.mayRaise, Op.suspends, Op.isStatement, Op.isForeign])

/-- Entering and leaving `asyncio.timeout`. -/
theorem armRule {o : Op} {f : Res o → P α} (hκ : κ ≠ .idle) (hF : Durable priv p F)
    (harm : o = .arm ∨ o = .disarm)
    (hf : ∀ a, (discipline priv task post).Triple machine p (fun _ _ => True)
      (Holding p κ L k F) (f a) Q) :
    (discipline priv task post).Triple machine p (fun _ _ => True) (Holding p κ L k F)
      (perform o >>= f) Q := by
  refine outside (C := fun _ => Holding p κ L k F) (E := fun _ _ => False) (Holding.stable hκ hF) ?_
    (fun e => ⟨fun _ _ _ _ _ h => h, fun _ _ h => h.elim⟩) hf
  intro w c r w' fs hi h hx
  have harmed : ∀ armed : Pid → Bool, (∀ q, q ≠ p → armed q = w.armed q) →
      StepOk priv p w { w with armed := armed } ∧ Holding p κ L k F { w with armed := armed } := by
    intro armed hothers
    have hstep := StepOk.own w.mint armed w.stream w.source hi (h.1.started hκ) (fun _ _ hm => hm)
      (fun _ _ _ hm => hm) hothers (fun _ _ => rfl) (fun _ _ => rfl) fun r hr he => ⟨r, hr, he⟩
    exact ⟨hstep, h.own hi hstep hF rfl rfl rfl rfl rfl
      ⟨h.2.1.runId, h.2.1.pushed, h.2.1.source, h.2.1.settled, h.2.1.reads, h.2.1.enters⟩⟩
  rcases harm with rfl | rfl
  · rcases exec_plain rfl hx with hx | ⟨e, rfl, rfl, rfl, hmay⟩
    · simp only [execOk] at hx
      obtain ⟨rfl, rfl, rfl⟩ : _ ∧ _ ∧ _ := by simpa [answer] using hx
      obtain ⟨hstep, hnext⟩ := harmed (Function.update w.armed p true)
        fun q hq => Function.update_of_ne hq _ _
      exact ⟨hstep, fun f hf => absurd hf List.not_mem_nil, hnext⟩
    · exact absurd hmay
        (by cases e <;> simp [Op.mayRaise, Op.suspends, Op.isStatement, Op.isForeign])
  · rcases exec_plain rfl hx with hx | ⟨e, rfl, rfl, rfl, hmay⟩
    · simp only [execOk] at hx
      obtain ⟨rfl, rfl, rfl⟩ : _ ∧ _ ∧ _ := by simpa [answer] using hx
      obtain ⟨hstep, hnext⟩ := harmed (Function.update w.armed p false)
        fun q hq => Function.update_of_ne hq _ _
      exact ⟨hstep, fun f hf => absurd hf List.not_mem_nil, hnext⟩
    · exact absurd hmay
        (by cases e <;> simp [Op.mayRaise, Op.suspends, Op.isStatement, Op.isForeign])

/-- `current_trace_id()`. -/
theorem traceIdRule {f : Option String → P α} (hκ : κ ≠ .idle) (hF : Durable priv p F)
    (hf : ∀ a, (discipline priv task post).Triple machine p (fun _ _ => True)
      (Holding p κ L k F) (f a) Q) :
    (discipline priv task post).Triple machine p (fun _ _ => True) (Holding p κ L k F)
      (perform .traceId >>= f) Q := by
  refine outside (C := fun _ => Holding p κ L k F) (E := fun _ _ => False) (Holding.stable hκ hF) ?_
    (fun e => ⟨fun _ _ _ _ _ h => h, fun _ _ h => h.elim⟩) hf
  intro w c r w' fs hi h hx
  cases c with
  | trace id =>
    obtain ⟨rfl, rfl, rfl⟩ : _ ∧ _ ∧ _ := by simpa [exec, answer] using hx
    exact ⟨.refl hi, fun f hf => absurd hf List.not_mem_nil, h⟩
  | fail e =>
    exact absurd hx
      (by cases e <;> simp [exec, Op.mayRaise, Op.suspends, Op.isStatement, Op.isForeign])
  | _ => exact absurd hx (by simp [exec, execOk])

/-- A store call of an invocation. -/
theorem storeCall {β : Type} {m : P β} {f : β → P α} {call : Call} {A A' N : World → Prop}
    {C : β → World → Prop} (hκ : κ ≠ .idle) (hF : Durable priv p F) (hN : Lasts priv p N)
    (hm : (discipline priv task post).Triple machine p (Quiet p) (fun w => At p κ L none w ∧ A w) m
      (CallPost p κ L call N C))
    (hA : ∀ w, Inv priv w → F w → A' w → A w)
    (herr : ∀ e w, Inv priv w → Closed p κ L w → Turn p k w → F w →
      ((∃ m, e = .kit .runNotFound m) → N w) → Q (.error e) w)
    (hf : ∀ b, (discipline priv task post).Triple machine p (fun _ _ => True)
      (fun w => Holding p κ (call :: L) k F w ∧ C b w) (f b) Q) :
    (discipline priv task post).Triple machine p (fun _ _ => True)
      (fun w => Holding p κ L k F w ∧ A' w) (m >>= f) Q := by
  -- what `p` keeps goes along: its transactions leave it alone
  have hlasts : Lasts priv p fun w => Turn p k w ∧ F w := Turn.lasts.and hF.lasts
  have hstable : (discipline priv task post).Stable p fun w => w.kind p = κ ∧ Turn p k w ∧ F w := by
    intro w w' hi hi' ho h
    have ha := ho.2 (by rw [h.1]; exact hκ)
    exact ⟨ha.quiet.kind.trans h.1, hlasts w w' hi hi' ha.quiet h.2⟩
  have hframed := (hm.frame hstable fun w w' hi hi' hq h =>
    ⟨hq.kind.trans h.1, hlasts w w' hi hi' hq h.2⟩).weaken fun _ _ _ => trivial
  refine Discipline.Triple.pre (fun w hi h => ?_) (Discipline.Triple.bind
    (R := ifOk (fun b w => Holding p κ (call :: L) k F w ∧ C b w) fun e w =>
      Closed p κ L w ∧ (Turn p k w ∧ F w) ∧ ((∃ m, e = .kit .runNotFound m) → N w))
    (hframed.conseq (fun _ _ h => h) ?_) hf ?_)
  · exact ⟨⟨h.1.1, hA w hi h.1.2.2 h.2⟩, h.1.1.kind, h.1.2⟩
  · rintro (e | b) w ⟨hr, -, hkept⟩
    · exact ⟨hr.1, hkept, hr.2⟩
    · exact ⟨⟨hr.1, hkept⟩, hr.2⟩
  · refine fun e => ⟨Closed.stable hκ (hlasts.and ?_), fun w hi h => ?_⟩
    · exact fun w w' hi hi' hq h hm => hN w w' hi hi' hq (h hm)
    · exact herr e w hi h.1 h.2.1.1 h.2.1.2 h.2.2

end Rules

end Turn

end AgentRuntimeKit
