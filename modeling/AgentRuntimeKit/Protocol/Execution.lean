import AgentRuntimeKit.Protocol.Turn

/-!
# A whole turn, checked

`_execute` from its first operation to its last. What it leaves behind says how far it
came: `NotUnderway` while it has not seen its run move to running, and `Progress` afterwards,
with the events of its source that it has passed on.

## Results

* `forward_triple`    — the loop over a streaming invoker.
* `runClaimed_triple` — the turn of a run that the invocation has claimed.
* `execute_triple`    — a whole turn.
-/

namespace AgentRuntimeKit

open Lib Prog

-- ---------------------------------------------------------------------------
-- What a stream passes on
-- ---------------------------------------------------------------------------

/-- The events of a source before its first completed one, as they are passed on. -/
def deltasOf : List AgentStreamEvent → List RuntimeStreamEvent
  | .textDelta delta :: rest => .textDelta delta :: deltasOf rest
  | .toolResult result :: rest => .toolResult result :: deltasOf rest
  | _ => []

/-- These events of the source were passed on: a prefix of those before the first completed one,
and all of them if the source was advanced beyond these. -/
def Forwarded (ds : List RuntimeStreamEvent) : Option Reading → Prop
  | none => ds = []
  | some rd => ds <+: deltasOf rd.source.events ∧
      ((deltasOf rd.source.events).length < rd.pulled → ds = deltasOf rd.source.events)

/-- What an invocation enqueues for these events. -/
def shown (emit : Bool) (events : List RuntimeStreamEvent) : List Item :=
  if emit then events.map .event else []

theorem shown_append (emit : Bool) (xs ys : List RuntimeStreamEvent) :
    shown emit (xs ++ ys) = shown emit xs ++ shown emit ys := by
  unfold shown
  split
  · exact List.map_append
  · rfl

theorem shown_nil (emit : Bool) : shown emit [] = [] := by
  unfold shown
  split <;> rfl

theorem deltasOf_append {before : List AgentStreamEvent} (h : ∀ e ∈ before, e.isCompleted = none)
    (rest : List AgentStreamEvent) :
    deltasOf (before ++ rest) = deltasOf before ++ deltasOf rest := by
  induction before with
  | nil => rfl
  | cons e before ih =>
    have htail := ih fun x hx => h x (List.mem_cons_of_mem _ hx)
    cases e with
    | completed output =>
      exact absurd (h _ List.mem_cons_self) (by simp [AgentStreamEvent.isCompleted])
    | _ => simp only [List.cons_append, deltasOf, htail]

theorem deltasOf_length {before : List AgentStreamEvent} (h : ∀ e ∈ before, e.isCompleted = none) :
    (deltasOf before).length = before.length := by
  induction before with
  | nil => rfl
  | cons e before ih =>
    have htail := ih fun x hx => h x (List.mem_cons_of_mem _ hx)
    cases e with
    | completed output =>
      exact absurd (h _ List.mem_cons_self) (by simp [AgentStreamEvent.isCompleted])
    | _ => simp only [deltasOf, List.length_cons, htail]

theorem forwarded_none : Forwarded [] none := rfl

theorem Forwarded.ofOutput (output : InvocationOutput) : Forwarded [] (some (.ofOutput output)) :=
  ⟨List.nil_prefix, fun _ => rfl⟩

theorem Reading.ended_ofOutput (output : InvocationOutput) : (Reading.ofOutput output).ended :=
  ⟨rfl, Nat.lt_succ_self 1, [], output, rfl, fun _ h => absurd h List.not_mem_nil⟩

section Execution

variable {priv : Bool} {p : Pid} {κ : Kind} {L : List Call} {k : Kept} {F : World → Prop}
  {task : Pid → P Answer → World → Prop} {post : Pid → Except Exn Answer → World → Prop}
  {α : Type} {Q : Except Exn α → World → Prop}

/-- `emit(event)`. -/
theorem emitRule {emit : Bool} {e : RuntimeStreamEvent} {f : Unit → P α} (hκ : κ ≠ .idle)
    (hF : Durable priv p F)
    (herr : emit = true → 64 ≤ k.pushed.length → ∀ e w, Inv priv w → Holding p κ L k F w →
      Q (.error e) w)
    (hf : (discipline priv task post).Triple machine p (fun _ _ => True)
      (Holding p κ L { k with pushed := k.pushed ++ shown emit [e] } F) (f ()) Q) :
    (discipline priv task post).Triple machine p (fun _ _ => True) (Holding p κ L k F)
      (emitEvent emit e >>= f) Q := by
  cases emit with
  | true =>
    unfold emitEvent
    rw [if_pos rfl]
    exact putRule hκ hF (herr rfl) hf
  | false =>
    have hsame : { k with pushed := k.pushed ++ shown false [e] } = k := by
      rw [shown, if_neg Bool.false_ne_true, List.append_nil]
    rw [hsame] at hf
    exact hf

-- ---------------------------------------------------------------------------
-- The loop over a source
-- ---------------------------------------------------------------------------

/-- How reading an invoker leaves things: some events were passed on, and the source was
advanced so far. If it produced an output, the source had ended well. -/
def Streamed (p : Pid) (κ : Kind) (L : List Call) (k : Kept) (F : World → Prop) (base : List Item)
    (emit : Bool) (r : Except Exn InvocationOutput) (w : World) : Prop :=
  ∃ source ds, Holding p κ L
      { k with pushed := base ++ shown emit ds, source := source } F w ∧
    Forwarded ds source ∧
    ∀ output, r = .ok output → ∃ rd, source = some rd ∧ rd.ended ∧
      ds = deltasOf rd.source.events ∧ .completed output ∈ rd.source.events

theorem Streamed.stable {base : List Item} {emit : Bool} {r : Except Exn InvocationOutput}
    (hκ : κ ≠ .idle) (hF : Durable priv p F) :
    (discipline priv task post).Stable p (Streamed p κ L k F base emit r) := by
  refine Discipline.Stable.exists fun source => Discipline.Stable.exists fun ds => ?_
  exact (Holding.stable hκ hF).and (.const _)

/-- While no completed event has come, each event is passed on before the source is advanced
again. -/
theorem forwarded_before {source : Source} {before rest : List AgentStreamEvent}
    (hsource : source.events = before ++ rest) (hbefore : ∀ e ∈ before, e.isCompleted = none)
    {n : Nat} (hn : n ≤ before.length + (deltasOf rest).length) :
    Forwarded (deltasOf before) (some ⟨source, n⟩) := by
  have hdeltas := deltasOf_append hbefore rest
  refine ⟨?_, fun hlt => ?_⟩
  · rw [hsource, hdeltas]
    exact List.prefix_append _ _
  · have hlength : (deltasOf source.events).length = before.length + (deltasOf rest).length := by
      rw [hsource, hdeltas, List.length_append, deltasOf_length hbefore]
    rw [hlength] at hlt
    exact absurd hn (Nat.not_le_of_lt hlt)

/-- At an event that is not passed on, or at the end, everything has been passed on. -/
theorem forwarded_all {source : Source} {before rest : List AgentStreamEvent}
    (hsource : source.events = before ++ rest) (hbefore : ∀ e ∈ before, e.isCompleted = none)
    (hrest : deltasOf rest = []) (n : Nat) : Forwarded (deltasOf before) (some ⟨source, n⟩) := by
  have hdeltas : deltasOf source.events = deltasOf before := by
    rw [hsource, deltasOf_append hbefore, hrest, List.append_nil]
  exact ⟨hdeltas ▸ List.prefix_rfl, fun _ => hdeltas.symm⟩

/-- The loop when the completed event has come: only a normal end is left for it. -/
theorem forward_terminal {base : List Item} {source : Source} {before : List AgentStreamEvent}
    {output : InvocationOutput} (hκ : κ ≠ .idle) (hF : Durable priv p F)
    (hbefore : ∀ e ∈ before, e.isCompleted = none) (rest : List AgentStreamEvent)
    (hsource : source.events = before ++ .completed output :: rest) :
    (discipline priv task post).Triple machine p (fun _ _ => True)
      (Holding p κ L { k with
        pushed := base ++ shown true (deltasOf before)
        source := some ⟨source, before.length + 1⟩ } F)
      (forward true source.ending rest (some output)) (Streamed p κ L k F base true) := by
  have hall := forwarded_all hsource hbefore rfl
  -- whatever is raised, all events before the completed one have been passed on
  have herr : ∀ n e w, Inv priv w → Holding p κ L { k with
      pushed := base ++ shown true (deltasOf before), source := some ⟨source, n⟩ } F w →
      Streamed p κ L k F base true (.error e) w :=
    fun n e w _ h => ⟨_, _, h, hall n, fun _ hok => absurd hok (by simp)⟩
  cases rest with
  | nil =>
    unfold forward
    refine pullRule hκ hF rfl (herr _) ?_
    cases hending : source.ending with
    | some e => exact Discipline.Triple.done (Holding.stable hκ hF) (herr _ e)
    | none =>
      refine Discipline.Triple.done (Holding.stable hκ hF) fun w hi h => ?_
      refine ⟨_, _, h, hall _, fun output' hok => ?_⟩
      obtain rfl : output = output' := Except.ok.inj hok
      have hcompleted : .completed output ∈ source.events := by
        rw [hsource]
        exact List.mem_append_right _ List.mem_cons_self
      refine ⟨_, rfl, ⟨hending, ?_, before, output, hsource, hbefore⟩, ?_, hcompleted⟩
      · show source.events.length < before.length + 1 + 1
        rw [hsource, List.length_append, List.length_singleton]
        exact Nat.lt_succ_self _
      · show deltasOf before = deltasOf source.events
        rw [hsource, deltasOf_append hbefore]
        exact (List.append_nil _).symm
  | cons event rest =>
    unfold forward
    refine pullRule hκ hF rfl (herr _) ?_
    exact Discipline.Triple.done (Holding.stable hκ hF) (herr _ _)

/-- The loop over a source, after `before`. -/
theorem forward_triple {base : List Item} {source : Source} (hκ : κ ≠ .idle)
    (hF : Durable priv p F) (rest : List AgentStreamEvent) :
    ∀ before : List AgentStreamEvent, (∀ e ∈ before, e.isCompleted = none) →
      source.events = before ++ rest →
      (discipline priv task post).Triple machine p (fun _ _ => True)
        (Holding p κ L { k with
          pushed := base ++ shown true (deltasOf before)
          source := some ⟨source, before.length⟩ } F)
        (forward true source.ending rest none) (Streamed p κ L k F base true) := by
  induction rest with
  | nil =>
    intro before hbefore hsource
    -- no `completed` event: the source has raised, or it has just ended
    have herr : ∀ n e w, Inv priv w → Holding p κ L { k with
        pushed := base ++ shown true (deltasOf before), source := some ⟨source, n⟩ } F w →
        Streamed p κ L k F base true (.error e) w :=
      fun n e w _ h => ⟨_, _, h, forwarded_all hsource hbefore rfl n,
        fun _ hok => absurd hok (by simp)⟩
    unfold forward
    refine pullRule hκ hF rfl (herr _) ?_
    cases source.ending with
    | some e => exact Discipline.Triple.done (Holding.stable hκ hF) (herr _ e)
    | none => exact Discipline.Triple.done (Holding.stable hκ hF) (herr _ _)
  | cons event rest ih =>
    intro before hbefore hsource
    -- a failure here cuts the events off somewhere in what has been pulled
    have herr : ∀ n, n ≤ before.length + (deltasOf (event :: rest)).length → ∀ e w, Inv priv w →
        Holding p κ L { k with
          pushed := base ++ shown true (deltasOf before), source := some ⟨source, n⟩ } F w →
        Streamed p κ L k F base true (.error e) w :=
      fun n hn e w _ h => ⟨_, _, h, forwarded_before hsource hbefore hn,
        fun _ hok => absurd hok (by simp)⟩
    -- an event that is passed on goes to what came before
    have hnext : ∀ e : RuntimeStreamEvent, event.isCompleted = none → deltasOf [event] = [e] →
        deltasOf (event :: rest) = e :: deltasOf rest →
        (discipline priv task post).Triple machine p (fun _ _ => True)
          (Holding p κ L { k with
            pushed := base ++ shown true (deltasOf before)
            source := some ⟨source, before.length + 1⟩ } F)
          (emitEvent true e >>= fun _ => forward true source.ending rest none)
          (Streamed p κ L k F base true) := by
      intro e hnone hsingle hcons
      refine emitRule hκ hF (fun _ _ => herr _ ?_) ?_
      · rw [hcons, List.length_cons]
        omega
      · have hbefore' : ∀ x ∈ before ++ [event], x.isCompleted = none := by
          intro x hx
          rcases List.mem_append.mp hx with hx | hx
          · exact hbefore x hx
          · rw [List.mem_singleton.mp hx]
            exact hnone
        have hstep := ih (before ++ [event]) hbefore' (by rw [hsource, List.append_assoc]; rfl)
        rw [deltasOf_append hbefore, hsingle, List.length_append, shown_append,
          ← List.append_assoc] at hstep
        exact hstep
    unfold forward
    refine pullRule hκ hF rfl (herr _ (Nat.le_add_right _ _)) ?_
    cases event with
    | completed output => exact forward_terminal hκ hF hbefore rest hsource
    | textDelta delta => exact hnext _ rfl rfl rfl
    | toolResult result => exact hnext _ rfl rfl rfl

/-- What was raised on the way out does not change what was passed on. -/
theorem Streamed.raised {base : List Item} {emit : Bool} {r : Except Exn InvocationOutput} {e : Exn}
    {w : World} (h : Streamed p κ L k F base emit r w) :
    Streamed p κ L k F base emit (.error e) w := by
  obtain ⟨source, ds, hhold, hforwarded, -⟩ := h
  exact ⟨source, ds, hhold, hforwarded, fun _ hok => absurd hok (by simp)⟩

/-- A streaming invoker, read to its end and closed. -/
theorem streamInvoker_triple {messages : List Message} (hκ : κ ≠ .idle) (hF : Durable priv p F)
    (hsource : k.source = none) :
    (discipline priv task post).Triple machine p (fun _ _ => True) (Holding p κ L k F)
      (streamInvoker true messages) (Streamed p κ L k F k.pushed true) := by
  unfold streamInvoker
  refine openSourceRule hκ hF hsource ?_ fun source => ?_
  · refine fun e w _ h => ⟨none, [], ?_, rfl, fun _ hok => absurd hok (by simp)⟩
    rw [shown_nil, List.append_nil, ← hsource]
    exact h
  · have hloop : (discipline priv task post).Triple machine p (fun _ _ => True)
        (Holding p κ L { k with source := some ⟨source, 0⟩ } F)
        (forward true source.ending source.events none) (Streamed p κ L k F k.pushed true) := by
      refine Discipline.Triple.pre (fun w _ h => ?_) (forward_triple hκ hF source.events []
        (fun _ h => absurd h List.not_mem_nil) rfl)
      show Holding p κ L { k with pushed := k.pushed ++ [], source := some ⟨source, 0⟩ } F w
      rw [List.append_nil]
      exact h
    refine Discipline.Triple.handle hloop fun r => ?_
    refine outsideSame (C := fun _ _ => True) (f := fun _ => .done r) rfl (Streamed.stable hκ hF)
      (fun _ _ _ _ _ => trivial) (fun e w _ h => h.raised) fun _ => ?_
    exact Discipline.Triple.done ((Streamed.stable hκ hF).and (.const _)) fun w _ h => h.1

/-- The invoker is read to its end. -/
theorem invokeAgent_triple {invoker : Invoker} {emit : Bool} {messages : List Message}
    (hκ : κ ≠ .idle)
    (hF : Durable priv p F) (hsource : k.source = none) :
    (discipline priv task post).Triple machine p (fun _ _ => True) (Holding p κ L k F)
      (invokeAgent invoker emit messages) (Streamed p κ L k F k.pushed emit) := by
  have hnone : ∀ source w, Holding p κ L { k with source := source } F w →
      Holding p κ L { k with pushed := k.pushed ++ shown emit [], source := source } F w := by
    intro source w h
    rw [shown_nil, List.append_nil]
    exact h
  unfold invokeAgent
  split
  · next hstream =>
    rw [Bool.and_eq_true] at hstream
    rw [hstream.1]
    exact streamInvoker_triple hκ hF hsource
  · rw [← bind_pure (perform (.awaitInvoker messages))]
    refine awaitInvokerRule hκ hF hsource ?_ fun output => ?_
    · refine fun e w _ h => ⟨none, [], hnone none w ?_, rfl, fun _ hok => absurd hok (by simp)⟩
      rw [← hsource]
      exact h
    · refine Discipline.Triple.done (Holding.stable hκ hF) fun w _ h => ?_
      refine ⟨_, [], hnone _ w h, .ofOutput output, fun output' hok => ?_⟩
      obtain rfl : output = output' := Except.ok.inj hok
      exact ⟨_, rfl, Reading.ended_ofOutput output, rfl, List.mem_cons_self⟩

-- ---------------------------------------------------------------------------
-- The input messages
-- ---------------------------------------------------------------------------

/-- Continuing after a part that leaves everything as it is. -/
theorem keep {β : Type} {m : P β} {f : β → P α} (hκ : κ ≠ .idle) (hF : Durable priv p F)
    (hm : (discipline priv task post).Triple machine p (fun _ _ => True) (Holding p κ L k F) m
      fun _ => Holding p κ L k F)
    (herr : ∀ e w, Inv priv w → Holding p κ L k F w → Q (.error e) w)
    (hf : ∀ b, (discipline priv task post).Triple machine p (fun _ _ => True)
      (Holding p κ L k F) (f b) Q) :
    (discipline priv task post).Triple machine p (fun _ _ => True) (Holding p κ L k F)
      (m >>= f) Q :=
  Discipline.Triple.bind hm hf fun e => ⟨Holding.stable hκ hF, herr e⟩

theorem lift_triple {β : Type} (r : Except Exn β) (hκ : κ ≠ .idle) (hF : Durable priv p F) :
    (discipline priv task post).Triple machine p (fun _ _ => True) (Holding p κ L k F)
      (lift r : P β) fun _ => Holding p κ L k F :=
  Discipline.Triple.done (Holding.stable hκ hF) fun _ _ h => h

theorem same_triple {o : Op} (hsame : o.isSame = true) (hκ : κ ≠ .idle) (hF : Durable priv p F) :
    (discipline priv task post).Triple machine p (fun _ _ => True) (Holding p κ L k F)
      (perform o) fun _ => Holding p κ L k F := by
  rw [← bind_pure (perform o)]
  refine outsideSame (C := fun _ _ => True) hsame (Holding.stable hκ hF) (fun _ _ _ _ _ => trivial)
    (fun _ _ _ h => h) fun _ => ?_
  exact Discipline.Triple.done ((Holding.stable hκ hF).and (.const _)) fun _ _ h => h.1

/-- A thread check leaves everything as it is. -/
theorem requireThread_triple (t : Uuid) (namespace_ : String) (hκ : κ ≠ .idle)
    (hF : Durable priv p F) :
    (discipline priv task post).Triple machine p (fun _ _ => True) (Holding p κ L k F)
      (requireThread t namespace_) fun _ => Holding p κ L k F := by
  unfold requireThread
  refine keep hκ hF (same_triple rfl hκ hF) (fun _ _ _ h => h) ?_
  rintro (_ | row)
  · exact lift_triple (.error _) hκ hF
  · exact lift_triple (.ok ()) hκ hF

theorem selectBatches_triple (encode : Encoder) (hκ : κ ≠ .idle) (hF : Durable priv p F)
    (batches : List (List MessageRow)) : ∀ s,
    (discipline priv task post).Triple machine p (fun _ _ => True) (Holding p κ L k F)
      (selectBatches encode batches s) fun _ => Holding p κ L k F := by
  induction batches with
  | nil => exact fun s => lift_triple (.ok s) hκ hF
  | cons batch rest ih =>
    intro s
    unfold selectBatches
    refine keep hκ hF (same_triple rfl hκ hF) (fun _ _ _ h => h) fun _ => ?_
    exact keep hκ hF (lift_triple _ hκ hF) (fun _ _ _ h => h) fun s' => ih s'

/-- What a clean-up does does not matter where both leave everything as it is. -/
theorem finally_triple {β : Type} {m : P β} {fin : P Unit} (hκ : κ ≠ .idle) (hF : Durable priv p F)
    (hm : (discipline priv task post).Triple machine p (fun _ _ => True) (Holding p κ L k F) m
      fun _ => Holding p κ L k F)
    (hfin : (discipline priv task post).Triple machine p (fun _ _ => True) (Holding p κ L k F) fin
      fun _ => Holding p κ L k F) :
    (discipline priv task post).Triple machine p (fun _ _ => True) (Holding p κ L k F)
      (m.finallyDo fin) fun _ => Holding p κ L k F := by
  refine Discipline.Triple.handle hm fun r => ?_
  exact keep hκ hF hfin (fun _ _ _ h => h) fun _ => lift_triple r hκ hF

/-- The messages for the invoker: the history of the thread is read once. -/
theorem inputMessagesRule {rt : Runtime} {runId t token : Uuid} {current : List Message}
    {f : List Message → P α} (hκ : κ ≠ .idle) (hF : Durable priv p F) (hread : k.hasRead = false)
    (hfacts : ∀ w, Inv priv w → F w → Committed p (.transition runId .running token none none) w ∧
      ∃ r, Known r w ∧ r.id = runId ∧ r.threadId = t)
    (herr : ∀ hasRead e w, Inv priv w → Holding p κ L { k with hasRead := hasRead } F w →
      Q (.error e) w)
    (hf : ∀ messages, (discipline priv task post).Triple machine p (fun _ _ => True)
      (Holding p κ L { k with hasRead := true } fun w => F w ∧ Watching p runId w) (f messages) Q) :
    (discipline priv task post).Triple machine p (fun _ _ => True) (Holding p κ L k F)
      (inputMessages rt t current >>= f) Q := by
  have herr₀ : ∀ e w, Inv priv w → Holding p κ L k F w → Q (.error e) w := by
    intro e w hi h
    refine herr false e w hi ?_
    rw [← hread]
    exact h
  have hF' : Durable priv p fun w => F w ∧ Watching p runId w := hF.and (Watching.durable runId)
  have herr₁ : ∀ e w, Inv priv w →
      Holding p κ L { k with hasRead := true } (fun w => F w ∧ Watching p runId w) w →
      Q (.error e) w := fun e w hi h => herr true e w hi ⟨h.1, h.2.1, h.2.2.1⟩
  -- the history, and what is made of it
  have hhistory : ∀ {β : Type} (g : List MessageRow → P β) (f' : β → P α),
      (∀ rows, (discipline priv task post).Triple machine p (fun _ _ => True)
        (Holding p κ L { k with hasRead := true } fun w => F w ∧ Watching p runId w) (g rows)
        fun _ => Holding p κ L { k with hasRead := true } fun w => F w ∧ Watching p runId w) →
      (∀ b, (discipline priv task post).Triple machine p (fun _ _ => True)
        (Holding p κ L { k with hasRead := true } fun w => F w ∧ Watching p runId w) (f' b) Q) →
      (discipline priv task post).Triple machine p (fun _ _ => True) (Holding p κ L k F)
        ((do
          requireThread t rt.namespace_
          let rows ← perform (.transcript t)
          g rows) >>= f') Q := by
    intro β g f' hg hf'
    rw [bind_bind]
    refine keep hκ hF (requireThread_triple t _ hκ hF) herr₀ fun _ => ?_
    rw [bind_bind]
    refine historyRule hκ hF hread hfacts herr₀ fun rows => ?_
    exact keep hκ hF' (hg rows) herr₁ hf'
  unfold inputMessages
  split
  · next window hwindow =>
    rw [bind_bind]
    refine hhistory _ _ (fun rows => ?_) fun selection => hf selection.messages
    refine keep hκ hF' (finally_triple hκ hF' (selectBatches_triple _ hκ hF' _ _)
      (same_triple rfl hκ hF')) (fun _ _ _ h => h) fun s => ?_
    refine keep hκ hF' (lift_triple _ hκ hF') (fun _ _ _ h => h) fun s' => ?_
    exact lift_triple _ hκ hF'
  · rw [bind_bind]
    exact hhistory _ _ (fun rows => lift_triple (.ok _) hκ hF') fun history =>
      hf (history ++ current)
  · next window hwindow =>
    rw [bind_bind]
    refine hhistory _ _ (fun rows => lift_triple (.ok _) hκ hF') fun history => ?_
    rw [bind_bind]
    exact keep hκ hF' (lift_triple _ hκ hF') herr₁ fun selection => hf selection.messages

end Execution

-- ---------------------------------------------------------------------------
-- How far a turn came
-- ---------------------------------------------------------------------------

/-- No transition of a run has been seen to commit. -/
def NotUnderway (L : List Call) : Prop := ∀ call ∈ L, call.isTransition = false

/-- The run has been seen to move to running. -/
def Underway (runId : Uuid) (L : List Call) : Prop :=
  ∃ token, .transition runId .running token none none ∈ L

theorem Underway.cons {runId : Uuid} {L : List Call} (h : Underway runId L) (call : Call) :
    Underway runId (call :: L) := by
  obtain ⟨token, hmem⟩ := h
  exact ⟨token, List.mem_cons_of_mem _ hmem⟩

/-- What a stream shows of a turn: that the run of `record` has started, and these events. -/
def Shown (rt : Runtime) (agentId : String) (request : RuntimeRequest) (emit : Bool)
    (record : RunRow) (ds : List RuntimeStreamEvent) (items : List Item) : Prop :=
  ∃ invoker, rt.agents agentId = some invoker ∧ items = shown emit
    (.started record.id request.requestId record.threadId invoker.descriptor :: ds)

/-- The output of the source has this metadata. -/
def Reading.Gives (rd : Reading) (metadata : Metadata) : Prop :=
  ∃ output, .completed output ∈ rd.source.events ∧ output.metadata = metadata

/-- A run with this key and request has succeeded with this response. -/
def Answered (rt : Runtime) (agentId : String) (request : RuntimeRequest) (key : Option String)
    (response : RuntimeResponse) (w : World) : Prop :=
  ∃ row ∈ w.db.runs, row.asked = (agentId, key, some (rt.requestHash request)) ∧
    row.status = .succeeded ∧ row.response = some response

section Progress

variable (rt : Runtime) (agentId : String) (request : RuntimeRequest) (key : Option String)
  (emit : Bool)

/-- How far a turn has come. -/
inductive Progress (L : List Call) (k : Kept) (w : World) : Prop
  | waiting (hwaiting : NotUnderway L) (hpushed : k.pushed = []) (hsource : k.source = none)
  | underway {record : RunRow} {ds : List RuntimeStreamEvent} (hunderway : Underway record.id L)
      (hrun : k.runId = some record.id) (hrow : Known record w) (hforwarded : Forwarded ds k.source)
      (hpushed : Shown rt agentId request emit record ds k.pushed)

/-- How a turn has answered. -/
inductive Responded (response : RuntimeResponse) (L : List Call) (k : Kept) (w : World) : Prop
  | fresh {record : RunRow} {rd : Reading} (hunderway : Underway record.id L)
      (hrun : k.runId = some record.id) (hrow : Known record w)
      (hstored : Stored record.id response w) (hsource : k.source = some rd) (hended : rd.ended)
      (hmetadata : rd.Gives response.metadata)
      (hpushed : Shown rt agentId request emit record (deltasOf rd.source.events) k.pushed)
  | replayed (hwaiting : NotUnderway L) (hrun : k.runId = none)
      (hrow : Answered rt agentId request key response w) (hsource : k.source = none)
      (hpushed : k.pushed = shown emit [startedOf response])

/-- How `_execute` ends. -/
def Executed (p : Pid) (κ : Kind) : Except Exn RuntimeResponse → World → Prop
  | .ok response, w => ∃ L k, At p κ L none w ∧ Turn p k w ∧
      Responded rt agentId request key emit response L k w
  | .error _, w => ∃ L k, Closed p κ L w ∧ Turn p k w ∧ Progress rt agentId request emit L k w

end Progress

section Turns

variable {priv : Bool} {p : Pid} {κ : Kind} {L : List Call} {k : Kept} {F : World → Prop}
  {task : Pid → P Answer → World → Prop} {post : Pid → Except Exn Answer → World → Prop}
  {rt : Runtime} {agentId : String} {request : RuntimeRequest} {key : Option String} {emit : Bool}

theorem Answered.durable (response : RuntimeResponse) :
    Durable priv p (Answered rt agentId request key response) := by
  rintro w w' hi hi' hevo hkind ⟨row, hrow, hasked, hstatus, hresponse⟩
  have hfinal : Final row w := ⟨hrow, by rw [hstatus]; rfl⟩
  exact ⟨row, (Final.durable row w w' hi hi' hevo hkind hfinal).1, hasked, hstatus, hresponse⟩

theorem Progress.durable (L : List Call) (k : Kept) :
    Durable priv p (Progress rt agentId request emit L k) := by
  intro w w' hi hi' hevo hkind h
  cases h with
  | waiting hwaiting hpushed hsource => exact .waiting hwaiting hpushed hsource
  | underway hunderway hrun hrow hforwarded hpushed =>
    exact .underway hunderway hrun (Known.durable _ w w' hi hi' hevo hkind hrow) hforwarded hpushed

theorem Responded.durable (response : RuntimeResponse) (L : List Call) (k : Kept) :
    Durable priv p (Responded rt agentId request key emit response L k) := by
  intro w w' hi hi' hevo hkind h
  cases h with
  | fresh hunderway hrun hrow hstored hsource hended hmetadata hpushed =>
    exact .fresh hunderway hrun (Known.durable _ w w' hi hi' hevo hkind hrow)
      (Stored.durable _ _ w w' hi hi' hevo hkind hstored) hsource hended hmetadata hpushed
  | replayed hwaiting hrun hrow hsource hpushed =>
    exact .replayed hwaiting hrun (Answered.durable _ w w' hi hi' hevo hkind hrow) hsource hpushed

theorem Holding.closed {w : World} (h : Holding p κ L k F w) : Closed p κ L w := h.1.closed

theorem SourceEnded.durable : Durable priv p fun w => SourceEnded w p :=
  fun _ _ _ _ hevo _ h => hevo.ended p h

/-- A process that is no clean-up passes to the store what it likes, as far as its call is one
that anybody may make. -/
theorem callPriv_public {w : World} {call : Call} {n : Time} (hkind : w.kind p = κ)
    (hκ : ∀ q status, κ ≠ .cleanup q status) (hcall : call.isPublic = true) :
    CallPriv w ⟨p, call, n, none, []⟩ := by
  constructor
  · rintro args rfl
    exact absurd hcall Bool.false_ne_true
  · rintro runId status token response code rfl
    exact absurd hcall Bool.false_ne_true
  · rintro runId token messages response rfl
    exact absurd hcall Bool.false_ne_true
  · rintro runId token code status rfl
    exact absurd hcall Bool.false_ne_true
  · exact fun q status h => absurd (hkind.symm.trans h) (hκ q status)

/-- A turn that fails once its run is under way. -/
theorem Executed.failed {record : RunRow} {ds : List RuntimeStreamEvent} {w : World} {e : Exn}
    (hunderway : Underway record.id L) (hrun : k.runId = some record.id)
    (hshown : Shown rt agentId request emit record ds k.pushed) (hforwarded : Forwarded ds k.source)
    (h : Holding p κ L k F w) (hrow : Known record w) :
    Executed rt agentId request key emit p κ (.error e) w :=
  ⟨L, k, h.closed, h.2.1, .underway hunderway hrun hrow hforwarded hshown⟩

/-- What an invocation knows of its run from the transition to running on. -/
def Owning (p : Pid) (record : RunRow) (token : Uuid) (w : World) : Prop :=
  Minted p record.id w ∧ Known record w ∧
    Committed p (.transition record.id .running token none none) w

theorem Owning.durable (record : RunRow) (token : Uuid) : Durable priv p (Owning p record token) :=
  (Minted.durable _).and ((Known.durable _).and (Committed.durable _ _))

/-- The end of a turn, once the invoker has produced its output. -/
theorem finishTurn_triple {invoker : Invoker} {record : RunRow} {token : Uuid}
    {output : InvocationOutput} {rd : Reading} (hκ : κ ≠ .idle)
    (hclean : ∀ q status, κ ≠ .cleanup q status) (htask : ResolverTask priv task)
    (hunderway : Underway record.id L) (hrun : k.runId = some record.id)
    (hshown : Shown rt agentId request emit record (deltasOf rd.source.events) k.pushed)
    (hsource : k.source = some rd) (hended : rd.ended)
    (houtput : .completed output ∈ rd.source.events) :
    (discipline priv task post).Triple machine p (fun _ _ => True)
      (Holding p κ L k fun w => Owning p record token w ∧ Watching p record.id w)
      (do
        perform (.hook .afterModel output.messages)
        let assistant ← lift (finalAssistant output.messages)
        let traceId ← perform .traceId
        let response := responseOf request invoker.descriptor record.id record.threadId output
          assistant traceId
        let _ ← complete record.id token (request.messages ++ output.messages) response
        pure response)
      (Executed rt agentId request key emit p κ) := by
  have hF : Durable priv p fun w => Owning p record token w ∧ Watching p record.id w :=
    (Owning.durable _ _).and (Watching.durable _)
  have hforwarded : Forwarded (deltasOf rd.source.events) k.source := by
    rw [hsource]
    exact ⟨List.prefix_rfl, fun _ => rfl⟩
  have hfail : ∀ e w, Inv priv w →
      Holding p κ L k (fun w => Owning p record token w ∧ Watching p record.id w) w →
      Executed rt agentId request key emit p κ (.error e) w :=
    fun e w _ h => .failed hunderway hrun hshown hforwarded h h.2.2.1.2.1
  refine keep hκ hF (same_triple rfl hκ hF) hfail fun _ => ?_
  refine keep hκ hF (lift_triple _ hκ hF) hfail fun assistant => ?_
  refine traceIdRule hκ hF fun traceId => ?_
  -- the output is there when the completion is issued
  have hA : Durable priv p fun w =>
      (Owning p record token w ∧ Watching p record.id w) ∧ SourceEnded w p :=
    hF.and SourceEnded.durable
  refine Discipline.Triple.pre (A := fun w => Holding p κ L k _ w ∧ SourceEnded w p) ?_
    (storeCall hκ hF (.const _) (complete_triple hκ hA.lasts.persists htask (fun w _ h => h.1.2) ?_)
      (fun w _ hf he => ⟨hf, he⟩) ?_ fun _ => ?_)
  · exact fun w _ h => ⟨h, rd, h.2.1.source.trans hsource, hended⟩
  · -- what a completion may ask of its caller, and only this call is one
    intro w hi hat h _
    constructor
    · exact fun args h => Call.noConfusion h
    · exact fun _ _ _ _ _ h => Call.noConfusion h
    · rintro runId t messages response hcall
      injection hcall with hcall
      exact ⟨hcall ▸ h.1.1.1, h.2⟩
    · exact fun _ _ _ _ h => Call.noConfusion h
    · exact fun q status h => absurd (hat.kind.symm.trans h) (hclean q status)
  · -- the commit may have gone through although the call raises
    intro e w _ hclosed hturn h _
    exact ⟨L, k, hclosed, hturn, .underway hunderway hrun h.1.2.1 hforwarded hshown⟩
  · refine Holding.learn (Discipline.Triple.done (Holding.stable hκ
      (hF.and (Stored.durable record.id _))) fun w _ h => ?_)
    exact ⟨_, k, h.1, h.2.1, .fresh (hunderway.cons _) hrun h.2.2.1.1.2.1 h.2.2.2 hsource hended
      ⟨output, houtput, rfl⟩ hshown⟩

/-- The turn of a run that the invocation has claimed. -/
theorem runClaimed_triple {invoker : Invoker} {record : RunRow} {token : Uuid} (hκ : κ ≠ .idle)
    (hclean : ∀ q status, κ ≠ .cleanup q status) (htask : ResolverTask priv task)
    (hagent : rt.agents agentId = some invoker) (hrecord : record.agentId = agentId)
    (hkey : record.idempotencyKey = key) (hL : NotUnderway L) :
    (discipline priv task post).Triple machine p (fun _ _ => True)
      (Holding p κ L ⟨some record.id, [], none, false, false⟩
        fun w => Minted p record.id w ∧ Known record w)
      (runClaimed rt invoker request key emit record.id record.threadId token)
      (Executed rt agentId request key emit p κ) := by
  have hid : invoker.descriptor.agentId = agentId := rt.validAgents _ _ hagent
  have hF₀ : Durable priv p fun w => Minted p record.id w ∧ Known record w :=
    (Minted.durable _).and (Known.durable _)
  have hF : Durable priv p (Owning p record token) := Owning.durable record token
  unfold runClaimed
  -- the transition to running
  refine Discipline.Triple.pre (A := fun w => Holding p κ L _ _ w ∧ True)
    (fun _ _ h => ⟨h, trivial⟩) ?_
  refine storeCall hκ hF₀ (.const _) (transition_triple hκ (.const True) htask ?_ (by decide))
    (fun _ _ _ _ => trivial) ?_ fun _ => ?_
  · intro w hi hat _ _
    constructor
    · exact fun args h => Call.noConfusion h
    · rintro runId status t response code h
      injection h with _ h
      exact h.symm
    · exact fun _ _ _ _ h => Call.noConfusion h
    · exact fun _ _ _ _ h => Call.noConfusion h
    · exact fun q status h => absurd (hat.kind.symm.trans h) (hclean q status)
  · exact fun e w _ hclosed hturn _ _ => ⟨_, _, hclosed, hturn, .waiting hL rfl rfl⟩
  -- from here on a failure leaves a run that is underway, with `started` in the queue
  have hunderway : Underway record.id (.transition record.id .running token none none :: L) :=
    ⟨token, List.mem_cons_self⟩
  have hshown : ∀ ds, Shown rt agentId request emit record ds (shown emit
      [.started record.id request.requestId record.threadId invoker.descriptor] ++ shown emit ds) :=
    fun ds => ⟨invoker, hagent, by rw [← shown_append]; rfl⟩
  have hstarted : Shown rt agentId request emit record [] (shown emit
      [.started record.id request.requestId record.threadId invoker.descriptor]) :=
    ⟨invoker, hagent, rfl⟩
  refine Discipline.Triple.pre (fun w _ h => ⟨h.1.1, h.1.2.1, h.1.2.2.1, h.1.2.2.2, h.2.2⟩)
    (emitRule (k := ⟨some record.id, [], none, false, false⟩) hκ hF
      (fun _ h => absurd h (by simp)) ?_)
  -- the history
  refine inputMessagesRule hκ hF rfl (fun w _ h => ⟨h.2.2, record, h.2.1, rfl, rfl⟩)
    (fun _ _ _ _ h => .failed hunderway rfl hstarted forwarded_none h h.2.2.2.1) fun messages => ?_
  have hF' : Durable priv p fun w => Owning p record token w ∧ Watching p record.id w :=
    hF.and (Watching.durable record.id)
  refine keep hκ hF' (same_triple rfl hκ hF')
    (fun _ _ _ h => .failed hunderway rfl hstarted forwarded_none h h.2.2.1.2.1) fun _ => ?_
  -- the invoker
  refine enterRule hκ hF' rfl ?_ ?_
  · rintro w hi ⟨⟨hmint, ⟨row, hrow, hsame, -⟩, -⟩, -⟩
    exact ⟨hmint, row, hrow, hsame.id, hsame.agentId.trans (hrecord.trans hid.symm),
      hsame.idempotencyKey.trans hkey⟩
  refine Discipline.Triple.bind (invokeAgent_triple hκ hF' rfl) (fun output => ?_) fun e =>
    ⟨Streamed.stable hκ hF', fun w _ ⟨source, ds, h, hforwarded, _⟩ =>
      .failed hunderway rfl (hshown ds) hforwarded h h.2.2.1.2.1⟩
  -- the hooks after it, and the completion
  intro w hi ⟨source, ds, h, _, hend⟩
  obtain ⟨rd, rfl, hended, rfl, houtput⟩ := hend output rfl
  exact finishTurn_triple hκ hclean htask hunderway rfl (hshown _) rfl hended houtput w hi h

-- ---------------------------------------------------------------------------
-- Replays
-- ---------------------------------------------------------------------------

/-- A record of a run with this key. -/
def Replayable (agentId : String) (key : Option String) (run : RunRecord) (w : World) : Prop :=
  Known run w ∧ run.agentId = agentId ∧ run.idempotencyKey = key

theorem Replayable.durable (run : RunRecord) : Durable priv p (Replayable agentId key run) :=
  (Known.durable run).and (.const _)

/-- Another record of the same run. -/
theorem Replayable.of_id {run other : RunRecord} {w : World} (hi : Inv priv w)
    (h : Replayable agentId key run w) (hknown : Known other w) (hid : other.id = run.id) :
    Replayable agentId key other w := by
  obtain ⟨⟨row, hrow, hsame, -⟩, hagent, hkey⟩ := h
  obtain ⟨row', hrow', hsame', -⟩ := id hknown
  have heq : row' = row := hi.db.unique_id hrow' hrow (by rw [hsame'.id, hsame.id, hid])
  subst heq
  exact ⟨hknown, by rw [← hsame'.agentId, hsame.agentId, hagent],
    by rw [← hsame'.idempotencyKey, hsame.idempotencyKey, hkey]⟩

theorem replay_ok {run : RunRecord} {hash : String} {response : RuntimeResponse}
    (h : replay run hash = .ok response) :
    run.requestHash = some hash ∧ run.status = .succeeded ∧ run.response = some response := by
  unfold replay at h
  split at h
  · exact absurd h (by simp)
  · next hhash =>
    split at h
    · exact absurd h (by simp)
    · split at h
      · next hstatus hresponse =>
        rw [Except.ok.inj h] at hresponse
        exact ⟨not_not.mp hhash, hstatus, hresponse⟩
      · exact absurd h (by simp)

/-- What a replay answers is stored. -/
theorem Replayable.answered {run : RunRecord} {response : RuntimeResponse} {w : World}
    (h : Replayable agentId key run w)
    (hreplay : replay run (rt.requestHash request) = .ok response) :
    Answered rt agentId request key response w := by
  obtain ⟨⟨row, hrow, -, hdone⟩, hagent, hkey⟩ := h
  obtain ⟨hhash, hstatus, hresponse⟩ := replay_ok hreplay
  have heq : row = run := hdone (by rw [hstatus]; rfl)
  subst heq
  exact ⟨row, hrow, by rw [RunRow.asked, hagent, hkey, hhash], hstatus, hresponse⟩

/-- The state of an invocation that has named no run and shown nothing. -/
def Kept.fresh : Kept := ⟨none, [], none, false, false⟩

theorem Executed.refused {w : World} {e : Exn} (hL : NotUnderway L) (hpushed : k.pushed = [])
    (hsource : k.source = none) (h : Holding p κ L k F w) :
    Executed rt agentId request key emit p κ (.error e) w :=
  ⟨L, k, h.closed, h.2.1, .waiting hL hpushed hsource⟩

/-- A replay shows that its run has started, and answers. -/
theorem replayTo_triple {run : RunRecord} (hκ : κ ≠ .idle)
    (hL : NotUnderway L) :
    (discipline priv task post).Triple machine p (fun _ _ => True)
      (Holding p κ L .fresh (Replayable agentId key run))
      (replayTo emit run (rt.requestHash request))
      (Executed rt agentId request key emit p κ) := by
  have hF : Durable priv p (Replayable agentId key run) := Replayable.durable run
  unfold replayTo
  cases hreplay : replay run (rt.requestHash request) with
  | error e =>
    exact Discipline.Triple.done (Holding.stable hκ hF) fun w _ h => .refused hL rfl rfl h
  | ok response =>
    refine emitRule (k := .fresh) hκ hF (fun _ h => absurd h (by simp [Kept.fresh])) ?_
    refine Discipline.Triple.done (Holding.stable hκ hF) fun w _ h => ?_
    exact ⟨L, _, h.1, h.2.1, .replayed hL rfl (h.2.2.answered hreplay) rfl (List.nil_append _)⟩

theorem NotUnderway.cons {call : Call} (hL : NotUnderway L) (hcall : call.isTransition = false) :
    NotUnderway (call :: L) := by
  intro c hc
  rcases List.mem_cons.mp hc with rfl | hc
  · exact hcall
  · exact hL c hc

/-- The replay of a run that was found, recovered first where `c` says so. -/
theorem replayFound_triple {run : RunRecord} {c : Prop} [Decidable c] (hκ : κ ≠ .idle)
    (hclean : ∀ q status, κ ≠ .cleanup q status) (htask : ResolverTask priv task)
    (hL : NotUnderway L) :
    (discipline priv task post).Triple machine p (fun _ _ => True)
      (Holding p κ L .fresh (Replayable agentId key run))
      (do
        requireScopedThread rt run.threadId
        if c then do
          let recovered ← recover run.id
          replayTo emit recovered (rt.requestHash request)
        else replayTo emit run (rt.requestHash request))
      (Executed rt agentId request key emit p κ) := by
  have hF : Durable priv p (Replayable agentId key run) := Replayable.durable run
  unfold requireScopedThread getThread
  rw [bind_bind]
  refine keep hκ hF (same_triple rfl hκ hF) (fun _ _ _ h => .refused hL rfl rfl h) ?_
  rintro (_ | thread)
  · exact Discipline.Triple.done (Holding.stable hκ hF) fun w _ h => .refused hL rfl rfl h
  · rw [pure_bind]
    split
    · refine Discipline.Triple.pre (A := fun w => Holding p κ L .fresh _ w ∧ True)
        (fun _ _ h => ⟨h, trivial⟩) ?_
      refine storeCall hκ hF (.const _) (recover_triple hκ (.const True) htask ?_)
        (fun _ _ _ _ => trivial) ?_
        fun recovered => ?_
      · exact fun w _ hat _ _ => callPriv_public hat.kind hclean rfl
      · exact fun e w _ hclosed hturn _ _ => ⟨L, _, hclosed, hturn, .waiting hL rfl rfl⟩
      · refine Discipline.Triple.pre (fun w hi h => ⟨h.1.1, h.1.2.1, ?_⟩)
          (replayTo_triple hκ (hL.cons rfl))
        exact h.1.2.2.of_id hi h.2.1 h.2.2
    · exact replayTo_triple hκ hL

-- ---------------------------------------------------------------------------
-- The whole turn
-- ---------------------------------------------------------------------------

/-- The thread of a request: at most one `create_thread` has committed. -/
theorem openThreadRule {f : ThreadRow → P RuntimeResponse} (hκ : κ ≠ .idle)
    (hclean : ∀ q status, κ ≠ .cleanup q status) (htask : ResolverTask priv task)
    (hF : Durable priv p F) (hL : NotUnderway L)
    (hf : ∀ thread L, NotUnderway L → (discipline priv task post).Triple machine p (fun _ _ => True)
      (Holding p κ L .fresh F) (f thread) (Executed rt agentId request key emit p κ)) :
    (discipline priv task post).Triple machine p (fun _ _ => True) (Holding p κ L .fresh F)
      (openThread rt request >>= f) (Executed rt agentId request key emit p κ) := by
  unfold openThread
  split
  · unfold createThread
    rw [bind_bind]
    refine uuidRule hκ hF fun threadId => ?_
    refine Discipline.Triple.pre (A := fun w => Holding p κ L .fresh F w ∧ True)
      (fun _ _ h => ⟨⟨h.1.1, h.1.2.1, h.1.2.2.1⟩, trivial⟩) ?_
    refine storeCall hκ hF (.const _) (createThreadIn_triple hκ htask ?_)
      (fun _ _ _ _ => trivial) ?_
      fun thread => ?_
    · exact fun w _ hat _ => callPriv_public hat.kind hclean rfl
    · exact fun e w _ hclosed hturn _ _ => ⟨L, _, hclosed, hturn, .waiting hL rfl rfl⟩
    · exact Discipline.Triple.pre (fun _ _ h => h.1) (hf thread _ (hL.cons rfl))
  · unfold getThread
    rw [bind_bind]
    refine keep hκ hF (same_triple rfl hκ hF) (fun _ _ _ h => .refused hL rfl rfl h) ?_
    rintro (_ | thread)
    · exact Discipline.Triple.done (Holding.stable hκ hF) fun w _ h => .refused hL rfl rfl h
    · exact hf thread L hL

/-- `p` has named this run. -/
def Named (p : Pid) (u : Uuid) (w : World) : Prop := w.runId p = some u

theorem Named.lasts (u : Uuid) : Lasts priv p (Named p u) :=
  fun _ _ _ _ hq h => hq.runId.trans h

/-- A claim that found an earlier run. -/
theorem replayClaimed_triple {run : RunRecord} {u : Uuid} (hκ : κ ≠ .idle)
    (hclean : ∀ q status, κ ≠ .cleanup q status) (htask : ResolverTask priv task)
    (hL : NotUnderway L) :
    (discipline priv task post).Triple machine p (fun _ _ => True)
      (fun w => Holding p κ L ⟨some u, [], none, false, false⟩
        (fun w => Minted p u w ∧ Replayable agentId key run w) w ∧ Absent priv p u w)
      (replayClaimed rt emit run (rt.requestHash request))
      (Executed rt agentId request key emit p κ) := by
  have hF : Durable priv p fun w => Minted p u w ∧ Replayable agentId key run w :=
    (Minted.durable u).and (Replayable.durable run)
  unfold replayClaimed
  refine setRunIdRule hκ hF (fun _ h => h.1) (Or.inr ⟨rfl, rfl⟩) ?_
  refine Discipline.Triple.pre (fun w _ h => ?_)
    (replayFound_triple (c := run.status.isActive = true) hκ hclean htask hL)
  exact ⟨h.1.1, h.1.2.1, h.1.2.2.2⟩

/-- `_execute` once the key is not known to belong to an earlier run. -/
theorem runFresh_triple {invoker : Invoker} {token : Uuid} (hκ : κ ≠ .idle)
    (hclean : ∀ q status, κ ≠ .cleanup q status) (htask : ResolverTask priv task)
    (hasked : κ.asked = some (agentId, key, some (rt.requestHash request)))
    (hagent : rt.agents agentId = some invoker) (hL : NotUnderway L) :
    (discipline priv task post).Triple machine p (fun _ _ => True)
      (Holding p κ L .fresh fun _ => True)
      (runFresh rt invoker request key emit token)
      (Executed rt agentId request key emit p κ) := by
  have hid : invoker.descriptor.agentId = agentId := rt.validAgents _ _ hagent
  unfold runFresh
  refine openThreadRule hκ hclean htask (.const True) hL fun thread L hL => ?_
  refine uuidRule hκ (.const True) fun u => ?_
  have hF : Durable priv p (Minted p u) := Minted.durable u
  refine Discipline.Triple.pre (fun _ _ h => ⟨⟨h.1.1, h.1.2.1, h.1.2.2.2⟩, h.2⟩)
    (setRunIdRule (k := .fresh) hκ hF (fun _ h => h) (Or.inl ⟨rfl, rfl⟩) ?_)
  refine Discipline.Triple.pre
    (A := fun w => Holding p κ L _ (Minted p u) w ∧ Absent priv p u w ∧ Named p u w)
    (fun w _ h => ⟨h.1, h.2, h.1.2.1.runId⟩) (storeCall hκ hF (.const _) (claim_triple
      hκ ((Absent.persists u).and (Named.lasts u).persists) htask (fun _ _ h => h.1) rfl ?_)
      (fun _ _ _ h => h) ?_ fun c => ?_)
  · intro w hi hat h hpriv
    constructor
    · rintro args hcall
      injection hcall with hcall
      subst hcall
      refine ⟨(h.1 hpriv).2.1, h.2, ?_⟩
      rw [show w.kind p = κ from hat.kind, hasked]
      exact congrArg (fun a => some (a, key, some (rt.requestHash request))) hid.symm
    · exact fun _ _ _ _ _ h => Call.noConfusion h
    · exact fun _ _ _ _ h => Call.noConfusion h
    · exact fun _ _ _ _ h => Call.noConfusion h
    · exact fun q status h => absurd (hat.kind.symm.trans h) (hclean q status)
  · exact fun e w _ hclosed hturn _ _ => ⟨L, _, hclosed, hturn, .waiting hL rfl rfl⟩
  · intro w hi h
    obtain ⟨hhold, hanswers, hknown, hcreated, hfound⟩ := h
    have hL' : NotUnderway (.claim (claimArgsOf rt invoker request key u thread.id token) :: L) :=
      hL.cons rfl
    split
    · next hnew =>
      have hrun : c.run.id = u := (hcreated hnew).1
      have hthread : c.run.threadId = thread.id := (hcreated hnew).2
      subst hrun
      rw [← hthread]
      exact runClaimed_triple hκ hclean htask hagent (hanswers.1.trans hid) hanswers.2.1 hL' w hi
        ⟨hhold.1, hhold.2.1, hhold.2.2, hknown⟩
    · next hold =>
      refine replayClaimed_triple hκ hclean htask hL' w hi ⟨⟨hhold.1, hhold.2.1, hhold.2.2, hknown,
        hanswers.1.trans hid, hanswers.2.1⟩, hfound (Bool.eq_false_iff.mpr hold)⟩

/-- `_execute`. -/
theorem execute_triple {token : Uuid} (hκ : κ ≠ .idle) (hclean : ∀ q status, κ ≠ .cleanup q status)
    (htask : ResolverTask priv task)
    (hasked : κ.asked = some (agentId, key, some (rt.requestHash request))) (hL : NotUnderway L) :
    (discipline priv task post).Triple machine p (fun _ _ => True)
      (Holding p κ L .fresh fun _ => True)
      (execute rt agentId request key emit token)
      (Executed rt agentId request key emit p κ) := by
  have hF : Durable priv p fun _ => True := .const True
  unfold execute Runtime.agent
  cases hagent : rt.agents agentId with
  | none => exact Discipline.Triple.done (Holding.stable hκ hF) fun w _ h => .refused hL rfl rfl h
  | some invoker =>
    rw [lift_ok_bind]
    cases key with
    | none => exact runFresh_triple hκ hclean htask hasked hagent hL
    | some k =>
      unfold getByIdempotency
      dsimp only
      rw [bind_bind]
      refine outsideSame (C := fun rows w => ∀ r ∈ rows, Replayable agentId (some k) r w) rfl
        (Holding.stable hκ hF) ?_ (fun e w _ h => .refused hL rfl rfl h) fun rows => ?_
      · intro w rows _ h hrows r hr
        have hview : w.view p = w.db := by
          rw [World.view, h.1.session]
        simp only [execOk, hview] at hrows
        obtain rfl : (w.db.runsByKey agentId (some k) : List RunRow) = rows := by
          simpa [answer] using hrows
        obtain ⟨hmem, ha, hk⟩ := Db.mem_runsByKey.mp hr
        exact ⟨known_of_mem hmem, ha, hk⟩
      · have hrows : Durable priv p fun w => ∀ r ∈ rows, Replayable agentId (some k) r w :=
          fun w w' hi hi' hevo hkind h r hr =>
            Replayable.durable r w w' hi hi' hevo hkind (h r hr)
        refine Holding.learn ?_
        cases hfound : scalarOneOrNone rows with
        | error e =>
          exact Discipline.Triple.done (Holding.stable hκ (hF.and hrows))
            fun w _ h => .refused hL rfl rfl h
        | ok found =>
          cases found with
          | none =>
            exact Discipline.Triple.pre (fun _ _ h => ⟨h.1, h.2.1, trivial⟩)
              (runFresh_triple hκ hclean htask hasked hagent hL)
          | some previous =>
            refine Discipline.Triple.pre (fun w _ h => ⟨h.1, h.2.1, ?_⟩)
              (replayFound_triple hκ hclean htask hL)
            refine h.2.2.2 previous ?_
            rw [scalarOneOrNone_some hfound]
            exact List.mem_cons_self

end Turns

end AgentRuntimeKit
