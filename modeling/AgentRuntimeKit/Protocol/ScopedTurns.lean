import AgentRuntimeKit.Protocol.Confinement

/-!
# One turn within its namespace

`_execute`, watched for the namespace of its runtime. A run that was found by its key is
recovered and replayed only after its thread was found in the namespace.

## Results

* `inputMessages_confines` — the input messages are those of the request and of the namespace.
* `invokeAgent_confines`   — the output is one that the invoker has put out.
* `execute_confines`       — one whole turn.
-/

namespace AgentRuntimeKit

open Lib Prog

section Turns

variable {name : String} {p : Pid} {α β : Type} {A F : World → Prop} {R : α → World → Prop}

/-- What an operation outside of a transaction answers. -/
theorem outside_keep {o : Op} {f : Res o → P α} {C : Res o → World → Prop} (hF : Durable true p F)
    (ho : o.leavesState = true)
    (hwithin : ∀ w, Inv true w → Scoped w → ActsIn name p w → F w → o.Within name p w)
    (hC : ∀ a, Durable true p (C a))
    (hok : ∀ w c a w' fs, Inv true w → Scoped w → Inv true w' → Outside p F w → ActsIn name p w →
      exec p w o c = some (.ok a, w', fs) → C a w ∨ C a w')
    (hf : ∀ a, Confines name p (Outside p fun w => F w ∧ C a w) (f a) R) :
    Confines name p (Outside p F) (perform o >>= f) R := by
  refine Confines.keep (Outside.rests hF) ho (fun w hi hs hacts h => hwithin w hi hs hacts h.2)
    (C := C) ?_ fun a => (hf a).pre fun _ _ _ _ h => ⟨h.1.1, h.1.2, h.2⟩
  intro w c a w' fs hi hs hi' _ hevo hacts h hx
  rcases hok w c a w' fs hi hs hi' h hacts hx with hold | hnew
  · exact hC a w w' hi hi' hevo (hevo.kind p hacts.started) hold
  · exact hnew

/-- An operation outside of a transaction. -/
theorem outside_same {o : Op} {f : Res o → P α} (hF : Durable true p F) (ho : o.leavesState = true)
    (hwithin : ∀ w, Inv true w → Scoped w → ActsIn name p w → F w → o.Within name p w)
    (hf : ∀ a, Confines name p (Outside p F) (f a) R) :
    Confines name p (Outside p F) (perform o >>= f) R :=
  Confines.same (Outside.rests hF) ho (fun w hi hs hacts h => hwithin w hi hs hacts h.2) hf

-- ---------------------------------------------------------------------------
-- Threads
-- ---------------------------------------------------------------------------

theorem thread_found {w w' : World} {t : Uuid} {c : Choice} {row : ThreadRow} {fs : Forks}
    (hview : w.view p = w.db)
    (h : exec p w (.getThread t (some name)) c = some (.ok (some row), w', fs)) :
    row.id = t ∧ InNamespace name t w.db := by
  rcases exec_plain rfl h with hx | ⟨e, he, -⟩
  · simp only [execOk, answer, hview] at hx
    obtain ⟨hfound, -⟩ : _ ∧ _ := by
      simpa only [Option.some.injEq, Prod.mk.injEq, Except.ok.injEq] using hx
    have hmem := List.mem_of_find?_eq_some hfound
    obtain ⟨hid, hname⟩ : row.id = t ∧ row.namespace_ = name := by
      simpa using List.find?_some hfound
    exact ⟨hid, row, hmem, hid, hname⟩
  · exact absurd he (by simp)

/-- `get_thread` in the namespace. -/
theorem getThread_confines {t : Uuid} {f : Option ThreadRow → P α} (hF : Durable true p F)
    (hnone : Confines name p (Outside p F) (f none) R)
    (hsome : ∀ row : ThreadRow, row.id = t → Confines name p
      (Outside p fun w => F w ∧ InNamespace name t w.db) (f (some row)) R) :
    Confines name p (Outside p F) (perform (.getThread t (some name)) >>= f) R := by
  refine outside_keep (C := fun found w => ∀ row, found = some row → row.id = t ∧
    InNamespace name t w.db) hF rfl (fun _ _ _ _ _ => trivial) ?_ ?_ ?_
  · exact fun found w w' hi hi' hevo hkind h row hrow =>
      ⟨(h row hrow).1, (h row hrow).2.later hevo⟩
  · rintro w c found w' fs hi hs hi' h hacts hx
    left
    rintro row rfl
    exact thread_found h.view hx
  · rintro (_ | row)
    · exact hnone.pre fun _ _ _ _ h => ⟨h.1, h.2.1⟩
    · by_cases hid : row.id = t
      · exact (hsome row hid).pre fun _ _ _ _ h => ⟨h.1, h.2.1, (h.2.2 row rfl).2⟩
      · exact fun φ w _ h => absurd (h.2.2.2 row rfl).1 hid

theorem requireScopedThread_confines {rt : Runtime} {t : Uuid} {f : Unit → P α}
    (hF : Durable true p F)
    (hf : Confines rt.namespace_ p (Outside p fun w => F w ∧ InNamespace rt.namespace_ t w.db)
      (f ()) R) :
    Confines rt.namespace_ p (Outside p F) (requireScopedThread rt t >>= f) R := by
  unfold requireScopedThread AgentRuntimeKit.getThread
  rw [bind_bind]
  exact getThread_confines hF (Confines.throw (Outside.rests hF)) fun row _ => hf

theorem requireThread_confines {t : Uuid} {f : Unit → P α} (hF : Durable true p F)
    (hf : Confines name p (Outside p F) (f ()) R) :
    Confines name p (Outside p F) (requireThread t name >>= f) R := by
  unfold requireThread
  rw [bind_bind]
  exact getThread_confines hF (Confines.throw (Outside.rests hF)) fun row _ =>
    hf.pre fun _ _ _ _ h => ⟨h.1, h.2.1⟩

/-- The thread of a request. -/
theorem openThread_confines {rt : Runtime} {request : RuntimeRequest} (hF : Durable true p F) :
    Confines rt.namespace_ p (Outside p F) (openThread rt request) fun thread =>
      Outside p fun w => F w ∧ InNamespace rt.namespace_ thread.id w.db := by
  unfold openThread
  split
  · exact Confines.createThread hF
  · unfold AgentRuntimeKit.getThread
    refine getThread_confines hF (Confines.throw (Outside.rests hF)) fun row hid => ?_
    refine Confines.pure (Outside.rests (hF.and InNamespace.durable)) fun w h => ?_
    rw [hid]
    exact h

-- ---------------------------------------------------------------------------
-- Replays
-- ---------------------------------------------------------------------------

/-- What `emit` passes on is about a run of the namespace. -/
theorem emitEvent_confines {emit : Bool} {e : RuntimeStreamEvent} {f : Unit → P α}
    (hA : Rests p A) (hwithin : ∀ w, A w → ∀ runId, (Item.event e).runId = some runId →
      RunWithin name runId w.db) (hf : Confines name p A (f ()) R) :
    Confines name p A (emitEvent emit e >>= f) R := by
  unfold emitEvent
  split
  · exact Confines.same hA rfl (fun w _ _ _ h => hwithin w h) fun _ => hf
  · exact hf

/-- The response is one of a run of the namespace. -/
def Answered.Within (name : String) (response : RuntimeResponse) (w : World) : Prop :=
  RunWithin name response.runId w.db

theorem replayTo_confines {emit : Bool} {run : RunRecord} {hash : String} (hF : Durable true p F)
    (hrun : ∀ w, F w → Listed run w ∧ InNamespace name run.threadId w.db) :
    Confines name p (Outside p F) (replayTo emit run hash) (Answered.Within name) := by
  have hA := Outside.rests hF
  unfold replayTo
  refine Confines.liftBind hA fun response hreplay => ?_
  have hwithin : ∀ w, Outside p F w → RunWithin name response.runId w.db := by
    intro w h
    obtain ⟨hlisted, ht⟩ := hrun w h.2
    rw [hlisted.2 response (replay_ok hreplay).2.2]
    exact hlisted.within ht
  refine emitEvent_confines hA (fun w h runId hid => ?_) (Confines.pure hA hwithin)
  rw [← Option.some.inj hid]
  exact hwithin w h

/-- The replay of a run that was found. -/
theorem replayFound_confines {rt : Runtime} {emit : Bool} {run : RunRecord} {hash : String}
    {c : Prop} [Decidable c] :
    Confines rt.namespace_ p (Outside p (Listed run))
      (do
        requireScopedThread rt run.threadId
        if c then do
          let recovered ← recover run.id
          replayTo emit recovered hash
        else replayTo emit run hash)
      (Answered.Within rt.namespace_) := by
  refine requireScopedThread_confines Listed.durable ?_
  have hF : Durable true p fun w => Listed run w ∧ InNamespace rt.namespace_ run.threadId w.db :=
    Listed.durable.and InNamespace.durable
  have howned : ∀ w, Listed run w ∧ InNamespace rt.namespace_ run.threadId w.db →
      Owned rt.namespace_ run.id w := fun w h => Or.inl (h.1.within h.2)
  split
  · refine Confines.bind (Confines.recover hF howned) fun recovered => ?_
    refine Confines.pre (A := Outside p fun w => Listed recovered w ∧
      InNamespace rt.namespace_ recovered.threadId w.db) ?_ ?_
    · exact replayTo_confines (Listed.durable.and InNamespace.durable) fun _ h => h
    · rintro w hi hs - ⟨hnone, h, hlisted, hid⟩
      exact ⟨hnone, hlisted, (howned w h).thread hi hs hlisted hid⟩
  · exact replayTo_confines hF fun _ h => h

-- ---------------------------------------------------------------------------
-- The input messages
-- ---------------------------------------------------------------------------

/-- What does not depend on the world may be used outright. -/
theorem Confines.fact {m : P α} {c : Prop} (h : c → Confines name p A m R) :
    Confines name p (fun w => A w ∧ c) m R :=
  fun φ w hi hw => h hw.2.2 φ w hi ⟨hw.1, hw.2.1⟩

/-- All of the messages are for `p`. -/
def AllSupplied (name : String) (p : Pid) (messages : List Message) (w : World) : Prop :=
  ∀ m ∈ messages, Supplied name p m w

theorem AllSupplied.durable {messages : List Message} :
    Durable true p (AllSupplied name p messages) :=
  fun _ _ _ _ hevo hkind h m hm => (h m hm).later hevo hkind

theorem AllSupplied.append {messages more : List Message} {w : World}
    (h : AllSupplied name p messages w) (h' : AllSupplied name p more w) :
    AllSupplied name p (messages ++ more) w := by
  intro m hm
  rcases List.mem_append.mp hm with hm | hm
  · exact h m hm
  · exact h' m hm

theorem transcript_rows {w w' : World} {t : Uuid} {c : Choice} {rows : List MessageRow}
    {fs : Forks} (h : exec p w (.transcript t) c = some (.ok rows, w', fs)) :
    ∀ row ∈ rows, row ∈ (w.view p).messages ∧ row.threadId = t := by
  rcases exec_plain rfl h with hx | ⟨e, he, -⟩
  · obtain ⟨rfl, -⟩ : _ ∧ _ := by
      simpa only [execOk, answer, Option.some.injEq, Prod.mk.injEq, Except.ok.injEq] using hx
    exact fun row hrow => Db.mem_messagesOf.mp ((List.mergeSort_perm _ _).mem_iff.mp hrow)
  · exact absurd he (by simp)

/-- The transcript of a thread of the namespace. -/
theorem transcript_confines {t : Uuid} {f : List MessageRow → P α} (hF : Durable true p F)
    (ht : ∀ w, F w → InNamespace name t w.db)
    (hf : ∀ rows, Confines name p
      (Outside p fun w => F w ∧ AllSupplied name p (rows.map MessageRow.message) w) (f rows) R) :
    Confines name p (Outside p F) (perform (.transcript t) >>= f) R := by
  refine outside_keep hF rfl (fun _ _ _ _ _ => trivial) (fun _ => AllSupplied.durable) ?_ hf
  intro w c rows w' fs hi hs hi' h hacts hx
  left
  intro m hm
  obtain ⟨row, hrow, rfl⟩ := List.mem_map.mp hm
  obtain ⟨hmem, hthread⟩ := transcript_rows hx row hrow
  rw [h.view] at hmem
  exact Or.inr ⟨row, hmem, rfl, hthread ▸ ht w h.2⟩

theorem getMessages_confines {t : Uuid} {f : List Message → P α} (hF : Durable true p F)
    (ht : ∀ w, F w → InNamespace name t w.db)
    (hf : ∀ messages, Confines name p (Outside p fun w => F w ∧ AllSupplied name p messages w)
      (f messages) R) :
    Confines name p (Outside p F) (getMessages t name >>= f) R := by
  unfold getMessages
  rw [bind_bind]
  refine requireThread_confines hF ?_
  rw [bind_bind]
  exact transcript_confines hF ht fun rows => hf _

theorem partitions_subset {β : Type} (n fuel : Nat) (xs : List β) :
    ∀ batch ∈ partitions n fuel xs, batch ⊆ xs := by
  induction fuel generalizing xs with
  | zero => exact fun batch h => absurd h List.not_mem_nil
  | succ fuel ih =>
    intro batch hbatch
    unfold partitions at hbatch
    split at hbatch
    · exact absurd hbatch List.not_mem_nil
    · rcases List.mem_cons.mp hbatch with rfl | hrest
      · exact List.take_subset n xs
      · exact List.Subset.trans (ih _ batch hrest) (List.drop_subset n xs)

/-- The selection holds only messages of the batches. -/
theorem selectBatches_confines {S : Message → Prop} {encode : Encoder} (hF : Durable true p F)
    {batches : List (List MessageRow)} (hS : ∀ batch ∈ batches, ∀ row ∈ batch, S row.message)
    {s : StreamingSelection} (hs : Given S s) :
    Confines name p (Outside p F) (selectBatches encode batches s)
      fun s' w => Outside p F w ∧ Given S s' := by
  induction batches generalizing s with
  | nil => exact Confines.pure (Outside.rests hF) fun w h => ⟨h, hs⟩
  | cons batch rest ih =>
    unfold selectBatches
    refine outside_same hF rfl (fun _ _ _ _ _ => trivial) fun _ => ?_
    refine Confines.liftBind (Outside.rests hF) fun s' hs' => ?_
    refine ih (fun b hb => hS b (List.mem_cons_of_mem _ hb)) (hs.addAll (fun m hm => ?_) hs')
    obtain ⟨row, hrow, rfl⟩ := List.mem_map.mp hm
    exact hS batch List.mem_cons_self row hrow

theorem Confines.finallyDo {m : P α} {fin : P Unit} {B : α → World → Prop}
    (hm : Confines name p A m B) (hR : ∀ a, Rests p (R a))
    (hok : ∀ a, Confines name p (B a) fin fun _ => R a)
    (herr : Confines name p (fun _ => True) fin fun _ _ => True) :
    Confines name p A (m.finallyDo fin) R := by
  unfold Prog.finallyDo
  refine Confines.handle hm (fun a => ?_) fun e => ?_
  · exact Confines.bind (f := fun _ => Prog.done (.ok a)) (hok a) fun _ =>
      Confines.pure (hR a) fun _ h => h
  · exact Confines.bind (f := fun _ => Prog.done (.error e)) herr fun _ =>
      Confines.throw (.of_durable (.const True))

/-- One operation, by itself. -/
theorem Confines.perform {o : Op} (hA : Rests p A) (ho : o.leavesState = true)
    (hwithin : ∀ w, o.Within name p w) :
    Confines name p A (perform o) fun _ => A := by
  rw [← bind_pure (AgentRuntimeKit.perform o)]
  exact Confines.same hA ho (fun w _ _ _ _ => hwithin w) fun _ => Confines.pure hA fun _ h => h

theorem selectStored_confines {rt : Runtime} {window : ContextWindow} {t : Uuid}
    {current : List Message} (hF : Durable true p F)
    (ht : ∀ w, F w → InNamespace rt.namespace_ t w.db)
    (hcurrent : ∀ w, F w → AllSupplied rt.namespace_ p current w) :
    Confines rt.namespace_ p (Outside p F) (selectStored rt window t current) fun selection =>
      Outside p fun w => F w ∧ AllSupplied rt.namespace_ p selection.messages w := by
  unfold selectStored
  refine requireThread_confines hF (transcript_confines hF ht fun rows => ?_)
  have hrows : Durable true p fun w =>
      F w ∧ AllSupplied rt.namespace_ p (rows.map MessageRow.message) w :=
    hF.and AllSupplied.durable
  have hA := Outside.rests hrows
  have hgiven : ∀ batch ∈ partitions 256 rows.length rows, ∀ row ∈ batch,
      row.message ∈ rows.map MessageRow.message ++ current := fun batch hbatch row hrow =>
    List.mem_append_left _ (List.mem_map_of_mem (partitions_subset _ _ _ batch hbatch hrow))
  refine Confines.bind (Confines.finallyDo
    (selectBatches_confines hrows hgiven (Given.start window.maxBytes)) (fun s => hA.and ?_)
    (fun s => Confines.perform (hA.and ?_) rfl fun _ => trivial)
    (Confines.perform (.of_durable (.const True)) rfl fun _ => trivial)) fun s => ?_
  · exact .of_durable (.const _)
  · exact .of_durable (.const _)
  · refine Confines.fact fun hs => Confines.liftBind hA fun s' hadd => ?_
    have hs' := hs.addAll (fun m hm => List.mem_append_right _ hm) hadd
    refine Confines.lift hA fun selection w hfinish h => ⟨h.1, h.2.1, fun m hm => ?_⟩
    exact h.2.2.append (hcurrent w h.2.1) m (hs'.finish hfinish m hm)

/-- Every input message is one of the request, or one that is stored in the namespace. -/
theorem inputMessages_confines {rt : Runtime} {t : Uuid} {current : List Message}
    (hF : Durable true p F) (ht : ∀ w, F w → InNamespace rt.namespace_ t w.db)
    (hcurrent : ∀ w, F w → AllSupplied rt.namespace_ p current w) :
    Confines rt.namespace_ p (Outside p F) (inputMessages rt t current) fun messages =>
      Outside p fun w => F w ∧ AllSupplied rt.namespace_ p messages w := by
  have hA : ∀ messages, Rests p
      (Outside p fun w => F w ∧ AllSupplied rt.namespace_ p messages w) :=
    fun messages => Outside.rests (hF.and AllSupplied.durable)
  unfold inputMessages
  split
  · refine Confines.bind (selectStored_confines hF ht hcurrent) fun selection => ?_
    exact Confines.pure (hA _) fun _ h => h
  · refine getMessages_confines hF ht fun history => Confines.pure (hA _) fun w h => ?_
    exact ⟨h.1, h.2.1, h.2.2.append (hcurrent w h.2.1)⟩
  · refine getMessages_confines hF ht fun history => ?_
    refine Confines.liftBind (hA _) fun selection hselect => Confines.pure (hA _) fun w h => ?_
    refine ⟨h.1, h.2.1, fun m hm => ?_⟩
    exact h.2.2.append (hcurrent w h.2.1) m (select_given hselect m hm)

-- ---------------------------------------------------------------------------
-- The invoker
-- ---------------------------------------------------------------------------

/-- `p` reads this source. -/
def ReadsFrom (p : Pid) (source : Source) (w : World) : Prop := ∃ n, w.source p = some ⟨source, n⟩

theorem ReadsFrom.rests {source : Source} : Rests p (ReadsFrom p source) := by
  rintro w w' - - - - - hsame ⟨n, h⟩
  exact ⟨n, hsame.source.trans h⟩

theorem Heard.rests {messages : List Message} : Rests p (Heard p messages) := by
  rintro w w' - - - - - hsame ⟨rd, output, hrd, h⟩
  exact ⟨rd, output, hsame.source.trans hrd, h⟩

theorem pull_reads {w w' : World} {source : Source} {c : Choice} {u : Unit} {fs : Forks}
    (hreads : ReadsFrom p source w) (h : exec p w .pull c = some (.ok u, w', fs)) :
    w'.session p = w.session p ∧ ReadsFrom p source w' := by
  obtain ⟨n, hn⟩ := hreads
  rcases exec_plain rfl h with hx | ⟨e, he, -⟩
  · simp only [execOk, hn, answer] at hx
    obtain ⟨-, rfl, -⟩ : _ ∧ _ ∧ _ := by simpa only [Option.some.injEq, Prod.mk.injEq] using hx
    exact ⟨rfl, n + 1, Function.update_self _ _ _⟩
  · exact absurd he (by simp)

theorem openSource_reads {w w' : World} {messages : List Message} {c : Choice} {source : Source}
    {fs : Forks} (h : exec p w (.openSource messages) c = some (.ok source, w', fs)) :
    w'.session p = w.session p ∧ ReadsFrom p source w' := by
  cases c
  all_goals simp only [exec, execOk, answer] at h
  all_goals repeat' split at h
  all_goals first
    | (obtain ⟨hsource, rfl, -⟩ : _ ∧ _ ∧ _ := by
        simpa only [Option.some.injEq, Prod.mk.injEq, Except.ok.injEq] using h
       rw [← hsource]
       exact ⟨rfl, 0, Function.update_self _ _ _⟩)
    | exact absurd h (by simp)

theorem awaitInvoker_heard {w w' : World} {messages : List Message} {c : Choice}
    {output : InvocationOutput} {fs : Forks}
    (h : exec p w (.awaitInvoker messages) c = some (.ok output, w', fs)) :
    w'.session p = w.session p ∧ Heard p output.messages w' := by
  cases c
  all_goals simp only [exec, execOk, answer] at h
  all_goals repeat' split at h
  all_goals first
    | (obtain ⟨houtput, rfl, -⟩ : _ ∧ _ ∧ _ := by
        simpa only [Option.some.injEq, Prod.mk.injEq, Except.ok.injEq] using h
       rw [← houtput]
       exact ⟨rfl, _, _, Function.update_self _ _ _, List.mem_singleton_self _, rfl⟩)
    | exact absurd h (by simp)

/-- An operation that leaves the transaction alone, and what it does to the source. -/
theorem source_confines {o : Op} {f : Res o → P α} {D : World → Prop} {C : Res o → World → Prop}
    (hF : Durable true p F) (hD : Rests p D) (hwithin : ∀ w, F w → o.Within name p w)
    (hop : ∀ w c a w' fs, D w → exec p w o c = some (.ok a, w', fs) →
      w'.session p = w.session p ∧ C a w')
    (hf : ∀ a, Confines name p (fun w => Outside p F w ∧ C a w) (f a) R) :
    Confines name p (fun w => Outside p F w ∧ D w) (perform o >>= f) R := by
  refine Confines.op ((Outside.rests hF).and hD) (fun w _ _ _ h => hwithin w h.1.2) ?_ hf
  intro w c a w' fs hi _ hi' _ hevo hacts h hx
  obtain ⟨hsession, hc⟩ := hop w c a w' fs h.2 hx
  exact ⟨⟨hsession.trans h.1.1, hF w w' hi hi' hevo (hevo.kind p hacts.started) h.1.2⟩, hc⟩

/-- The event that ends a stream is one of its source. -/
theorem forward_confines {emit : Bool} {source : Source} {events : List AgentStreamEvent}
    (hF : Durable true p F) (hevents : events ⊆ source.events) {terminal : Option InvocationOutput}
    (hterminal : ∀ output, terminal = some output → .completed output ∈ source.events) :
    Confines name p (fun w => Outside p F w ∧ ReadsFrom p source w)
      (forward emit source.ending events terminal)
      fun output w => Outside p F w ∧ Heard p output.messages w := by
  have hA : Rests p fun w => Outside p F w ∧ ReadsFrom p source w :=
    (Outside.rests hF).and ReadsFrom.rests
  induction events generalizing terminal with
  | nil =>
    unfold forward
    refine source_confines (C := fun _ => ReadsFrom p source) hF ReadsFrom.rests
      (fun _ _ => trivial)
      (fun _ _ _ _ _ h hx => pull_reads h hx) fun _ => ?_
    split
    · exact Confines.throw hA
    · exact Confines.throw hA
    · next output _ =>
      refine Confines.pure hA fun w h => ⟨h.1, ?_⟩
      obtain ⟨n, hn⟩ := h.2
      exact ⟨_, output, hn, hterminal output rfl, rfl⟩
  | cons event rest ih =>
    have hrest : rest ⊆ source.events := fun e he => hevents (List.mem_cons_of_mem _ he)
    have hnone : ∀ output, none = some output → AgentStreamEvent.completed output ∈ source.events :=
      fun output h => absurd h (by simp)
    unfold forward
    refine source_confines (C := fun _ => ReadsFrom p source) hF ReadsFrom.rests
      (fun _ _ => trivial)
      (fun _ _ _ _ _ h hx => pull_reads h hx) fun _ => ?_
    split
    · exact Confines.throw hA
    · next output =>
      refine ih hrest fun output' h => ?_
      rw [← Option.some.inj h]
      exact hevents List.mem_cons_self
    · exact emitEvent_confines hA (fun _ _ _ h => absurd h (by simp [Item.runId])) (ih hrest hnone)
    · exact emitEvent_confines hA (fun _ _ _ h => absurd h (by simp [Item.runId])) (ih hrest hnone)

/-- What an invoker answers is what it has put out. -/
theorem invokeAgent_confines {invoker : Invoker} {emit : Bool} {messages : List Message}
    (hF : Durable true p F) (hmessages : ∀ w, F w → AllSupplied name p messages w) :
    Confines name p (Outside p F) (invokeAgent invoker emit messages)
      fun output w => Outside p F w ∧ Heard p output.messages w := by
  have hR : ∀ output : InvocationOutput, Rests p fun w =>
      Outside p F w ∧ Heard p output.messages w :=
    fun output => (Outside.rests hF).and Heard.rests
  refine Confines.pre (A := fun w => Outside p F w ∧ True) ?_ fun w _ _ _ h => ⟨h, trivial⟩
  unfold invokeAgent
  split
  · unfold streamInvoker
    refine source_confines (C := ReadsFrom p) hF (.of_durable (.const True))
      (fun w h => hmessages w h) (fun _ _ _ _ _ _ hx => openSource_reads hx) fun source => ?_
    refine Confines.finallyDo (forward_confines hF (List.Subset.refl _) fun output h => ?_) hR
      (fun output => Confines.perform (hR output) rfl fun _ => trivial)
      (Confines.perform (.of_durable (.const True)) rfl fun _ => trivial)
    exact absurd h (by simp)
  · rw [← bind_pure (perform (.awaitInvoker messages))]
    exact source_confines (C := fun output => Heard p output.messages) hF
      (.of_durable (.const True))
      (fun w h => hmessages w h) (fun _ _ _ _ _ _ hx => awaitInvoker_heard hx)
      fun output => Confines.pure (hR output) fun _ h => h

-- ---------------------------------------------------------------------------
-- The whole turn
-- ---------------------------------------------------------------------------

/-- `p` is an invocation with this request, of this runtime. -/
structure AskedBy (p : Pid) (rt : Runtime) (request : RuntimeRequest) (w : World) : Prop where
  request : (w.kind p).request = some request
  lease : (w.kind p).lease = some rt.lease

theorem AskedBy.durable {rt : Runtime} {request : RuntimeRequest} :
    Durable true p (AskedBy p rt request) := by
  intro w w' _ _ _ hkind h
  refine ⟨?_, ?_⟩
  · rw [hkind, h.request]
  · rw [hkind, h.lease]

theorem AskedBy.supplied {rt : Runtime} {request : RuntimeRequest} {w : World}
    (h : AskedBy p rt request w) : AllSupplied name p request.messages w :=
  fun _ hm => Or.inl ⟨request, h.request, hm⟩

/-- A run of the namespace, on a thread of it. -/
structure Running (p : Pid) (rt : Runtime) (request : RuntimeRequest) (runId t : Uuid)
    (w : World) : Prop where
  asked : AskedBy p rt request w
  thread : InNamespace rt.namespace_ t w.db
  run : RunWithin rt.namespace_ runId w.db

theorem Running.durable {rt : Runtime} {request : RuntimeRequest} {runId t : Uuid} :
    Durable true p (Running p rt request runId t) :=
  fun w w' hi hi' hevo hkind h =>
    ⟨AskedBy.durable w w' hi hi' hevo hkind h.asked, h.thread.later hevo, h.run.later hi.db hevo⟩

theorem runClaimed_confines {rt : Runtime} {invoker : Invoker} {request : RuntimeRequest}
    {key : Option String} {emit : Bool} {runId t token : Uuid} :
    Confines rt.namespace_ p (Outside p (Running p rt request runId t))
      (runClaimed rt invoker request key emit runId t token)
      (Answered.Within rt.namespace_) := by
  have hF : Durable true p (Running p rt request runId t) := Running.durable
  have howned : ∀ w, Running p rt request runId t w → Owned rt.namespace_ runId w :=
    fun w h => Or.inl h.run
  unfold runClaimed
  refine Confines.bind (Confines.transition hF howned _ _ _) fun _ => ?_
  refine emitEvent_confines (Outside.rests hF) (fun w h u hu => ?_) ?_
  · rw [← Option.some.inj hu]
    exact h.2.run
  refine Confines.bind (inputMessages_confines hF (fun _ h => h.thread)
    fun _ h => h.asked.supplied) fun messages => ?_
  have hG : Durable true p fun w => Running p rt request runId t w ∧
      AllSupplied rt.namespace_ p messages w := hF.and AllSupplied.durable
  refine outside_same hG rfl (fun w _ _ _ h => h.2) fun _ => ?_
  refine outside_same hG rfl (fun _ _ _ _ _ => trivial) fun _ => ?_
  refine Confines.bind (invokeAgent_confines hG fun w h => h.2) fun output => ?_
  have hR : Rests p fun w => Outside p (fun w => Running p rt request runId t w ∧
      AllSupplied rt.namespace_ p messages w) w ∧ Heard p output.messages w :=
    (Outside.rests hG).and Heard.rests
  refine Confines.same hR rfl (fun w _ _ _ h => h.2) fun _ => ?_
  refine Confines.liftBind hR fun assistant _ => ?_
  refine Confines.same hR rfl (fun _ _ _ _ _ => trivial) fun traceId => ?_
  refine Confines.pre (A := Outside p (Running p rt request runId t)) ?_
    fun w _ _ _ h => ⟨h.1.1, h.1.2.1⟩
  refine Confines.bind (Confines.complete hF howned _ _) fun _ => ?_
  exact Confines.pure (Outside.rests hF) fun w h => h.2.run

/-- The invocation names its run, or takes the name back. -/
theorem setRunId_confines {runId : Option Uuid} {f : Unit → P α} (hF : Durable true p F)
    (hf : Confines name p (Outside p F) (f ()) R) :
    Confines name p (Outside p F) (perform (.setRunId runId) >>= f) R := by
  refine Confines.op (Outside.rests hF) (fun _ _ _ _ _ => trivial) ?_ fun _ => hf
  intro w c u w' fs hi _ hi' _ hevo hacts h hx
  have hsession : w'.session p = w.session p := by
    rcases exec_plain rfl hx with hx | ⟨e, he, -⟩
    · obtain ⟨-, rfl, -⟩ : _ ∧ _ ∧ _ := by
        simpa only [execOk, answer, Option.some.injEq, Prod.mk.injEq] using hx
      rfl
    · exact absurd he (by simp)
  exact ⟨hsession.trans h.1, hF w w' hi hi' hevo (hevo.kind p hacts.started) h.2⟩

theorem replayClaimed_confines {rt : Runtime} {emit : Bool} {run : RunRecord} {hash : String} :
    Confines rt.namespace_ p (Outside p (Listed run)) (replayClaimed rt emit run hash)
      (Answered.Within rt.namespace_) := by
  unfold replayClaimed
  exact setRunId_confines Listed.durable replayFound_confines

theorem runFresh_confines {rt : Runtime} {invoker : Invoker} {request : RuntimeRequest}
    {key : Option String} {emit : Bool} {token : Uuid} :
    Confines rt.namespace_ p (Outside p (AskedBy p rt request))
      (runFresh rt invoker request key emit token) (Answered.Within rt.namespace_) := by
  unfold runFresh
  refine Confines.bind (openThread_confines AskedBy.durable) fun thread => ?_
  have hF : Durable true p fun w =>
      AskedBy p rt request w ∧ InNamespace rt.namespace_ thread.id w.db :=
    AskedBy.durable.and InNamespace.durable
  refine outside_same hF rfl (fun _ _ _ _ _ => trivial) fun runId => setRunId_confines hF ?_
  refine Confines.bind (Confines.claim hF (fun w h => h.2) fun w h => h.1.lease) fun claimed => ?_
  split
  · next hcreated =>
    refine Confines.pre runClaimed_confines fun w _ _ _ h => ⟨h.1, h.2.1.1, h.2.1.2, ?_⟩
    obtain ⟨hid, hthread⟩ := h.2.2.1 hcreated
    have ht : InNamespace rt.namespace_ claimed.run.threadId w.db := by
      rw [hthread]
      exact h.2.1.2
    have hrun := h.2.2.2.within ht
    rw [hid] at hrun
    exact hrun
  · exact replayClaimed_confines.pre fun w _ _ _ h => ⟨h.1, h.2.2.2⟩

/-- The run that was found by its key. -/
theorem getByIdempotency_confines {agentId key : String} {f : Option RunRow → P α}
    (hF : Durable true p F) (hnone : Confines name p (Outside p F) (f none) R)
    (hsome : ∀ run, Confines name p (Outside p (Listed run)) (f (some run)) R) :
    Confines name p (Outside p F) (getByIdempotency agentId key >>= f) R := by
  unfold getByIdempotency
  rw [bind_bind]
  refine outside_keep (C := Confines.Rows none) hF rfl (fun _ _ _ _ _ => trivial)
    (fun _ => Confines.Rows.durable) ?_
    fun rows => ?_
  · intro w c rows w' fs hi hs _ h _ hx
    left
    intro r hr
    exact ⟨Listed.of_mem hs (h.view ▸ Confines.runsByKey_rows hx r hr),
      fun _ h => absurd h (by simp)⟩
  · refine Confines.liftBind (Outside.rests (hF.and Confines.Rows.durable)) fun found hfound => ?_
    cases found with
    | none => exact hnone.pre fun _ _ _ _ h => ⟨h.1, h.2.1⟩
    | some run =>
      refine (hsome run).pre fun w _ _ _ h => ⟨h.1, ?_⟩
      exact (h.2.2 run (Confines.scalarOneOrNone_mem hfound)).1

/-- One turn. -/
theorem execute_confines {rt : Runtime} {agentId : String} {request : RuntimeRequest}
    {key : Option String} {emit : Bool} {token : Uuid} :
    Confines rt.namespace_ p (Outside p (AskedBy p rt request))
      (execute rt agentId request key emit token) (Answered.Within rt.namespace_) := by
  unfold execute
  refine Confines.liftBind (Outside.rests AskedBy.durable) fun invoker _ => ?_
  split
  · exact runFresh_confines
  · exact getByIdempotency_confines AskedBy.durable runFresh_confines fun run =>
      replayFound_confines

end Turns

end AgentRuntimeKit
