import AgentRuntimeKit.Context.Provenance
import AgentRuntimeKit.Protocol.Scopes

/-!
# Every operation within its namespace

The programs of a runtime, watched for the namespace they act in. `Confines` says that a program,
run by a process that acts in a namespace, performs only operations within it.

## Results

* `Confines.op`, `Confines.transaction` — one operation, and one store call.
* `Confines.claim`   — what `claim` answers is a run that is in the tables.
* `Confines.recover` — a run is recovered for those who know it to be one of their namespace.
-/

namespace AgentRuntimeKit

open Lib Prog

/-- What others leave. -/
def scoping : Discipline World Op Res Exn Answer where
  inv w := Inv true w ∧ Scoped w
  other := Other
  task _ _ _ := True
  post _ _ _ := True

/-- `p` has started, writes only as the client of its transaction, and keeps to its namespace. -/
structure Confined (p : Pid) (w : World) (o : Op) : Prop where
  started : w.kind p ≠ .idle
  resolver : ∀ client begun, w.kind p = .resolver client → o.write? begun = none
  within : ∀ name, ActsIn name p w → o.Within name p w

def scopeWatch (p : Pid) : Watch World Op Choice where
  may _ _ _ := True
  must w o := Confined p w o
  good _ _ := True

/-- What `p` keeps to itself, besides its transaction. -/
structure SameState (p : Pid) (w w' : World) : Prop where
  source : w'.source p = w.source p
  runId : w'.runId p = w.runId p

/-- Kept by every step that leaves the transaction and the state of `p` alone. -/
def Rests (p : Pid) (A : World → Prop) : Prop :=
  ∀ w w', Inv true w → Inv true w' → Evolution w w' → w'.kind p = w.kind p →
    w'.session p = w.session p → SameState p w w' → A w → A w'

/-- The operations that leave the transaction and the state of whoever performs them alone. -/
def Op.leavesState : Op → Bool
  | begin _ | now | updateRun _ | insertRun _ _ | insertMessages _ | insertThread _ | commit
  | rollback | resolve | awaitInvoker _ | openSource _ | pull | setRunId _ => false
  | _ => true

/-- `p` acts in the namespace, and `A` holds. -/
def Acting (name : String) (p : Pid) (A : World → Prop) (w : World) : Prop := ActsIn name p w ∧ A w

/-- From a world with `A`, `m` keeps to the namespace, and ends in `R` if it does not raise. -/
def Confines {α : Type} (name : String) (p : Pid) (A : World → Prop) (m : P α)
    (R : α → World → Prop) : Prop :=
  ∀ φ, scoping.Watches machine p (scopeWatch p) φ (Acting name p A) m
    fun _ => ifOk (fun a => Acting name p (R a)) fun _ => ActsIn name p

-- ---------------------------------------------------------------------------
-- What is kept
-- ---------------------------------------------------------------------------

section Kept

variable {p : Pid} {A B : World → Prop}

theorem Rests.of_durable (h : Durable true p A) : Rests p A :=
  fun w w' hi hi' hevo hkind _ _ => h w w' hi hi' hevo hkind

theorem Rests.and (hA : Rests p A) (hB : Rests p B) : Rests p fun w => A w ∧ B w :=
  fun w w' hi hi' hevo hkind hs hr h =>
    ⟨hA w w' hi hi' hevo hkind hs hr h.1, hB w w' hi hi' hevo hkind hs hr h.2⟩

theorem Rests.stable {name : String} (h : Rests p A) : scoping.Stable p (Acting name p A) := by
  rintro w w' hi hi' ho ⟨hacts, ha⟩
  have haside := ho.2 hacts.started
  exact ⟨hacts.later ho.1,
    h w w' hi.1 hi'.1 ho.1 haside.quiet.kind haside.session
      ⟨haside.quiet.source, haside.quiet.runId⟩ ha⟩

theorem acting_stable {name : String} : scoping.Stable p (ActsIn name p) :=
  fun _ _ _ _ ho h => h.later ho.1

theorem leaves_state {w w' : World} {o : Op} {c : Choice} {r : Except Exn (Res o)} {fs : Forks}
    (ho : o.leavesState = true) (h : exec p w o c = some (r, w', fs)) :
    w'.session p = w.session p ∧ SameState p w w' := by
  have hsource : w'.source p = w.source p := by
    rw [(exec_frame h).source]
    cases o
    all_goals first
      | exact absurd ho Bool.false_ne_true
      | rfl
  suffices hsame : w'.session p = w.session p ∧ w'.runId p = w.runId p from
    ⟨hsame.1, hsource, hsame.2⟩
  cases o
  all_goals first
    | exact absurd ho Bool.false_ne_true
    | skip
  all_goals cases c
  all_goals simp only [exec, execOk, answer] at h
  all_goals repeat' split at h
  all_goals first
    | (obtain ⟨-, rfl, -⟩ : _ ∧ _ ∧ _ := by
        simpa only [Option.some.injEq, Prod.mk.injEq] using h
       first
        | exact ⟨rfl, rfl⟩
        | (rw [lockAll_eq]
           exact ⟨rfl, rfl⟩))
    | exact absurd h (by simp)

end Kept

-- ---------------------------------------------------------------------------
-- Rules
-- ---------------------------------------------------------------------------

namespace Confines

variable {name : String} {p : Pid} {α β : Type} {A F : World → Prop} {R : α → World → Prop}

theorem pre {A' : World → Prop} {m : P α} (h : Confines name p A m R)
    (hA : ∀ w, Inv true w → Scoped w → ActsIn name p w → A' w → A w) : Confines name p A' m R :=
  fun φ => Discipline.Watches.pre (fun w hi hw => ⟨hw.1, hA w hi.1 hi.2 hw.1 hw.2⟩) (h φ)

theorem pure {a : α} (hA : Rests p A) (h : ∀ w, A w → R a w) : Confines name p A (pure a) R :=
  fun _ => Discipline.Watches.done hA.stable fun w _ hw => ⟨hw.1, h w hw.2⟩

theorem throw {e : Exn} (hA : Rests p A) : Confines name p A (throw e : P α) R :=
  fun _ => Discipline.Watches.done hA.stable fun _ _ hw => hw.1

theorem lift {r : Except Exn α} (hA : Rests p A) (h : ∀ a w, r = .ok a → A w → R a w) :
    Confines name p A (lift r) R := by
  cases r with
  | ok a => exact pure hA fun w hw => h a w rfl hw
  | error e => exact throw hA

theorem handle {m : P β} {f : Except Exn β → P α} {B : β → World → Prop}
    (hm : Confines name p A m B) (hok : ∀ b, Confines name p (B b) (f (.ok b)) R)
    (herr : ∀ e, Confines name p (fun _ => True) (f (.error e)) R) :
    Confines name p A (m.handle f) R := by
  refine fun φ => Discipline.Watches.handle (hm φ) fun φ' r => ?_
  cases r with
  | ok b => exact hok b φ'
  | error e => exact Discipline.Watches.pre (fun w _ hw => ⟨hw, trivial⟩) (herr e φ')

theorem bind {m : P β} {f : β → P α} {B : β → World → Prop} (hm : Confines name p A m B)
    (hf : ∀ b, Confines name p (B b) (f b) R) : Confines name p A (m >>= f) R :=
  hm.handle hf fun _ _ => Discipline.Watches.done
    (Discipline.Stable.and acting_stable (.const _)) fun _ _ hw => hw.1

/-- One operation. -/
theorem op {o : Op} {f : Res o → P α} {B : Res o → World → Prop} (hA : Rests p A)
    (hwithin : ∀ w, Inv true w → Scoped w → ActsIn name p w → A w → o.Within name p w)
    (hok : ∀ w c a w' fs, Inv true w → Scoped w → Inv true w' → Scoped w' → Evolution w w' →
      ActsIn name p w → A w → exec p w o c = some (.ok a, w', fs) → B a w')
    (hf : ∀ a, Confines name p (B a) (f a) R) : Confines name p A (perform o >>= f) R := by
  intro φ
  refine Discipline.Watches.seen (B := ifOk (fun a => Acting name p (B a)) fun _ => ActsIn name p)
    (C := fun _ _ => False) hA.stable ?_ ?_ ?_ fun _ _ _ h => h.elim
  · rintro w hi ⟨hacts, ha⟩
    refine ⟨hacts.started, fun client _ hkind => absurd hkind hacts.not_resolver, ?_⟩
    intro other hother
    rw [hother.unique hacts]
    exact hwithin w hi.1 hi.2 hacts ha
  · rintro w c r w' fs hi hi' ⟨hacts, ha⟩ - ho hx
    refine ⟨fun _ => ?_, fun h => absurd trivial h⟩
    have hevo : Evolution w w' := (ho (p + 1) (Nat.succ_ne_self p)).1
    cases r with
    | ok a => exact ⟨hacts.later hevo, hok w c a w' fs hi.1 hi.2 hi'.1 hi'.2 hevo hacts ha hx⟩
    | error e => exact hacts.later hevo
  · rintro (e | a)
    · exact Discipline.Watches.done acting_stable fun _ _ h => h
    · exact hf a φ

/-- An operation that leaves the transaction and the state alone. -/
theorem keep {o : Op} {f : Res o → P α} {C : Res o → World → Prop} (hA : Rests p A)
    (ho : o.leavesState = true)
    (hwithin : ∀ w, Inv true w → Scoped w → ActsIn name p w → A w → o.Within name p w)
    (hok : ∀ w c a w' fs, Inv true w → Scoped w → Inv true w' → Scoped w' → Evolution w w' →
      ActsIn name p w → A w → exec p w o c = some (.ok a, w', fs) → C a w')
    (hf : ∀ a, Confines name p (fun w => A w ∧ C a w) (f a) R) :
    Confines name p A (perform o >>= f) R := by
  refine op (B := fun a w => A w ∧ C a w) hA hwithin
    (fun w c a w' fs hi hs hi' hs' hevo hacts ha hx => ?_) hf
  obtain ⟨hsession, hsource⟩ := leaves_state ho hx
  exact ⟨hA w w' hi hi' hevo (hevo.kind p hacts.started) hsession hsource ha,
    hok w c a w' fs hi hs hi' hs' hevo hacts ha hx⟩

/-- An operation that leaves the transaction and the state alone, whatever it answers. -/
theorem same {o : Op} {f : Res o → P α} (hA : Rests p A) (ho : o.leavesState = true)
    (hwithin : ∀ w, Inv true w → Scoped w → ActsIn name p w → A w → o.Within name p w)
    (hf : ∀ a, Confines name p A (f a) R) : Confines name p A (perform o >>= f) R :=
  keep (C := fun _ _ => True) hA ho hwithin (fun _ _ _ _ _ _ _ _ _ _ _ _ _ => trivial)
    fun a => (hf a).pre fun _ _ _ _ h => h.1

/-- Any operation keeps what lasts. -/
theorem lasting {o : Op} {f : Res o → P α} (hF : Durable true p F)
    (hwithin : ∀ w, Inv true w → Scoped w → ActsIn name p w → F w → o.Within name p w)
    (hf : ∀ a, Confines name p F (f a) R) : Confines name p F (perform o >>= f) R :=
  op (B := fun _ => F) (.of_durable hF) hwithin
    (fun w _ _ w' _ hi _ hi' _ hevo hacts h _ =>
      hF w w' hi hi' hevo (hevo.kind p hacts.started) h) hf

end Confines

-- ---------------------------------------------------------------------------
-- Transactions
-- ---------------------------------------------------------------------------

/-- `p` is in no transaction. -/
def Outside (p : Pid) (F : World → Prop) (w : World) : Prop := w.session p = none ∧ F w

/-- A record of a run that is in the tables. -/
def Listed (run : RunRow) (w : World) : Prop :=
  (∃ r ∈ w.db.runs, r.id = run.id ∧ r.threadId = run.threadId) ∧
    ∀ response, run.response = some response → response.runId = run.id

/-- `p` has written nothing in its transaction but changes of listed runs. -/
def Sees (p : Pid) (w : World) : Prop :=
  ∀ σ, w.session p = some σ → ∀ x ∈ σ.writes, ∃ row, x = .updateRun row ∧ Listed row w

/-- What `p` has written last. -/
def WroteLast (p : Pid) (x : Write) (w : World) : Prop :=
  ∀ σ, w.session p = some σ → ∃ before, σ.writes = before ++ [x]

/-- The run is known to be one of the namespace, or is one that a runtime of it named. -/
def Owned (name : String) (runId : Uuid) (w : World) : Prop :=
  RunWithin name runId w.db ∨ ∃ q, w.mint runId = some q ∧ ActsIn name q w

section Facts

variable {name : String} {p : Pid} {w : World} {r row : RunRow} {t runId : Uuid}

theorem InNamespace.durable : Durable true p fun w => InNamespace name t w.db :=
  fun _ _ _ _ hevo _ h => h.later hevo

theorem RunWithin.durable : Durable true p fun w => RunWithin name runId w.db :=
  fun _ _ hi _ hevo _ h => h.later hi.db hevo

theorem Listed.durable : Durable true p (Listed row) := by
  rintro w w' hi - hevo - ⟨⟨r, hr, hid, ht⟩, hnamed⟩
  obtain ⟨r', hr', hid', ht'⟩ := hevo.run hi.db hr
  exact ⟨⟨r', hr', hid'.trans hid, ht'.trans ht⟩, hnamed⟩

theorem Owned.durable : Durable true p (Owned name runId) := by
  rintro w w' hi hi' hevo hkind (h | ⟨q, hmint, hacts⟩)
  · exact Or.inl (h.later hi.db hevo)
  · exact Or.inr ⟨q, hevo.mint _ _ hmint, hacts.later hevo⟩

theorem Listed.of_mem (hs : Scoped w) (hr : r ∈ w.db.runs) : Listed r w :=
  ⟨⟨r, hr, rfl, rfl⟩, hs.named r hr⟩

theorem Listed.within (h : Listed row w) (ht : InNamespace name row.threadId w.db) :
    RunWithin name row.id w.db := by
  obtain ⟨⟨r, hr, hid, hthread⟩, -⟩ := h
  exact ⟨r, hr, hid, hthread ▸ ht⟩

/-- The thread of a run that is owned. -/
theorem Owned.thread (h : Owned name runId w) (hi : Inv true w) (hs : Scoped w)
    (hlisted : Listed row w) (hid : row.id = runId) : InNamespace name row.threadId w.db := by
  obtain ⟨⟨r, hr, hrid, ht⟩, -⟩ := hlisted
  rw [← ht]
  rcases h with ⟨r', hr', hrid', ht'⟩ | ⟨q, hmint, hacts⟩
  · rw [hi.db.unique_id hr hr' (by rw [hrid, hid, hrid'])]
    exact ht'
  · exact hs.runs r hr q name (by rw [hrid, hid, hmint]) hacts

theorem Sees.rests : Rests p (Sees p) := by
  intro w w' hi hi' hevo hkind hsession _ h σ hσ x hx
  obtain ⟨row, rfl, hrow⟩ := h σ (hsession ▸ hσ) x hx
  exact ⟨row, rfl, Listed.durable w w' hi hi' hevo hkind hrow⟩

theorem WroteLast.rests {x : Write} : Rests p (WroteLast p x) :=
  fun _ _ _ _ _ _ hsession _ h σ hσ => h σ (hsession ▸ hσ)

theorem Outside.rests {F : World → Prop} (hF : Durable true p F) : Rests p (Outside p F) :=
  fun w w' hi hi' hevo hkind hsession _ h =>
    ⟨hsession.trans h.1, hF w w' hi hi' hevo hkind h.2⟩

/-- Every run that `p` sees is listed. -/
theorem Sees.listed (h : Sees p w) (hs : Scoped w) (hr : r ∈ (w.view p).runs) : Listed r w := by
  unfold World.view at hr
  split at hr
  · next σ hσ =>
    rcases Db.mem_runs_after hr with hold | hupdate | hinsert
    · exact .of_mem hs hold
    · obtain ⟨row, heq, hrow⟩ := h σ hσ _ hupdate
      rw [Write.updateRun.inj heq]
      exact hrow
    · obtain ⟨row, heq, -⟩ := h σ hσ _ hinsert
      exact Write.noConfusion heq
  · exact .of_mem hs hr

theorem Outside.view {F : World → Prop} (h : Outside p F w) : w.view p = w.db := by
  rw [World.view, h.1]

end Facts

namespace Confines

variable {name : String} {p : Pid} {α β : Type} {A F : World → Prop} {R : α → World → Prop}

theorem begin_sees {w w' : World} {call : Call} {c : Choice} {u : Unit} {fs : Forks}
    (h : exec p w (.begin call) c = some (.ok u, w', fs)) : Sees p w' := by
  rcases exec_plain rfl h with hx | ⟨e, he, -⟩
  · simp only [execOk, answer] at hx
    split at hx
    · obtain ⟨-, rfl, -⟩ : _ ∧ _ ∧ _ := by simpa only [Option.some.injEq, Prod.mk.injEq] using hx
      intro σ hσ x hx
      have hself : some (⟨p, call, w.clock, none, []⟩ : Session) = some σ :=
        (Function.update_self p _ w.session).symm.trans hσ
      rw [← Option.some.inj hself] at hx
      exact absurd hx List.not_mem_nil
    · exact absurd hx (by simp)
  · exact absurd he (by simp)

theorem commit_ok {w w' : World} {c : Choice} {u : Unit} {fs : Forks}
    (h : exec p w .commit c = some (.ok u, w', fs)) : w'.session p = none ∧
      ∃ σ, w.session p = some σ ∧ w'.db = w.db.after σ.writes := by
  cases hs : w.session p with
  | none =>
    cases c
    all_goals simp only [exec, execOk, hs, answer] at h
    all_goals repeat' split at h
    all_goals exact absurd h (by simp)
  | some σ =>
    rcases exec_commit hs h with ⟨-, rfl, -⟩ | ⟨e, he, -⟩
    · exact ⟨Function.update_self _ _ _, σ, rfl, rfl⟩
    · exact absurd he (by simp)

/-- A store call. What its body has written is in the tables once it has committed. -/
theorem transaction {call : Call} {body : P α} {B : α → World → Prop} (hF : Durable true p F)
    (hB : ∀ a, Rests p (B a)) (hR : ∀ a, Durable true p (R a))
    (hbody : Confines name p (fun w => Sees p w ∧ F w) body B)
    (hcommit : ∀ a w w' σ, Inv true w → Inv true w' → Scoped w' → Evolution w w' →
      w'.kind p = w.kind p → B a w → w.session p = some σ → w'.db = w.db.after σ.writes → R a w') :
    Confines name p (Outside p F) (inTransaction call body) fun a => Outside p (R a) := by
  unfold inTransaction
  refine op (B := fun _ w => Sees p w ∧ F w) (Outside.rests hF) (fun _ _ _ _ _ => trivial) ?_ ?_
  · intro w c u w' fs hi _ hi' _ hevo hacts h hx
    exact ⟨begin_sees hx, hF w w' hi hi' hevo (hevo.kind p hacts.started) h.2⟩
  · intro _
    rw [attempt_bind]
    refine handle hbody (fun a => ?_) fun e => ?_
    · refine op (B := fun _ => Outside p (R a)) (hB a) (fun _ _ _ _ _ => trivial) ?_ fun _ =>
        pure (Outside.rests (hR a)) fun _ h => h
      intro w c u w' fs hi _ hi' hs' hevo hacts h hx
      obtain ⟨hnone, σ, hσ, hdb⟩ := commit_ok hx
      exact ⟨hnone, hcommit a w w' σ hi hi' hs' hevo (hevo.kind p hacts.started) h hσ hdb⟩
    · exact lasting (.const True) (fun _ _ _ _ _ => trivial) fun _ =>
        throw (.of_durable (.const True))

/-- A store call that ends in what lasts. -/
theorem transactionLasting {call : Call} {body : P α} (hF : Durable true p F)
    (hR : ∀ a, Durable true p (R a)) (hbody : Confines name p (fun w => Sees p w ∧ F w) body R) :
    Confines name p (Outside p F) (inTransaction call body) fun a => Outside p (R a) :=
  transaction hF (fun a => .of_durable (hR a)) hR hbody
    fun a w w' _ hi hi' _ hevo hkind h _ _ => hR a w w' hi hi' hevo hkind h

/-- A pure computation, then a program that depends on it. -/
theorem liftBind {r : Except Exn β} {f : β → P α} (hA : Rests p A)
    (hf : ∀ b, r = .ok b → Confines name p A (f b) R) :
    Confines name p A (Prog.lift r >>= f) R := by
  cases r with
  | ok b => exact hf b rfl
  | error e => exact throw hA

theorem lockThread (hA : Rests p A) {t : Uuid} {f : Unit → P α}
    (hf : Confines name p A (f ()) R) :
    Confines name p A (AgentRuntimeKit.lockThread t >>= f) R := by
  unfold AgentRuntimeKit.lockThread
  rw [bind_bind]
  refine same hA rfl (fun _ _ _ _ _ => trivial) ?_
  rintro (_ | row)
  · exact throw hA
  · exact hf

theorem lockRun_rows {w w' : World} {runId : Uuid} {c : Choice} {rows : List RunRow} {fs : Forks}
    (h : exec p w (.lockRun runId) c = some (.ok rows, w', fs)) :
    ∀ r ∈ rows, r ∈ (w.view p).runs ∧ r.id = runId := by
  rcases exec_plain rfl h with hx | ⟨e, he, -⟩
  · simp only [execOk, answer] at hx
    split at hx
    · split at hx
      · obtain ⟨hrows, -⟩ : _ ∧ _ := by
          simpa only [Option.some.injEq, Prod.mk.injEq, Except.ok.injEq] using hx
        rw [← hrows]
        exact fun r hr => absurd hr List.not_mem_nil
      · next row hrow =>
        obtain ⟨hrows, -⟩ : _ ∧ _ := by
          simpa only [Option.some.injEq, Prod.mk.injEq, Except.ok.injEq] using hx
        rw [← hrows]
        intro r hr
        rw [List.mem_singleton.mp hr]
        exact Db.run?_mem hrow
    · exact absurd hx (by simp)
  · exact absurd he (by simp)

theorem scalarOne_mem {rows : List RunRow} {row : RunRow} (h : scalarOne rows = .ok row) :
    row ∈ rows := by
  unfold scalarOne at h
  split at h
  · exact absurd h (by simp)
  · rw [Except.ok.inj h]
    exact List.mem_singleton_self _
  · exact absurd h (by simp)

/-- The locked row of a run that is owned. -/
theorem lockRun {runId : Uuid} {f : RunRow → P α} (hF : Durable true p F)
    (howned : ∀ w, F w → Owned name runId w)
    (hf : ∀ row, row.id = runId → Confines name p (fun w => (Sees p w ∧ F w) ∧ Listed row w ∧
      InNamespace name row.threadId w.db) (f row) R) :
    Confines name p (fun w => Sees p w ∧ F w) (AgentRuntimeKit.lockRun runId >>= f) R := by
  have hA : Rests p fun w => Sees p w ∧ F w := Sees.rests.and (.of_durable hF)
  unfold AgentRuntimeKit.lockRun
  rw [bind_bind]
  refine same hA rfl (fun _ _ _ _ _ => trivial) ?_
  rintro (_ | t)
  · exact throw hA
  · rw [bind_bind]
    refine lockThread hA ?_
    rw [bind_bind]
    refine keep (C := fun rows w => ∀ r ∈ rows, r.id = runId ∧ Listed r w ∧
      InNamespace name r.threadId w.db) hA rfl (fun _ _ _ _ _ => trivial) ?_ fun rows => ?_
    · intro w c rows w' fs hi hs hi' _ hevo hacts h hx r hr
      obtain ⟨hview, hid⟩ := lockRun_rows hx r hr
      have hlisted := h.1.listed hs hview
      have hkind := hevo.kind p hacts.started
      exact ⟨hid, Listed.durable w w' hi hi' hevo hkind hlisted,
        ((howned w h.2).thread hi hs hlisted hid).later hevo⟩
    · cases hrow : scalarOne rows with
      | error e =>
        refine pre (A := fun w => Sees p w ∧ F w) (throw hA) fun _ _ _ _ h => h.1
      | ok row =>
        by_cases hid : row.id = runId
        · exact (hf row hid).pre fun w _ _ _ h => ⟨h.1, (h.2 row (scalarOne_mem hrow)).2⟩
        · exact fun φ w _ h => absurd (h.2.2 row (scalarOne_mem hrow)).1 hid

-- ---------------------------------------------------------------------------
-- Store calls on runs
-- ---------------------------------------------------------------------------

theorem listed_expire {row expired : RunRow} {now : Time} {w : World} (h : Listed row w)
    (hexpire : AgentRuntimeKit.expire row now = some expired) : Listed expired w := by
  rw [(expire_some hexpire).2.2]
  exact ⟨h.1, fun response hresponse => absurd hresponse (by simp)⟩

theorem expire_thread {row expired : RunRow} {now : Time}
    (h : AgentRuntimeKit.expire row now = some expired) :
    expired.id = row.id ∧ expired.threadId = row.threadId := by
  rw [(expire_some h).2.2]
  exact ⟨rfl, rfl⟩

/-- What is known of a locked row. -/
def Locked (name : String) (F : World → Prop) (row : RunRow) (w : World) : Prop :=
  F w ∧ Listed row w ∧ InNamespace name row.threadId w.db

theorem Locked.durable {row : RunRow} (hF : Durable true p F) :
    Durable true p (Locked name F row) :=
  hF.and (Listed.durable.and InNamespace.durable)

/-- The locked row of a run that is owned, and what lasts of it. -/
theorem lockRunLasting {runId : Uuid} {f : RunRow → P α} (hF : Durable true p F)
    (howned : ∀ w, F w → Owned name runId w)
    (hf : ∀ row, row.id = runId → Confines name p (Locked name F row) (f row) R) :
    Confines name p (fun w => Sees p w ∧ F w) (AgentRuntimeKit.lockRun runId >>= f) R :=
  lockRun hF howned fun row hid => (hf row hid).pre fun _ _ _ _ h => ⟨h.1.2, h.2⟩

/-- The update of a locked row, which stays on its thread. -/
theorem updateLocked {row new : RunRow} {f : Unit → P α} (hF : Durable true p F)
    (ht : new.threadId = row.threadId) (hf : Confines name p (Locked name F row) (f ()) R) :
    Confines name p (Locked name F row) (perform (.updateRun new) >>= f) R := by
  refine lasting (Locked.durable hF) (fun w _ _ _ h => ?_) fun _ => hf
  show InNamespace name new.threadId w.db
  rw [ht]
  exact h.2.2

/-- The clock. -/
theorem now {f : Time → P α} (hF : Durable true p F) (hf : ∀ n, Confines name p F (f n) R) :
    Confines name p F (perform .now >>= f) R :=
  lasting hF (fun _ _ _ _ _ => trivial) hf

section Runs

variable {runId token : Uuid} (hF : Durable true p F) (howned : ∀ w, F w → Owned name runId w)
include hF howned

theorem transition (status : RunStatus) (response : Option RuntimeResponse)
    (code : Option String) : Confines name p (Outside p F)
      (AgentRuntimeKit.transition runId status token response code) fun _ => Outside p F := by
  unfold AgentRuntimeKit.transition
  split
  · exact throw (Outside.rests hF)
  · refine transactionLasting hF (fun _ => hF) ?_
    unfold transitionIn
    refine lockRunLasting hF howned fun row _ => ?_
    have hrow : Durable true p (Locked name F row) := Locked.durable hF
    refine now hrow fun n => liftBind (.of_durable hrow) fun _ _ =>
      liftBind (.of_durable hrow) fun _ _ => updateLocked hF rfl ?_
    exact pure (.of_durable hrow) fun w h => h.1

theorem recover : Confines name p (Outside p F) (AgentRuntimeKit.recover runId) fun record =>
    Outside p fun w => F w ∧ Listed record w ∧ record.id = runId := by
  have hR : ∀ record : RunRow, Durable true p fun w => F w ∧ Listed record w ∧ record.id = runId :=
    fun record => hF.and (Listed.durable.and (.const _))
  unfold AgentRuntimeKit.recover
  refine transactionLasting hF hR ?_
  unfold recoverIn
  refine lockRunLasting hF howned fun row hid => ?_
  have hrow : Durable true p (Locked name F row) := Locked.durable hF
  refine now hrow fun n => ?_
  cases hexpire : expire row n with
  | none => exact pure (.of_durable hrow) fun w h => ⟨h.1, h.2.1, hid⟩
  | some expired =>
    have hsame := expire_thread hexpire
    refine updateLocked hF hsame.2 (pure (.of_durable hrow) fun w h => ?_)
    exact ⟨h.1, listed_expire h.2.1 hexpire, hsame.1.trans hid⟩

theorem failIfRunning (code : String) (status : RunStatus) : Confines name p (Outside p F)
    (AgentRuntimeKit.failIfRunning runId token code status) fun _ => Outside p F := by
  unfold AgentRuntimeKit.failIfRunning
  split
  · exact throw (Outside.rests hF)
  · refine transactionLasting hF (fun _ => hF) ?_
    unfold failIfRunningIn
    refine lockRunLasting hF howned fun row _ => ?_
    have hrow : Durable true p (Locked name F row) := Locked.durable hF
    split
    · exact throw (.of_durable hrow)
    · refine now hrow fun n => ?_
      split
      · cases hexpire : expire row n with
        | none => exact updateLocked hF rfl (pure (.of_durable hrow) fun w h => h.1)
        | some expired =>
          exact updateLocked hF (expire_thread hexpire).2 (pure (.of_durable hrow) fun w h => h.1)
      · exact pure (.of_durable hrow) fun w h => h.1

theorem complete (messages : List Message) (response : RuntimeResponse) :
    Confines name p (Outside p F) (AgentRuntimeKit.complete runId token messages response)
      fun _ => Outside p F := by
  unfold AgentRuntimeKit.complete
  refine transactionLasting hF (fun _ => hF) ?_
  unfold completeIn
  refine lockRunLasting hF howned fun row _ => ?_
  have hrow : Durable true p (Locked name F row) := Locked.durable hF
  refine now hrow fun n => liftBind (.of_durable hrow) fun _ _ =>
    liftBind (.of_durable hrow) fun _ _ => ?_
  -- the batch goes to the thread of the run
  refine bind (B := fun _ => Locked name F row) ?_ fun _ => ?_
  · unfold appendMessageBatch
    refine lasting hrow (fun _ _ _ _ _ => trivial) ?_
    rintro (_ | thread)
    · exact throw (.of_durable hrow)
    · cases messages with
      | nil => exact pure (.of_durable hrow) fun _ h => h
      | cons m rest =>
        refine lasting hrow (fun _ _ _ _ _ => trivial) fun last => ?_
        refine lasting hrow (fun w _ _ _ h stored hstored => ?_) fun _ =>
          pure (.of_durable hrow) fun _ h => h
        rw [numbered_thread last stored hstored]
        exact h.2.2
  · refine now hrow fun n' => liftBind (.of_durable hrow) fun _ _ => updateLocked hF rfl ?_
    exact pure (.of_durable hrow) fun w h => h.1

end Runs

-- ---------------------------------------------------------------------------
-- Claims and new threads
-- ---------------------------------------------------------------------------

/-- What `claim` answers from inside its transaction: the row that it has inserted last, or a
listed run. -/
def Claiming (p : Pid) (args : ClaimArgs) (c : RunClaim) (w : World) : Prop :=
  (c.created = true ∧ c.run.id = args.runId ∧ c.run.threadId = args.threadId ∧
    WroteLast p (.insertRun c.run) w) ∨ (c.created = false ∧ Listed c.run w)

/-- What `claim` answers. -/
def Claims (args : ClaimArgs) (c : RunClaim) (w : World) : Prop :=
  (c.created = true → c.run.id = args.runId ∧ c.run.threadId = args.threadId) ∧ Listed c.run w

theorem Claiming.rests {args : ClaimArgs} {c : RunClaim} : Rests p (Claiming p args c) := by
  rintro w w' hi hi' hevo hkind hsession hsource (⟨hc, hid, ht, hlast⟩ | ⟨hc, hlisted⟩)
  · exact Or.inl ⟨hc, hid, ht, WroteLast.rests w w' hi hi' hevo hkind hsession hsource hlast⟩
  · exact Or.inr ⟨hc, Listed.durable w w' hi hi' hevo hkind hlisted⟩

theorem Claims.durable {args : ClaimArgs} {c : RunClaim} : Durable true p (Claims args c) :=
  (Durable.const _).and Listed.durable

theorem runsByKey_rows {w w' : World} {agentId : String} {key : Option String} {c : Choice}
    {rows : List RunRow} {fs : Forks}
    (h : exec p w (.runsByKey agentId key) c = some (.ok rows, w', fs)) :
    ∀ r ∈ rows, r ∈ (w.view p).runs := by
  rcases exec_plain rfl h with hx | ⟨e, he, -⟩
  · obtain ⟨rfl, -⟩ : _ ∧ _ := by
      simpa only [execOk, answer, Option.some.injEq, Prod.mk.injEq, Except.ok.injEq] using hx
    exact fun r hr => (Db.mem_runsByKey.mp hr).1
  · exact absurd he (by simp)

theorem activeRuns_rows {w w' : World} {t : Uuid} {c : Choice} {rows : List RunRow} {fs : Forks}
    (h : exec p w (.lockActiveRuns t) c = some (.ok rows, w', fs)) :
    ∀ r ∈ rows, r ∈ (w.view p).runs ∧ r.threadId = t := by
  rcases exec_plain rfl h with hx | ⟨e, he, -⟩
  · simp only [execOk, answer] at hx
    split at hx
    · obtain ⟨rfl, -⟩ : _ ∧ _ := by
        simpa only [Option.some.injEq, Prod.mk.injEq, Except.ok.injEq] using hx
      intro r hr
      obtain ⟨hmem, ht, -⟩ := Db.mem_activeRuns.mp hr
      exact ⟨hmem, ht⟩
    · exact absurd hx (by simp)
  · exact absurd he (by simp)

theorem sees_flush {w w' : World} {o : Op} {c : Choice} {r : Except Exn (Res o)} {fs : Forks}
    (h : Sees p w) (hi : Inv true w) (hi' : Inv true w') (hevo : Evolution w w')
    (hkind : w'.kind p = w.kind p) (hx : exec p w o c = some (r, w', fs))
    (ho : ∀ begun x, o.write? begun = some x → ∃ row, x = .updateRun row ∧ Listed row w)
    (hidle : w.kind p ≠ .idle) : Sees p w' := by
  have hlater : ∀ row, Listed row w → Listed row w' :=
    fun row hrow => Listed.durable w w' hi hi' hevo hkind hrow
  intro σ hσ x hxs
  cases exec_sessions hx hσ with
  | kept h₀ =>
    obtain ⟨row, rfl, hrow⟩ := h σ h₀ x hxs
    exact ⟨row, rfl, hlater row hrow⟩
  | begun _ heq =>
    rw [heq] at hxs
    exact absurd hxs List.not_mem_nil
  | @reading σ₀ _ h₀ heq =>
    rw [heq] at hxs
    obtain ⟨row, rfl, hrow⟩ := h σ₀ h₀ x hxs
    exact ⟨row, rfl, hlater row hrow⟩
  | @flushed σ₀ y _ h₀ heq hwrite =>
    rw [heq] at hxs
    rcases List.mem_append.mp hxs with hxs | hxs
    · obtain ⟨row, rfl, hrow⟩ := h σ₀ h₀ x hxs
      exact ⟨row, rfl, hlater row hrow⟩
    · obtain ⟨row, rfl, hrow⟩ := ho _ y hwrite
      exact ⟨row, List.mem_singleton.mp hxs, hlater row hrow⟩
  | handed _ hq => exact absurd hq hidle

/-- Listed runs among these rows. -/
def Rows (t : Option Uuid) (rows : List RunRow) (w : World) : Prop :=
  ∀ r ∈ rows, Listed r w ∧ ∀ t', t = some t' → r.threadId = t'

theorem Rows.durable {t : Option Uuid} {rows : List RunRow} : Durable true p (Rows t rows) :=
  fun w w' hi hi' hevo hkind h r hr =>
    ⟨Listed.durable w w' hi hi' hevo hkind (h r hr).1, (h r hr).2⟩

theorem runsByKey {agentId : String} {key : Option String} {f : List RunRow → P α}
    (hF : Durable true p F)
    (hf : ∀ rows, Confines name p (fun w => (Sees p w ∧ F w) ∧ Rows none rows w) (f rows) R) :
    Confines name p (fun w => Sees p w ∧ F w) (perform (.runsByKey agentId key) >>= f) R := by
  refine keep (Sees.rests.and (.of_durable hF)) rfl (fun _ _ _ _ _ => trivial) ?_ hf
  intro w c rows w' fs hi hs hi' _ hevo hacts h hx r hr
  have hlisted := h.1.listed hs (runsByKey_rows hx r hr)
  exact ⟨Listed.durable w w' hi hi' hevo (hevo.kind p hacts.started) hlisted,
    fun _ h => absurd h (by simp)⟩

/-- `p` has read the clock in its transaction. -/
def HasRead (p : Pid) (n : Time) (w : World) : Prop := ∀ σ, w.session p = some σ → σ.begun ≤ n

theorem HasRead.rests {n : Time} : Rests p (HasRead p n) :=
  fun _ _ _ _ _ _ hsession _ h σ hσ => h σ (hsession ▸ hσ)

/-- Inside a transaction of `claim`, at this time. -/
def AtClaim (p : Pid) (n : Time) (F : World → Prop) (w : World) : Prop :=
  (Sees p w ∧ F w) ∧ HasRead p n w

theorem AtClaim.rests {n : Time} (hF : Durable true p F) : Rests p (AtClaim p n F) :=
  (Sees.rests.and (.of_durable hF)).and HasRead.rests

/-- The insert of a claim, and what it found instead. -/
theorem insertClaim {args : ClaimArgs} {lease n : Time} (hF : Durable true p F)
    (ht : ∀ w, F w → InNamespace name args.threadId w.db)
    (hlease : ∀ w, F w → (w.kind p).lease = some lease) :
    Confines name p (AtClaim p n F) (AgentRuntimeKit.insertClaim args lease n)
      fun c w => F w ∧ Claiming p args c w := by
  have hA : Rests p fun w => Sees p w ∧ F w := Sees.rests.and (.of_durable hF)
  unfold AgentRuntimeKit.insertClaim
  refine op (B := fun row w => ifSome (fun w => Sees p w ∧ F w) (fun row w =>
    F w ∧ row.id = args.runId ∧ row.threadId = args.threadId ∧
      WroteLast p (.insertRun row) w) row w) (AtClaim.rests hF) (fun w _ _ _ h => ?_) ?_ ?_
  · refine ⟨ht w h.1.2, fun σ lease' hσ hkind => ⟨n + lease, rfl, ?_⟩⟩
    rw [← Option.some.inj ((hlease w h.1.2).symm.trans hkind)]
    exact Nat.add_le_add_right (h.2 σ hσ) lease
  · intro w c row w' fs hi hs hi' _ hevo hacts h hx
    have hkind := hevo.kind p hacts.started
    rcases exec_plain rfl hx with hx | ⟨e, he, -⟩
    · simp only [execOk, answer] at hx
      split at hx
      · next σ hσ =>
        split at hx
        · obtain ⟨rfl, rfl, -⟩ : _ ∧ _ ∧ _ := by
            simpa only [Option.some.injEq, Prod.mk.injEq, Except.ok.injEq] using hx
          exact h.1
        · split at hx
          · exact absurd hx (by simp)
          · split at hx
            · exact absurd hx (by simp)
            · obtain ⟨rfl, rfl, -⟩ : _ ∧ _ ∧ _ := by
                simpa only [Option.some.injEq, Prod.mk.injEq, Except.ok.injEq] using hx
              refine ⟨hF w _ hi hi' hevo hkind h.1.2, rfl, rfl, fun σ' hσ' => ⟨σ.writes, ?_⟩⟩
              have hself := (Function.update_self p _ w.session).symm.trans hσ'
              rw [← Option.some.inj hself]
      · exact absurd hx (by simp)
    · exact absurd he (by simp)
  · rintro (_ | row)
    · refine runsByKey hF fun rows => ?_
      have hB : Rests p fun w => (Sees p w ∧ F w) ∧ Rows none rows w :=
        hA.and (.of_durable Rows.durable)
      refine liftBind hB fun existing hexisting => liftBind hB fun _ _ => pure hB fun w h => ?_
      exact ⟨h.1.2, Or.inr ⟨rfl, (h.2 existing (scalarOne_mem hexisting)).1⟩⟩
    · refine pure (fun w w' hi hi' hevo hkind hsession hsource h => ?_)
        fun w h => ⟨h.1, Or.inl ⟨rfl, h.2⟩⟩
      exact ⟨hF w w' hi hi' hevo hkind h.1, h.2.1, h.2.2.1,
        WroteLast.rests w w' hi hi' hevo hkind hsession hsource h.2.2.2⟩

theorem scalarOneOrNone_mem {rows : List RunRow} {row : RunRow}
    (h : scalarOneOrNone rows = .ok (some row)) : row ∈ rows := by
  rw [scalarOneOrNone_some h]
  exact List.mem_singleton_self _

theorem now_read {w w' : World} {c : Choice} {n : Time} {fs : Forks} (hi : Inv true w)
    (h : exec p w .now c = some (.ok n, w', fs)) : HasRead p n w' := by
  rcases exec_plain rfl h with hx | ⟨e, he, -⟩
  · simp only [execOk, answer] at hx
    split at hx
    · next σ₀ hσ₀ =>
      obtain ⟨rfl, rfl, -⟩ : _ ∧ _ ∧ _ := by
        simpa only [Option.some.injEq, Prod.mk.injEq, Except.ok.injEq] using hx
      intro σ hσ
      have hself := (Function.update_self p _ w.session).symm.trans hσ
      rw [← Option.some.inj hself]
      exact ((hi.proc p).session σ₀ hσ₀).begun
    · exact absurd hx (by simp)
  · exact absurd he (by simp)

theorem updateRun_read {w w' : World} {row : RunRow} {c : Choice} {n : Time} {u : Unit} {fs : Forks}
    (hread : HasRead p n w) (h : exec p w (.updateRun row) c = some (.ok u, w', fs)) :
    HasRead p n w' := by
  rcases exec_plain rfl h with hx | ⟨e, he, -⟩
  · simp only [execOk, answer] at hx
    split at hx
    · next σ₀ hσ₀ =>
      obtain ⟨-, rfl, -⟩ : _ ∧ _ ∧ _ := by simpa only [Option.some.injEq, Prod.mk.injEq] using hx
      intro σ hσ
      have hself := (Function.update_self p _ w.session).symm.trans hσ
      rw [← Option.some.inj hself]
      exact hread σ₀ hσ₀
    · exact absurd hx (by simp)
  · exact absurd he (by simp)

/-- The active slot of the thread. -/
theorem claimSlot {args : ClaimArgs} {lease : Time} (hF : Durable true p F)
    (ht : ∀ w, F w → InNamespace name args.threadId w.db)
    (hlease : ∀ w, F w → (w.kind p).lease = some lease) :
    Confines name p (fun w => Sees p w ∧ F w) (AgentRuntimeKit.claimSlot args lease)
      fun c w => F w ∧ Claiming p args c w := by
  have hA : Rests p fun w => Sees p w ∧ F w := Sees.rests.and (.of_durable hF)
  unfold AgentRuntimeKit.claimSlot
  refine keep (C := Rows (some args.threadId)) hA rfl (fun _ _ _ _ _ => trivial) ?_ fun rows => ?_
  · intro w c rows w' fs hi hs hi' _ hevo hacts h hx r hr
    obtain ⟨hview, hthread⟩ := activeRuns_rows hx r hr
    refine ⟨Listed.durable w w' hi hi' hevo (hevo.kind p hacts.started) (h.1.listed hs hview), ?_⟩
    exact fun t' h => hthread.trans (Option.some.inj h)
  · have hB : Rests p fun w => (Sees p w ∧ F w) ∧ Rows (some args.threadId) rows w :=
      hA.and (.of_durable Rows.durable)
    refine liftBind hB fun active hactive => ?_
    refine op (B := fun n w => AtClaim p n F w ∧ Rows (some args.threadId) rows w) hB
      (fun _ _ _ _ _ => trivial) ?_ fun n => ?_
    · intro w c n w' fs hi _ hi' _ hevo hacts h hx
      have hkind := hevo.kind p hacts.started
      refine ⟨⟨⟨sees_flush h.1.1 hi hi' hevo hkind hx (fun _ _ h => absurd h (by simp [Op.write?]))
        hacts.started, hF w w' hi hi' hevo hkind h.1.2⟩, now_read hi hx⟩,
        Rows.durable w w' hi hi' hevo hkind h.2⟩
    · have hC : Rests p fun w => AtClaim p n F w ∧ Rows (some args.threadId) rows w :=
        (AtClaim.rests hF).and (.of_durable Rows.durable)
      cases active with
      | none => exact (insertClaim hF ht hlease).pre fun _ _ _ _ h => h.1
      | some row =>
        dsimp only
        cases hexpire : expire row n with
        | none => exact throw hC
        | some expired =>
          have hrow := scalarOneOrNone_mem hactive
          refine op (B := fun _ => AtClaim p n F) hC (fun w _ _ _ h => ?_) ?_ fun _ =>
            insertClaim hF ht hlease
          · show InNamespace name expired.threadId w.db
            rw [(expire_thread hexpire).2, (h.2 row hrow).2 _ rfl]
            exact ht w h.1.1.2
          · intro w c u w' fs hi _ hi' _ hevo hacts h hx
            have hkind := hevo.kind p hacts.started
            refine ⟨⟨sees_flush h.1.1.1 hi hi' hevo hkind hx (fun begun x hwrite => ?_)
              hacts.started, hF w w' hi hi' hevo hkind h.1.1.2⟩, updateRun_read h.1.2 hx⟩
            exact ⟨expired, (Option.some.inj hwrite).symm, listed_expire (h.2 row hrow).1 hexpire⟩

/-- What is written last is in the tables after the commit. -/
theorem wroteLast_insertRun {w w' : World} {σ : Session} {row : RunRow}
    (h : WroteLast p (.insertRun row) w) (hσ : w.session p = some σ)
    (hdb : w'.db = w.db.after σ.writes) : row ∈ w'.db.runs := by
  obtain ⟨before, hwrites⟩ := h σ hσ
  rw [hdb, hwrites, Db.after_append]
  exact List.mem_append_right _ (List.mem_singleton_self row)

theorem claim {args : ClaimArgs} (hF : Durable true p F)
    (ht : ∀ w, F w → InNamespace name args.threadId w.db)
    (hlease : ∀ w, F w → (w.kind p).lease = args.lease) :
    Confines name p (Outside p F) (AgentRuntimeKit.claim args)
      fun c => Outside p fun w => F w ∧ Claims args c w := by
  unfold AgentRuntimeKit.claim
  split
  · exact throw (Outside.rests hF)
  · next lease hargs =>
    have hslot : ∀ w, F w → (w.kind p).lease = some lease := fun w h => (hlease w h).trans hargs
    refine transaction (B := fun c w => F w ∧ Claiming p args c w) hF
      (fun c => Rests.and (.of_durable hF) Claiming.rests) (fun c => hF.and Claims.durable) ?_ ?_
    · have hA : Rests p fun w => Sees p w ∧ F w := Sees.rests.and (.of_durable hF)
      unfold claimIn
      refine lockThread hA ?_
      split
      · exact claimSlot hF ht hslot
      · refine runsByKey hF fun rows => ?_
        have hB : Rests p fun w => (Sees p w ∧ F w) ∧ Rows none rows w :=
          hA.and (.of_durable Rows.durable)
        refine liftBind hB fun found hfound => ?_
        cases found with
        | none => exact (claimSlot hF ht hslot).pre fun _ _ _ _ h => h.1
        | some existing =>
          refine liftBind hB fun _ _ => pure hB fun w h => ⟨h.1.2, Or.inr ⟨rfl, ?_⟩⟩
          exact (h.2 existing (scalarOneOrNone_mem hfound)).1
    · rintro c w w' σ hi hi' hs' hevo hkind ⟨hf, hclaim⟩ hσ hdb
      refine ⟨hF w w' hi hi' hevo hkind hf, ?_⟩
      rcases hclaim with ⟨hcreated, hid, hthread, hlast⟩ | ⟨hcreated, hlisted⟩
      · exact ⟨fun _ => ⟨hid, hthread⟩, .of_mem hs' (wroteLast_insertRun hlast hσ hdb)⟩
      · refine ⟨fun h => ?_, Listed.durable w w' hi hi' hevo hkind hlisted⟩
        exact absurd (hcreated.symm.trans h) Bool.false_ne_true

/-- The thread that is inserted last has this identifier. -/
def Opening (name : String) (p : Pid) (t : Uuid) (w : World) : Prop :=
  ∃ row : ThreadRow, row.id = t ∧ row.namespace_ = name ∧ WroteLast p (.insertThread row) w

theorem Opening.rests {t : Uuid} : Rests p (Opening name p t) := by
  rintro w w' hi hi' hevo hkind hsession hsource ⟨row, hid, hname, hlast⟩
  exact ⟨row, hid, hname, WroteLast.rests w w' hi hi' hevo hkind hsession hsource hlast⟩

theorem createThread {user : Option String} (hF : Durable true p F) :
    Confines name p (Outside p F) (AgentRuntimeKit.createThread name user)
      fun thread => Outside p fun w => F w ∧ InNamespace name thread.id w.db := by
  unfold AgentRuntimeKit.createThread
  refine same (Outside.rests hF) rfl (fun _ _ _ _ _ => trivial) fun t => ?_
  refine transaction (B := fun thread w => F w ∧ Opening name p thread.id w) hF
    (fun thread => Rests.and (.of_durable hF) Opening.rests)
    (fun thread => hF.and InNamespace.durable) ?_ ?_
  · have hB : Rests p fun w => F w ∧ Opening name p t w :=
      Rests.and (.of_durable hF) Opening.rests
    refine op (B := fun _ w => F w ∧ Opening name p t w) (Sees.rests.and (.of_durable hF))
      (fun _ _ _ _ _ => rfl) ?_ fun _ => ?_
    · intro w c u w' fs hi _ hi' _ hevo hacts h hx
      refine ⟨hF w w' hi hi' hevo (hevo.kind p hacts.started) h.2, ⟨t, name, user⟩, rfl, rfl, ?_⟩
      rcases exec_plain rfl hx with hx | ⟨e, he, -⟩
      · simp only [execOk, answer] at hx
        split at hx
        · next σ hσ =>
          split at hx
          · exact absurd hx (by simp)
          · split at hx
            · exact absurd hx (by simp)
            · obtain ⟨-, rfl, -⟩ : _ ∧ _ ∧ _ := by
                simpa only [Option.some.injEq, Prod.mk.injEq] using hx
              refine fun σ' hσ' => ⟨σ.writes, ?_⟩
              have hself := (Function.update_self p _ w.session).symm.trans hσ'
              rw [← Option.some.inj hself]
        · exact absurd hx (by simp)
      · exact absurd he (by simp)
    · refine keep (C := fun found _ => ∀ row, found = some row → row.id = t) hB rfl
        (fun _ _ _ _ _ => trivial) ?_ ?_
      · rintro w c found w' fs - - - - - - - hx row rfl
        rcases exec_plain rfl hx with hx | ⟨e, he, -⟩
        · obtain ⟨hfound, -⟩ : _ ∧ _ := by
            simpa only [execOk, answer, Option.some.injEq, Prod.mk.injEq, Except.ok.injEq] using hx
          have hid := List.find?_some hfound
          simpa using hid
        · exact absurd he (by simp)
      · have hC : ∀ found : Option ThreadRow, Rests p fun w =>
            (F w ∧ Opening name p t w) ∧ ∀ row, found = some row → row.id = t :=
          fun found => hB.and fun _ _ _ _ _ _ _ _ h => h
        rintro (_ | row)
        · exact throw (hC none)
        · refine pure (hC (some row)) fun w h => ⟨h.1.1, ?_⟩
          rw [h.2 row rfl]
          exact h.1.2
  · rintro thread w w' σ hi hi' - hevo hkind ⟨hf, row, hid, hname, hlast⟩ hσ hdb
    refine ⟨hF w w' hi hi' hevo hkind hf, row, ?_, hid, hname⟩
    obtain ⟨before, hwrites⟩ := hlast σ hσ
    rw [hdb, hwrites, Db.after_append]
    exact List.mem_append_right _ (List.mem_singleton_self row)

end Confines

end AgentRuntimeKit
