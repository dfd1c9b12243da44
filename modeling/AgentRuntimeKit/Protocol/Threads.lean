import AgentRuntimeKit.Protocol.Scopes

/-!
# A thread has one namespace

The identifier of a thread is its primary key. Whoever is inserting a thread has reserved the
identifier, so no two threads of the tables share one.

## Results

* `Threaded.exec`, `Threaded.env` — one move keeps the threads apart.
* `Reachable.threaded`            — they are apart in every run.
* `InNamespace.unique`            — so a thread belongs to one namespace.
-/

namespace AgentRuntimeKit

open Lib

/-- `q` has reserved the identifier of a new thread. -/
structure Reserved (q : Pid) (row : ThreadRow) (w : World) : Prop where
  inserting : (q, .thread row.id) ∈ w.inserting
  fresh : ∀ t ∈ w.db.threads, t.id ≠ row.id

/-- Threads are told apart by their identifiers, those that are being inserted included. -/
structure Threaded (w : World) : Prop where
  ids : (w.db.threads.map ThreadRow.id).Nodup
  pending : ∀ q σ row, w.session q = some σ → .insertThread row ∈ σ.writes → Reserved q row w

section Threads

variable {p q : Pid} {w w' : World} {o : Op} {c : Choice} {r : Except Exn (Res o)} {fs : Forks}
  {σ : Session}

-- ---------------------------------------------------------------------------
-- What an operation does to reservations
-- ---------------------------------------------------------------------------

theorem no_session {f : Pid → Option Session} (h : Function.update f p none p = some σ) :
    False := by
  rw [Function.update_self] at h
  exact absurd h (by simp)

/-- The client of a commit that goes on without it keeps no transaction. -/
theorem handOver_session {x : Pid} {σ₀ : Session} (hpx : p ≠ x)
    (hσ : (w.handOver p x σ₀).session p = some σ) : False := by
  have hover : Function.update (Function.update w.session p none) x (some σ₀) p = some σ := hσ
  rw [Function.update_of_ne hpx] at hover
  exact no_session hover

/-- In a transaction that goes on, what was reserved stays reserved. -/
theorem exec_inserting (h : exec p w o c = some (r, w', fs)) (hstarted : w.kind p ≠ .idle)
    (hσ : w'.session p = some σ) : w.inserting ⊆ w'.inserting := by
  have hne : ∀ x, (w.kind x).isIdle = true → p ≠ x := by
    rintro x hidle rfl
    cases hk : w.kind p with
    | idle => exact hstarted hk
    | _ =>
      rw [hk] at hidle
      exact Bool.noConfusion hidle
  cases o
  all_goals cases c
  all_goals simp only [exec, execOk, answer] at h
  all_goals repeat' split at h
  all_goals first
    | (obtain ⟨-, rfl, -⟩ : _ ∧ _ ∧ _ := by
        simpa only [Option.some.injEq, Prod.mk.injEq] using h
       first
        | exact List.Subset.refl _
        | exact List.subset_append_right _ _
        | exact (no_session hσ).elim
        | (rw [lockAll_eq]
           exact List.Subset.refl _)
        | (next hlate => exact (handOver_session (hne _ (Bool.and_eq_true _ _ ▸ hlate).2) hσ).elim))
    | exact absurd h (by simp)

/-- A transaction that another process takes over takes its reservations along. -/
theorem handOver_takes {x : Pid} {σ₀ : Session} (hqp : q ≠ p) (hq : w.session q = none)
    (hp : w.session p = some σ₀) (hσ : (w.handOver p x σ₀).session q = some σ) :
    w.session p = some σ ∧ ∀ k, (p, k) ∈ w.inserting → (q, k) ∈ (w.handOver p x σ₀).inserting := by
  have hover : Function.update (Function.update w.session p none) x (some σ₀) q = some σ := hσ
  by_cases hqx : q = x
  · rw [hqx, Function.update_self] at hover
    refine ⟨hp.trans hover, fun k hk => ?_⟩
    show (q, k) ∈ w.inserting.map fun entry => if entry.1 = p then (x, entry.2) else entry
    exact List.mem_map.mpr ⟨(p, k), hk, by rw [if_pos rfl, hqx]⟩
  · rw [Function.update_of_ne hqx, Function.update_of_ne hqp, hq] at hover
    exact absurd hover (by simp)

theorem exec_handed (h : exec p w o c = some (r, w', fs)) (hqp : q ≠ p) (hq : w.session q = none)
    (hσ : w'.session q = some σ) :
    w.session p = some σ ∧ w'.db = w.db ∧ ∀ k, (p, k) ∈ w.inserting → (q, k) ∈ w'.inserting := by
  have hkept : ∀ x : Option Session, Function.update w.session p x q = some σ → False := by
    intro x h
    rw [Function.update_of_ne hqp, hq] at h
    exact absurd h (by simp)
  cases o
  all_goals cases c
  all_goals simp only [exec, execOk, answer] at h
  all_goals repeat' split at h
  all_goals first
    | (obtain ⟨-, rfl, -⟩ : _ ∧ _ ∧ _ := by
        simpa only [Option.some.injEq, Prod.mk.injEq] using h
       first
        | exact absurd (hq.symm.trans hσ) (by simp)
        | exact (hkept _ hσ).elim
        | (rw [lockAll_eq] at hσ
           exact absurd (hq.symm.trans hσ) (by simp))
        | (obtain ⟨hp, htaken⟩ := handOver_takes hqp hq (by assumption) hσ
           exact ⟨hp, rfl, htaken⟩))
    | exact absurd h (by simp)

-- ---------------------------------------------------------------------------
-- One move
-- ---------------------------------------------------------------------------

/-- The threads after a commit: those before it, and at most one that was reserved. -/
theorem Staged.threads (h : Staged w p σ) :
    (w.db.after σ.writes).threads = w.db.threads ∨ ∃ row, .insertThread row ∈ σ.writes ∧
      (w.db.after σ.writes).threads = w.db.threads ++ [row] := by
  cases h with
  | nothing hwrites =>
    rw [hwrites]
    exact Or.inl rfl
  | update hwrites =>
    rw [hwrites]
    exact Or.inl rfl
  | insert _ _ hwrites hfreed =>
    rw [hwrites]
    cases hfreed with
    | nothing => exact Or.inl rfl
    | expired => exact Or.inl rfl
  | append _ hwrites =>
    rw [hwrites]
    exact Or.inl rfl
  | finish _ _ hwrites =>
    rw [hwrites]
    exact Or.inl rfl
  | @thread row _ _ _ hwrites =>
    rw [hwrites]
    exact Or.inr ⟨row, List.mem_singleton_self _, rfl⟩

namespace Threaded

theorem initial (clock : Time) : Threaded (.initial clock) :=
  ⟨.nil, fun _ _ _ h => absurd h (by simp [World.initial])⟩

/-- The identifiers stay apart, whatever commits. -/
theorem ids_step (h : Threaded w) (hevo : Evolution w w') :
    (w'.db.threads.map ThreadRow.id).Nodup := by
  rcases hevo.tables with ⟨hsame, -⟩ | ⟨q, σ, hc⟩
  · rw [hsame]
    exact h.ids
  · rw [hc.db]
    rcases hc.staged.threads with hsame | ⟨row, hrow, hnew⟩
    · rw [hsame]
      exact h.ids
    · have hreserved := h.pending q σ row hc.session hrow
      rw [hnew, List.map_append, List.nodup_append]
      refine ⟨h.ids, List.nodup_singleton _, fun a ha b hb => ?_⟩
      obtain ⟨t, ht, rfl⟩ := List.mem_map.mp ha
      rw [List.mem_singleton.mp hb]
      exact hreserved.fresh t ht

/-- What is reserved in a transaction that does not commit in this step stays fresh. -/
theorem fresh_step {priv : Bool} (h : Threaded w) (hinv : Inv priv w) (hevo : Evolution w w')
    {row : ThreadRow} (hr : Reserved q row w) (hopen : ∀ σ, ¬Commits w w' q σ) :
    ∀ t ∈ w'.db.threads, t.id ≠ row.id := by
  rcases hevo.tables with ⟨hsame, -⟩ | ⟨q', σ', hc⟩
  · rw [hsame]
    exact hr.fresh
  · rw [hc.db]
    rcases hc.staged.threads with hsame | ⟨row', hrow', hnew⟩
    · rw [hsame]
      exact hr.fresh
    · rw [hnew]
      intro t ht
      rcases List.mem_append.mp ht with ht | ht
      · exact hr.fresh t ht
      · rw [List.mem_singleton.mp ht]
        intro hid
        have hreserved := (h.pending q' σ' row' hc.session hrow').inserting
        rw [hid] at hreserved
        rw [hinv.inserting _ _ _ hreserved hr.inserting] at hc
        exact hopen σ' hc

theorem not_commits {σ σ' : Session} (hσ : w'.session q = some σ) : ¬Commits w w' q σ' :=
  fun hc => absurd (hc.ended.symm.trans hσ) (by simp)

theorem flushed_thread {row : ThreadRow} {σ₀ : Session} {c : Choice} {fs : Forks}
    {r : Except Exn Unit} (h : exec p w (.insertThread row) c = some (r, w', fs))
    (h₀ : w.session p = some σ₀) (hσ : w'.session p ≠ some σ₀) :
    Reserved p row w' := by
  rcases exec_plain rfl h with hx | ⟨e, -, rfl, -⟩
  · simp only [execOk, h₀, answer] at hx
    split at hx
    · exact absurd hx (by simp)
    · split at hx
      · obtain ⟨-, rfl, -⟩ : _ ∧ _ ∧ _ := by simpa only [Option.some.injEq, Prod.mk.injEq] using hx
        exact absurd h₀ hσ
      · next hkeys =>
        obtain ⟨-, rfl, -⟩ : _ ∧ _ ∧ _ := by simpa only [Option.some.injEq, Prod.mk.injEq] using hx
        refine ⟨List.mem_cons_self, fun t ht hid => hkeys ?_⟩
        rw [List.contains_iff_mem, World.view, h₀]
        refine List.mem_append_left _ (List.mem_append_left _ (List.mem_map.mpr ⟨t, ?_, ?_⟩))
        · exact Db.threads_after _ _ ht
        · rw [hid]
  · exact absurd h₀ hσ

/-- One operation. -/
theorem exec {priv : Bool} (h : Threaded w) (hinv : Inv priv w) (hevo : Evolution w w')
    (hstarted : w.kind p ≠ .idle) (ho : ∀ x, x ≠ p → Other x w w')
    (hx : exec p w o c = some (r, w', fs)) : Threaded w' := by
  refine ⟨h.ids_step hevo, fun q σ row hσ hrow => ?_⟩
  -- a reservation of `p`, in a transaction that goes on
  have hmine : ∀ σ₀, w.session p = some σ₀ → w'.session p = some σ →
      .insertThread row ∈ σ₀.writes → Reserved p row w' := by
    intro σ₀ h₀ hσ hrow
    have hr := h.pending p σ₀ row h₀ hrow
    exact ⟨exec_inserting hx hstarted hσ hr.inserting,
      h.fresh_step hinv hevo hr fun _ => not_commits hσ⟩
  by_cases hqp : q = p
  · subst hqp
    cases exec_sessions hx hσ with
    | kept h₀ => exact hmine σ h₀ hσ hrow
    | begun _ heq =>
      rw [heq] at hrow
      exact absurd hrow List.not_mem_nil
    | @reading σ₀ _ h₀ heq =>
      rw [heq] at hrow
      exact hmine σ₀ h₀ hσ hrow
    | @flushed σ₀ x _ h₀ heq hwrite =>
      rw [heq] at hrow
      rcases List.mem_append.mp hrow with hrow | hrow
      · exact hmine σ₀ h₀ hσ hrow
      · rw [← List.mem_singleton.mp hrow] at hwrite
        have hne : w'.session q ≠ some σ₀ := by
          rw [hσ, heq]
          intro hsame
          have hlength := congrArg (fun σ => σ.writes.length) (Option.some.inj hsame)
          simp at hlength
        cases o with
        | insertThread new =>
          rw [← Write.insertThread.inj (Option.some.inj hwrite)]
          exact flushed_thread hx h₀ hne
        | _ => exact absurd hwrite (by simp [Op.write?])
    | handed _ hidle => exact absurd hidle hstarted
  · cases hq : w.session q with
    | none =>
      obtain ⟨hp, hdb, htaken⟩ := exec_handed hx hqp hq hσ
      have hr := h.pending p σ row hp hrow
      refine ⟨htaken _ hr.inserting, ?_⟩
      rw [hdb]
      exact hr.fresh
    | some σ₀ =>
      have hidle : w.kind q ≠ .idle := fun hidle =>
        absurd (hq.symm.trans ((hinv.proc q).idle hidle).session) (by simp)
      have haside := (ho q hqp).2 hidle
      rw [haside.session, hq] at hσ
      rw [← Option.some.inj hσ] at hrow
      have hr := h.pending q σ₀ row hq hrow
      refine ⟨haside.inserting _ hr.inserting, h.fresh_step hinv hevo hr fun _ hc => ?_⟩
      exact haside.commits _ _ hc rfl

/-- The environment opens no transaction and inserts nothing. -/
theorem env {e : Env} (h : Threaded w) (hx : env w e = some (w', fs)) : Threaded w' := by
  have hsame : w'.session = w.session ∧ w'.inserting = w.inserting ∧ w'.db = w.db := by
    cases e
    all_goals simp only [AgentRuntimeKit.env] at hx
    all_goals repeat' split at hx
    all_goals first
      | (obtain ⟨rfl, -⟩ : _ ∧ _ := by simpa only [Option.some.injEq, Prod.mk.injEq] using hx
         exact ⟨rfl, rfl, rfl⟩)
      | exact absurd hx (by simp)
  obtain ⟨hsession, hinserting, hdb⟩ := hsame
  refine ⟨by rw [hdb]; exact h.ids, fun q σ row hσ hrow => ?_⟩
  rw [hsession] at hσ
  have hr := h.pending q σ row hσ hrow
  exact ⟨by rw [hinserting]; exact hr.inserting, by rw [hdb]; exact hr.fresh⟩

end Threaded

end Threads

-- ---------------------------------------------------------------------------
-- Every run
-- ---------------------------------------------------------------------------

/-- Whoever runs has started. -/
theorem Reachable.running {priv : Bool} {c : Cfg} (h : Reachable priv c) {p : Pid} {m : P Answer}
    (hp : c.procs p = some m) : c.world.kind p ≠ .idle := by
  obtain ⟨clock, hreach⟩ := h
  induction hreach generalizing m with
  | refl => exact absurd hp (by simp [Cfg.initial])
  | @step c c' mv hr hok hs ih =>
    have hc : Reachable priv c := ⟨clock, hr⟩
    cases hbefore : c.procs p with
    | none =>
      intro hidle
      have htask := hc.started hok hs hbefore hp
      unfold TaskOf at htask
      rw [hidle] at htask
      exact htask
    | some m₀ =>
      rw [(hc.evolution hok hs).kind p (ih hbefore)]
      exact ih hbefore

/-- The threads are apart in every run. -/
theorem Reachable.threaded {priv : Bool} {c : Cfg} (h : Reachable priv c) : Threaded c.world := by
  obtain ⟨clock, hreach⟩ := h
  induction hreach with
  | refl => exact Threaded.initial clock
  | @step c c' mv hr hok hs ih =>
    have hc : Reachable priv c := ⟨clock, hr⟩
    have hevo := hc.evolution hok hs
    have hnext := hc.next hok hs
    rcases Machine.step_cases hs with ⟨p, ch, o, k, r, fs, rfl, hp, hx, -⟩ | ⟨e, fs, rfl, hx, -⟩
    · refine ih.exec hc.inv hevo (hc.running hp) (fun x hne => hnext x fun ch' heq => hne ?_) hx
      injection heq with hq
      exact hq.symm
    · exact ih.env hx

/-- A thread belongs to one namespace. -/
theorem InNamespace.unique {db : Db} {name other : String} {t : Uuid}
    (hids : (db.threads.map ThreadRow.id).Nodup) (h : InNamespace name t db)
    (h' : InNamespace other t db) : name = other := by
  obtain ⟨row, hrow, hid, rfl⟩ := h
  obtain ⟨row', hrow', hid', rfl⟩ := h'
  rw [List.inj_on_of_nodup_map hids hrow hrow' (hid.trans hid'.symm)]

end AgentRuntimeKit
