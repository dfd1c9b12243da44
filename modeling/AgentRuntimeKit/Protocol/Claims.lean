import AgentRuntimeKit.Lib.Watching
import AgentRuntimeKit.Protocol.History

/-!
# Watching a claim

`claim` once more, when its statements take place and its identifier is fresh. The rules here
follow the exceptions too, which those of `Protocol/Transactions.lean` leave open: `watch_claim`
says which of them a claim ends in, by what its `INSERT` met.

`runtime_runs` has four unique indexes. The key is arbitrated by the insert, the active run of
the thread by the lock and the lookup before it, and a fresh identifier keeps clear of the
primary key. `Vacant.collides_iff` is what remains.
-/

namespace AgentRuntimeKit

open Lib Prog

-- ---------------------------------------------------------------------------
-- What disputes a claim
-- ---------------------------------------------------------------------------

/-- No commit so far was one of `p`. -/
def Uncommitted (p : Pid) (w : World) : Prop :=
  ∀ σ before, .commit σ before ∈ w.log → σ.client ≠ p

/-- No run has the identifier of the claim. -/
def Unused (args : ClaimArgs) (w : World) : Prop := ∀ r ∈ w.db.runs, r.id ≠ args.runId

/-- No run has the request of the claim, or one has its key. -/
def Undisputed (args : ClaimArgs) (w : World) : Prop :=
  (∀ r ∈ w.db.runs, r.requestId ≠ args.requestId) ∨
    ∃ key, args.idempotencyKey = some key ∧
      ∃ r ∈ w.db.runs, r.agentId = args.agent.agentId ∧ r.idempotencyKey = some key

def Op.insertsRun : Op → Bool
  | .insertRun _ _ => true
  | _ => false

/-- A claim whose statements take place, with an identifier that no run has. -/
def claimWatch (args : ClaimArgs) : Watch World Op Choice where
  may w o ch := ch = .ok ∧ (o.insertsRun = true → Unused args w)
  must _ _ := True
  good w o := o.insertsRun = true → Undisputed args w

-- ---------------------------------------------------------------------------
-- Unique keys
-- ---------------------------------------------------------------------------

section Keys

variable {r : RunRow}

theorem run_mem_keys_iff {u : Uuid} : .run u ∈ r.keys ↔ r.id = u := by
  unfold RunRow.keys
  cases r.idempotencyKey <;> cases r.status.isActive <;> simp [eq_comm]

theorem request_mem_keys_iff {u : Uuid} : .request u ∈ r.keys ↔ r.requestId = u := by
  unfold RunRow.keys
  cases r.idempotencyKey <;> cases r.status.isActive <;> simp [eq_comm]

theorem idempotency_mem_keys_iff {a k : String} :
    .idempotency a k ∈ r.keys ↔ r.agentId = a ∧ r.idempotencyKey = some k := by
  unfold RunRow.keys
  cases r.idempotencyKey <;> cases r.status.isActive <;> simp [eq_comm]

theorem activeThread_mem_keys_iff {t : Uuid} :
    .activeThread t ∈ r.keys ↔ r.threadId = t ∧ r.status.isActive = true := by
  unfold RunRow.keys
  cases r.idempotencyKey <;> cases h : r.status.isActive <;> simp [eq_comm]

theorem thread_notMem_keys (u : Uuid) : .thread u ∉ r.keys := by
  unfold RunRow.keys
  cases r.idempotencyKey <;> cases r.status.isActive <;> simp

theorem message_notMem_keys (u : Uuid) : .message u ∉ r.keys := by
  unfold RunRow.keys
  cases r.idempotencyKey <;> cases r.status.isActive <;> simp

/-- A key of a run is in use iff a run has it. -/
theorem Db.mem_keys_of_run {db : Db} {k : UniqueKey} (hk : k ∈ r.keys) :
    k ∈ db.keys ↔ ∃ r' ∈ db.runs, k ∈ r'.keys := by
  unfold Db.keys
  rw [List.mem_append, List.mem_append, List.mem_flatMap, List.mem_map, List.mem_map]
  constructor
  · rintro ((⟨t, -, rfl⟩ | h) | ⟨m, -, rfl⟩)
    · exact absurd hk (thread_notMem_keys _)
    · exact h
    · exact absurd hk (message_notMem_keys _)
  · exact fun h => Or.inl (Or.inr h)

/-- Rows that keep clear of each other and share a key are one row at most. -/
theorem length_le_one {rows : List RunRow} (h : rows.Pairwise Apart) {k : UniqueKey}
    (hk : ∀ r ∈ rows, k ∈ r.keys) : rows.length ≤ 1 := by
  match rows, h, hk with
  | [], _, _ => exact Nat.zero_le _
  | [_], _, _ => exact Nat.le_refl _
  | a :: b :: rest, h, hk =>
    have hapart := List.rel_of_pairwise_cons h List.mem_cons_self
    exact absurd (hk b (by simp)) (hapart k (hk a (by simp)))

theorem DbOk.activeRuns_length {db : Db} (h : DbOk db) (t : Uuid) :
    (db.activeRuns t).length ≤ 1 := by
  refine length_le_one (h.apart.filter _) (k := .activeThread t) fun r hr => ?_
  obtain ⟨-, ht, hactive⟩ := Db.mem_activeRuns.mp hr
  exact activeThread_mem_keys_iff.mpr ⟨ht, hactive⟩

theorem DbOk.runsByKey_length {db : Db} (h : DbOk db) (a k : String) :
    (db.runsByKey a (some k)).length ≤ 1 := by
  refine length_le_one (h.apart.filter _) (k := .idempotency a k) fun r hr => ?_
  obtain ⟨-, ha, hk⟩ := Db.mem_runsByKey.mp hr
  exact idempotency_mem_keys_iff.mpr ⟨ha, hk⟩

end Keys

section Freed

variable {w : World} {p : Pid} {now : Time} {freed : List Write}

/-- An expiry keeps what a claim has set. -/
theorem Freed.sameRun (h : Freed w p now freed) {r : RunRow}
    (hr : r ∈ (w.db.after freed).runs) : ∃ r₀ ∈ w.db.runs, SameRun r₀ r := by
  cases h with
  | nothing => exact ⟨r, hr, .refl r⟩
  | @expired old new hold hlock hexpire =>
    rcases mem_updateRun.mp hr with ⟨rfl, -⟩ | ⟨hr, -⟩
    · exact ⟨old, hold, (@RowMove.expire (.recover old.id) _ _ _ hexpire).unmoved⟩
    · exact ⟨r, hr, .refl r⟩

theorem Freed.sameRun_after (h : Freed w p now freed) (hdb : DbOk w.db) {r₀ : RunRow}
    (hr : r₀ ∈ w.db.runs) : ∃ r ∈ (w.db.after freed).runs, SameRun r₀ r := by
  cases h with
  | nothing => exact ⟨r₀, hr, .refl r₀⟩
  | @expired old new hold hlock hexpire =>
    have hsame := (@RowMove.expire (.recover old.id) _ _ _ hexpire).unmoved
    rcases Staged.updateRun_forward hdb hold hsame.id hr with hkept | ⟨rfl, hnew⟩
    · exact ⟨r₀, hkept, .refl r₀⟩
    · exact ⟨new, hnew, hsame⟩

end Freed

-- ---------------------------------------------------------------------------
-- Watching a claim
-- ---------------------------------------------------------------------------

section Watching

variable {p : Pid} {κ : Kind} {σ : Session} {args : ClaimArgs} {lease : Time} {φ : Prop}
  {A : World → Prop} {α β : Type} {Q : Prop → Except Exn β → World → Prop}

/-- Nothing that `p` did was committed, and nothing of it is still under way. -/
def Alone (p : Pid) (w : World) : Prop := w.resolving p = none ∧ Uncommitted p w

theorem Alone.persists : Persists false p (Alone p) := by
  rintro w w' hi - hb ⟨hres, hun⟩
  refine ⟨hb.resolving hres, fun σ before hmem => ?_⟩
  rcases hb.quiet.evolution.tables with ⟨-, new, hlog, hnew⟩ | ⟨q, σ', hc⟩
  · rw [hlog] at hmem
    rcases List.mem_append.mp hmem with hmem | hmem
    · exact absurd (hnew _ hmem) (by simp [Event.isCommit])
    · exact hun σ before hmem
  · rw [hc.log] at hmem
    rcases List.mem_cons.mp hmem with hhead | hmem
    · obtain ⟨rfl, -⟩ := Event.commit.inj hhead
      -- whoever commits works for itself, or for a client that waits for it
      rcases ((hi.proc q).session σ hc.session).client with hself | ⟨-, hresolving, -⟩
      · rw [hself]
        exact hb.commits q σ hc
      · rintro rfl
        rw [hres] at hresolving
        exact absurd hresolving (by simp)
    · exact hun σ before hmem

/-- Every active run of the thread is one of these. -/
def Occupied (t : Uuid) (rows : List RunRow) (p : Pid) (w : World) : Prop :=
  w.holder (.thread t) = some p ∧
    (∀ r ∈ rows, r.threadId = t ∧ Held p r w) ∧
    ∀ r ∈ w.db.runs, r.threadId = t → r.status.isActive = true → r ∈ rows

theorem Occupied.persists (t : Uuid) (rows : List RunRow) :
    Persists false p (Occupied t rows p) := by
  rintro w w' hi hi' hb ⟨hlock, hheld, hall⟩
  refine ⟨hb.holder _ hlock, fun r hr => ?_, fun r hr ht hactive => ?_⟩
  · exact ⟨(hheld r hr).1, Held.persists r w w' hi hi' hb (hheld r hr).2⟩
  · exact hall r (hb.row_of_locked hr (ht ▸ hlock)) ht hactive

/-- One statement of a claim that is no `INSERT`. -/
theorem watch_statement {o : Op} {f : Res o → P β} {C : Res o → World → Prop} (hκ : κ ≠ .idle)
    (hA : Persists false p A) (hother : o.insertsRun = false)
    (hok : ∀ w r w' fs, Inv false w → At p κ [] (some σ) w → A w →
      execOk p w o = some (r, w', fs) → ∃ a, r = .ok a ∧ C a w')
    (hf : ∀ a, (protocol false).Watches machine p (claimWatch args) φ (C a) (f a) Q) :
    (protocol false).Watches machine p (claimWatch args) φ (Inside p κ [] σ A)
      (perform o >>= f) Q := by
  refine Discipline.Watches.op (B := fun r w => ∃ a, r = .ok a ∧ C a w) (At.stable hκ hA)
    (fun _ _ _ => trivial) (fun w h => absurd (hother ▸ h) Bool.false_ne_true) ?_ ?_
  · rintro w c r w' fs hi - ⟨hat, ha⟩ hmay hx
    obtain rfl : c = .ok := hmay.1
    exact hok w r w' fs hi hat ha (exec_ok p w o ▸ hx)
  · rintro (e | a) w hi ⟨a', ha', hc⟩
    · exact absurd ha' (by simp)
    · obtain rfl := Except.ok.inj ha'
      exact hf a w hi hc

/-- A statement of a claim that only reads. -/
theorem watch_read {o : Op} {f : Res o → P β} {C : Res o → World → Prop} (hκ : κ ≠ .idle)
    (hA : Persists false p A) (hother : o.insertsRun = false)
    (hok : ∀ w r w' fs, Inv false w → At p κ [] (some σ) w → A w →
      execOk p w o = some (r, w', fs) → w' = w ∧ ∃ a, r = .ok a ∧ C a w)
    (hf : ∀ a, (protocol false).Watches machine p (claimWatch args) φ
      (Inside p κ [] σ fun w => A w ∧ C a w) (f a) Q) :
    (protocol false).Watches machine p (claimWatch args) φ (Inside p κ [] σ A)
      (perform o >>= f) Q := by
  refine watch_statement hκ hA hother (fun w r w' fs hi hat ha hx => ?_) hf
  obtain ⟨rfl, a, rfl, hc⟩ := hok w r w' fs hi hat ha hx
  exact ⟨a, rfl, hat, ha, hc⟩

theorem watch_now {f : Time → P β} (hκ : κ ≠ .idle) (hA : Persists false p A)
    (hf : ∀ n, (protocol false).Watches machine p (claimWatch args) φ
      (Inside p κ [] { σ with now := some n } A) (f n) Q) :
    (protocol false).Watches machine p (claimWatch args) φ (Inside p κ [] σ A)
      (perform .now >>= f) Q := by
  refine watch_statement hκ hA rfl (fun w r w' fs hi hat ha hx => ?_) hf
  simp only [execOk, hat.session, answer] at hx
  obtain ⟨rfl, rfl, rfl⟩ : _ ∧ _ ∧ _ := by simpa using hx
  obtain ⟨hstep, hbeside, hat'⟩ := hat.inTx hi
    (Function.update w.session p (some { σ with now := some w.clock })) w.holder w.inserting
    (Function.update_self _ _ _) (fun _ hq => Function.update_of_ne hq _ _) ⟨rfl, rfl, rfl⟩
    (Or.inr rfl) (fun _ _ h => h) (fun _ _ h => h) hi.inserting
  exact ⟨w.clock, rfl, hat', hA w _ hi hstep.inv hbeside ha⟩

theorem watch_write {row : RunRow} {f : Unit → P β} (hκ : κ ≠ .idle) (hA : Persists false p A)
    (hf : (protocol false).Watches machine p (claimWatch args) φ
      (Inside p κ [] { σ with writes := σ.writes ++ [.updateRun row] } A) (f ()) Q) :
    (protocol false).Watches machine p (claimWatch args) φ (Inside p κ [] σ A)
      (perform (.updateRun row) >>= f) Q := by
  refine watch_statement hκ hA rfl (fun w r w' fs hi hat ha hx => ?_) fun _ => hf
  simp only [execOk, hat.session, answer] at hx
  obtain ⟨rfl, rfl, rfl⟩ : _ ∧ _ ∧ _ := by simpa using hx
  have hfree : w.awaits p [] = false := by simp [World.awaits]
  obtain ⟨hstep, hbeside, hat'⟩ := hat.flushed hi (.updateRun row) hfree
  exact ⟨(), rfl, hat', hA w _ hi hstep.inv hbeside ha⟩

theorem watch_lockThread {t : Uuid} {f : Option ThreadRow → P β} (hκ : κ ≠ .idle)
    (hA : Persists false p A)
    (hf : ∀ a, (protocol false).Watches machine p (claimWatch args) φ
      (Inside p κ [] σ fun w => A w ∧ (a.isSome = true → w.holder (.thread t) = some p)) (f a) Q) :
    (protocol false).Watches machine p (claimWatch args) φ (Inside p κ [] σ A)
      (perform (.lockThread t none) >>= f) Q := by
  refine watch_statement hκ hA rfl (fun w r w' fs hi hat ha hx => ?_) hf
  simp only [execOk] at hx
  split at hx
  · obtain ⟨rfl, rfl, rfl⟩ : _ ∧ _ ∧ _ := by simpa [answer] using hx
    exact ⟨none, rfl, hat, ha, fun h => absurd h (by simp)⟩
  · split at hx
    · next row _ hfree =>
      obtain ⟨rfl, rfl, rfl⟩ : _ ∧ _ ∧ _ := by simpa [answer] using hx
      obtain ⟨hstep, hbeside, hat'⟩ := hat.locked hi (w.lock p (.thread t)).holder
        fun k q => holder_lock hfree
      exact ⟨some row, rfl, hat', hA w _ hi hstep.inv hbeside ha,
        fun _ => Function.update_self _ _ _⟩
    · exact absurd hx (by simp)

theorem watch_lockActiveRuns {t : Uuid} {f : List RunRow → P β} (hκ : κ ≠ .idle)
    (hA : Persists false p A) (hwrites : σ.writes = [])
    (hthread : ∀ w, A w → w.holder (.thread t) = some p)
    (hf : ∀ rows, rows.length ≤ 1 → (protocol false).Watches machine p (claimWatch args) φ
      (Inside p κ [] σ fun w => A w ∧ Occupied t rows p w) (f rows) Q) :
    (protocol false).Watches machine p (claimWatch args) φ (Inside p κ [] σ A)
      (perform (.lockActiveRuns t) >>= f) Q := by
  refine watch_statement (C := fun rows w => rows.length ≤ 1 ∧
    Inside p κ [] σ (fun w => A w ∧ Occupied t rows p w) w) hκ hA rfl ?_
    fun rows w hi h => hf rows h.1 w hi h.2
  intro w r w' fs hi hat ha hx
  simp only [execOk, view_eq hat, hwrites, Db.after_nil] at hx
  split at hx
  · next hfree =>
    obtain ⟨rfl, rfl, rfl⟩ : _ ∧ _ ∧ _ := by simpa [answer] using hx
    have hkeys : ∀ k ∈ (w.db.activeRuns t).map (fun row => LockKey.run row.id),
        w.free p k = true := by
      intro k hk
      obtain ⟨row, hrow, rfl⟩ := List.mem_map.mp hk
      exact List.all_eq_true.mp hfree row hrow
    obtain ⟨hstep, hbeside, hat'⟩ := hat.locked hi
      (w.lockAll p ((w.db.activeRuns t).map fun row => .run row.id)).holder
      fun k q => holder_lockAll hkeys
    rw [← lockAll_eq] at hstep hbeside hat'
    have ha' := hA w _ hi hstep.inv hbeside ha
    refine ⟨_, rfl, hi.db.activeRuns_length t, hat', ha', hthread _ ha', ?_, ?_⟩
    · intro r hr
      obtain ⟨hmem, ht, -⟩ := Db.mem_activeRuns.mp hr
      exact ⟨ht, Held.persists r w _ hi hstep.inv hbeside ⟨hmem, ht ▸ hthread w ha⟩⟩
    · intro r hr ht hactive
      rw [lockAll_eq] at hr
      exact Db.mem_activeRuns.mpr ⟨hr, ht, hactive⟩
  · exact absurd hx (by simp)

-- ---------------------------------------------------------------------------
-- The `INSERT`
-- ---------------------------------------------------------------------------

/-- The arbiter of the insert finds the key of the claim taken. -/
def keyTaken (args : ClaimArgs) (db : Db) : Bool :=
  args.idempotencyKey.isSome && !(db.runsByKey args.agent.agentId args.idempotencyKey).isEmpty

/-- The expiry that a claim flushes takes no key and frees none. -/
theorem keyTaken_iff {w : World} {n : Time} {writes : List Write} (hdb : DbOk w.db)
    (hfreed : Freed w p n writes) : keyTaken args (w.db.after writes) = true ↔
      ∃ key, args.idempotencyKey = some key ∧
        ∃ r ∈ w.db.runs, r.agentId = args.agent.agentId ∧ r.idempotencyKey = some key := by
  unfold keyTaken
  cases hkey : args.idempotencyKey with
  | none => simp
  | some key =>
    rw [Option.isSome_some, Bool.true_and, Bool.not_eq_true', List.isEmpty_eq_false_iff_exists_mem]
    constructor
    · rintro ⟨r, hr⟩
      obtain ⟨hmem, hagent, hrkey⟩ := Db.mem_runsByKey.mp hr
      obtain ⟨r₀, hr₀, hsame⟩ := hfreed.sameRun hmem
      exact ⟨key, rfl, r₀, hr₀, hsame.agentId ▸ hagent, hsame.idempotencyKey ▸ hrkey⟩
    · rintro ⟨key', hkey', r₀, hr₀, hagent, hrkey⟩
      obtain rfl := Option.some.inj hkey'
      obtain ⟨r, hr, hsame⟩ := hfreed.sameRun_after hdb hr₀
      exact ⟨r, Db.mem_runsByKey.mpr
        ⟨hr, hsame.agentId.trans hagent, hsame.idempotencyKey.trans hrkey⟩⟩

/-- What a claim knows when it sends its `INSERT`: its thread is locked and has no active run. -/
structure Vacant (args : ClaimArgs) (p : Pid) (n : Time) (writes : List Write) (w : World) :
    Prop where
  freed : Freed w p n writes
  free : ∀ r ∈ (w.db.after writes).runs, r.threadId = args.threadId → r.status.isActive = false

/-- Only its request keeps the row of a claim out, once the arbiter has passed it. -/
theorem Vacant.collides_iff {w : World} {n : Time} {writes : List Write}
    (h : Vacant args p n writes w) (lease begun : Time) (hdb : DbOk w.db) (hunused : Unused args w)
    (hfree : keyTaken args (w.db.after writes) = false) :
    ({ claimRow args lease n with startedAt := begun } : RunRow).keys.any
        (w.db.after writes).keys.contains = true ↔
      ∃ r ∈ w.db.runs, r.requestId = args.requestId := by
  rw [List.any_eq_true]
  constructor
  · rintro ⟨k, hk, hin⟩
    obtain ⟨r, hr, hkr⟩ := (Db.mem_keys_of_run hk).mp (List.contains_iff_mem.mp hin)
    obtain ⟨r₀, hr₀, hsame⟩ := h.freed.sameRun hr
    cases k with
    | thread u => exact absurd hk (thread_notMem_keys u)
    | message u => exact absurd hk (message_notMem_keys u)
    | run u =>
      have hid : r.id = args.runId := (run_mem_keys_iff.mp hkr).trans (run_mem_keys_iff.mp hk).symm
      exact absurd (hsame.id ▸ hid) (hunused r₀ hr₀)
    | request u =>
      have hrequest : r.requestId = args.requestId :=
        (request_mem_keys_iff.mp hkr).trans (request_mem_keys_iff.mp hk).symm
      exact ⟨r₀, hr₀, hsame.requestId ▸ hrequest⟩
    | idempotency a key =>
      -- the arbiter would have found the row
      obtain ⟨ha, hkey⟩ := idempotency_mem_keys_iff.mp hk
      obtain ⟨hra, hrkey⟩ := idempotency_mem_keys_iff.mp hkr
      have htaken : keyTaken args (w.db.after writes) = true := by
        refine (keyTaken_iff hdb h.freed).mpr ⟨key, hkey, r₀, hr₀, ?_, hsame.idempotencyKey ▸ hrkey⟩
        exact (hsame.agentId ▸ hra).trans ha.symm
      rw [hfree] at htaken
      exact absurd htaken Bool.false_ne_true
    | activeThread t =>
      obtain ⟨ht, -⟩ := activeThread_mem_keys_iff.mp hk
      obtain ⟨hrt, hactive⟩ := activeThread_mem_keys_iff.mp hkr
      rw [h.free r hr (hrt.trans ht.symm)] at hactive
      exact absurd hactive Bool.false_ne_true
  · rintro ⟨r₀, hr₀, hrequest⟩
    obtain ⟨r, hr, hsame⟩ := h.freed.sameRun_after hdb hr₀
    have hk : UniqueKey.request args.requestId ∈
        ({ claimRow args lease n with startedAt := begun } : RunRow).keys :=
      request_mem_keys_iff.mpr rfl
    refine ⟨_, hk, List.contains_iff_mem.mpr ((Db.mem_keys_of_run hk).mpr ⟨r, hr, ?_⟩)⟩
    exact request_mem_keys_iff.mpr (hsame.requestId.trans hrequest)

theorem undisputed_iff {w : World} {n : Time} {writes : List Write} (hdb : DbOk w.db)
    (hfreed : Freed w p n writes) : Undisputed args w ↔
      keyTaken args (w.db.after writes) = true ∨
      ¬∃ r ∈ w.db.runs, r.requestId = args.requestId := by
  rw [Undisputed, keyTaken_iff hdb hfreed, or_comm, not_exists]
  simp only [not_and]

/-- The `INSERT` of a claim. -/
theorem watch_insertRun {n : Time} {f : Option RunRow → P β} (hκ : κ ≠ .idle)
    (hA : Persists false p A) (hvacant : ∀ w, A w → Vacant args p n σ.writes w)
    (hnone : ∀ key, args.idempotencyKey = some key →
      (protocol false).Watches machine p (claimWatch args) φ
        (Inside p κ [] σ fun w => A w ∧ ∃ r, Seen p n σ.writes r w ∧
          r.agentId = args.agent.agentId ∧ r.idempotencyKey = some key) (f none) Q)
    (hsome : ∀ stored, stored = { claimRow args lease n with startedAt := σ.begun } →
      (protocol false).Watches machine p (claimWatch args) φ
        (Inside p κ [] { σ with writes := σ.writes ++ [.insertRun stored] } A) (f (some stored)) Q)
    (hbad : (protocol false).Watches machine p (claimWatch args) False (Inside p κ [] σ A)
      (throw uniqueViolation) Q) :
    (protocol false).Watches machine p (claimWatch args) φ (Inside p κ [] σ A)
      (perform (.insertRun (claimRow args lease n) args.idempotencyKey.isSome) >>= f) Q := by
  refine Discipline.Watches.branch
    (B := ifOk (ifSome (fun w => ∃ key, args.idempotencyKey = some key ∧
          Inside p κ [] σ (fun w => A w ∧ ∃ r, Seen p n σ.writes r w ∧
            r.agentId = args.agent.agentId ∧ r.idempotencyKey = some key) w)
        fun stored w => stored = { claimRow args lease n with startedAt := σ.begun } ∧
          Inside p κ [] { σ with writes := σ.writes ++ [.insertRun stored] } A w)
      fun _ _ => False)
    (C := fun r w => r = .error uniqueViolation ∧ Inside p κ [] σ A w)
    (At.stable hκ hA) (fun _ _ _ => trivial) ?_ ?_ ?_
  · rintro w c r w' fs hi - ⟨hat, ha⟩ hmay hx
    obtain rfl : c = .ok := hmay.1
    have hv := hvacant w ha
    have hgood := (undisputed_iff hi.db hv.freed : Undisputed args w ↔ _)
    have hcollides := hv.collides_iff lease σ.begun hi.db (hmay.2 rfl)
    replace hx := (exec_ok p w
      (.insertRun (claimRow args lease n) args.idempotencyKey.isSome)).symm.trans hx
    simp only [execOk, hat.session, view_eq hat] at hx
    split at hx
    · next htaken =>
      -- another run has the key
      obtain ⟨rfl, rfl, rfl⟩ : _ ∧ _ ∧ _ := by simpa [answer] using hx
      have htaken' : keyTaken args (w.db.after σ.writes) = true := htaken
      obtain ⟨key, hkey, r₀, hr₀, hagent, hrkey⟩ := (keyTaken_iff hi.db hv.freed).mp htaken'
      obtain ⟨r, hr, hsame⟩ := hv.freed.sameRun_after hi.db hr₀
      refine ⟨fun _ => ⟨key, hkey, hat, ha, r, ⟨hv.freed, r, hr, .refl r, fun _ => rfl⟩, ?_, ?_⟩,
        fun hbad => absurd (fun _ => hgood.mpr (Or.inl htaken')) hbad⟩
      · exact hsame.agentId.trans hagent
      · exact hsame.idempotencyKey.trans hrkey
    · next hnot =>
      have hfree : keyTaken args (w.db.after σ.writes) = false := Bool.eq_false_iff.mpr hnot
      split at hx
      · exact absurd hx (by simp)
      · next hawaits =>
        split at hx
        · next hany =>
          obtain ⟨rfl, rfl, rfl⟩ : _ ∧ _ ∧ _ := by simpa [answer] using hx
          refine ⟨fun hundisputed => ?_, fun _ => ⟨rfl, hat, ha⟩⟩
          rcases hgood.mp (hundisputed rfl) with htaken | hrequest
          · exact absurd htaken hnot
          · exact absurd ((hcollides hfree).mp hany) hrequest
        · next hany =>
          obtain ⟨rfl, rfl, rfl⟩ : _ ∧ _ ∧ _ := by simpa [answer] using hx
          refine ⟨fun _ => ⟨rfl, ?_⟩, fun hbad => absurd (fun _ => hgood.mpr (Or.inr ?_)) hbad⟩
          · obtain ⟨hstep, hbeside, hat'⟩ := hat.flushed hi
              (.insertRun { claimRow args lease n with startedAt := σ.begun })
              (Bool.eq_false_iff.mpr hawaits)
            exact ⟨hat', hA w _ hi hstep.inv hbeside ha⟩
          · exact fun h => hany ((hcollides hfree).mpr h)
  · rintro (e | _ | stored)
    · exact fun _ _ h => h.elim
    · rintro w hi ⟨key, hkey, h⟩
      exact hnone key hkey w hi h
    · rintro w hi ⟨hstored, h⟩
      exact hsome stored hstored w hi h
  · rintro (e | a) w hi ⟨hr, h⟩
    · obtain rfl := Except.error.inj hr
      exact hbad w hi h
    · exact absurd hr (by simp)

-- ---------------------------------------------------------------------------
-- The body of a claim
-- ---------------------------------------------------------------------------

/-- What a claim raises on its own account. -/
def DeclaredError (args : ClaimArgs) (e : Exn) : Prop :=
  e = threadNotFound args.threadId ∨ e = idempotencyConflict ∨ e = threadBusy

/-- How the program of a claim ends, when its `INSERT` was undisputed and when not. -/
def ClaimEnd (args : ClaimArgs) (lease : Time) (φ : Prop) : Except Exn RunClaim → Prop
  | .ok c => φ ∧
      (c.created = true →
        ∃ now begun, c.run = { claimRow args lease now with startedAt := begun }) ∧
      (c.created = false → ∃ key, args.idempotencyKey = some key)
  | .error e => (φ ∧ DeclaredError args e) ∨ (¬φ ∧ e = uniqueViolation)

/-- How the body of a claim ends. -/
def ClaimBody (p : Pid) (κ : Kind) (args : ClaimArgs) (lease : Time) (φ : Prop)
    (r : Except Exn RunClaim) (w : World) : Prop :=
  (∃ σ, At p κ [] (some σ) w) ∧ Alone p w ∧ ClaimEnd args lease φ r

theorem watch_end {r : Except Exn RunClaim} (hκ : κ ≠ .idle) (hA : Persists false p A)
    (halone : ∀ w, A w → Alone p w) (hend : ClaimEnd args lease φ r) :
    (protocol false).Watches machine p (claimWatch args) φ (Inside p κ [] σ A) (.done r)
      (ClaimBody p κ args lease) :=
  Discipline.Watches.done (At.stable hκ hA) fun w _ h => ⟨⟨σ, h.1⟩, halone w h.2, hend⟩

/-- The answer with an earlier run, or the conflict. -/
theorem watch_existing {existing : RunRow} {key : String} (hκ : κ ≠ .idle)
    (hA : Persists false p A) (halone : ∀ w, A w → Alone p w)
    (hkey : args.idempotencyKey = some key) :
    (protocol false).Watches machine p (claimWatch args) True (Inside p κ [] σ A)
      (lift (checkHash existing args.requestHash) >>= fun _ => pure ⟨existing, false⟩)
      (ClaimBody p κ args lease) := by
  unfold checkHash
  split
  · refine watch_end hκ hA halone ⟨trivial, fun h => absurd h (by simp), fun _ => ⟨key, hkey⟩⟩
  · exact watch_end hκ hA halone (Or.inl ⟨trivial, Or.inr (Or.inl rfl)⟩)

theorem watch_insertClaim {n : Time} (hκ : κ ≠ .idle) (hA : Persists false p A)
    (halone : ∀ w, A w → Alone p w) (hvacant : ∀ w, A w → Vacant args p n σ.writes w) :
    (protocol false).Watches machine p (claimWatch args) True (Inside p κ [] σ A)
      (insertClaim args lease n) (ClaimBody p κ args lease) := by
  unfold insertClaim
  refine watch_insertRun hκ hA hvacant ?_ ?_ ?_
  · -- the key was taken in the meantime
    intro key hkey
    have hseen : Persists false p fun w => ∃ r, Seen p n σ.writes r w ∧
        r.agentId = args.agent.agentId ∧ r.idempotencyKey = some key :=
      fun w w' hi hi' hb ⟨r, hr, h⟩ => ⟨r, Seen.persists n σ.writes r w w' hi hi' hb hr, h⟩
    refine watch_read (C := fun rows _ => ∃ existing, rows = [existing]) hκ (hA.and hseen) rfl ?_ ?_
    · rintro w r w' fs hi hat ⟨ha, record, ⟨hfreed, row, hrow, hsame, -⟩, hagent, hrkey⟩ hx
      simp only [execOk, view_eq hat] at hx
      obtain ⟨rfl, rfl, rfl⟩ : _ ∧ _ ∧ _ := by simpa [answer] using hx
      refine ⟨rfl, _, rfl, ?_⟩
      have hmem : row ∈ (w.db.after σ.writes).runsByKey args.agent.agentId args.idempotencyKey :=
        Db.mem_runsByKey.mpr ⟨hrow, hsame.agentId.trans hagent,
          (hsame.idempotencyKey.trans hrkey).trans hkey.symm⟩
      have hlength := (hfreed.dbOk hi.db).runsByKey_length args.agent.agentId key
      rw [← hkey] at hlength
      exact List.length_eq_one_iff.mp (Nat.le_antisymm hlength (List.length_pos_of_mem hmem))
    · intro rows
      have hall := (hA.and hseen).and (.const (∃ existing, rows = [existing]))
      intro w hi h
      obtain ⟨existing, rfl⟩ := h.2.2
      exact watch_existing hκ hall (fun w h => halone w h.1.1) hkey w hi h
  · intro stored hstored
    refine watch_end hκ hA halone ⟨trivial, fun _ => ⟨n, σ.begun, hstored⟩, fun h => ?_⟩
    exact absurd h (by simp)
  · exact watch_end hκ hA halone (Or.inr ⟨not_false, rfl⟩)

/-- The active run of the thread has expired. -/
theorem Occupied.vacant {w : World} {row expired : RunRow} {n : Time}
    (h : Occupied args.threadId [row] p w) (hexpire : expire row n = some expired) :
    Vacant args p n [.updateRun expired] w := by
  obtain ⟨-, hheld, hall⟩ := h
  obtain ⟨-, hmem, hlock⟩ := hheld row List.mem_cons_self
  refine ⟨.expired hmem hlock hexpire, fun r hr ht => ?_⟩
  obtain ⟨-, -, hexpired⟩ := expire_some hexpire
  rcases mem_updateRun.mp hr with ⟨rfl, -⟩ | ⟨hr, hid⟩
  · rw [hexpired]
    rfl
  · cases hactive : r.status.isActive with
    | false => rfl
    | true =>
      have hrow := List.mem_singleton.mp (hall r hr ht hactive)
      rw [hexpired] at hid
      exact absurd (congrArg RunRow.id hrow) hid

/-- `claim` on a thread whose active run is `row`. -/
theorem watch_occupied {row : RunRow} {n : Time} (hκ : κ ≠ .idle) (hA : Persists false p A)
    (halone : ∀ w, A w → Alone p w) (hwrites : σ.writes = [])
    (hrow : ∀ w, A w → Occupied args.threadId [row] p w) :
    (protocol false).Watches machine p (claimWatch args) True (Inside p κ [] σ A)
      (match expire row n with
        | none => throw threadBusy
        | some expired => do
          perform (.updateRun expired)
          insertClaim args lease n) (ClaimBody p κ args lease) := by
  cases hexpire : expire row n with
  | none => exact watch_end hκ hA halone (Or.inl ⟨trivial, Or.inr (Or.inr rfl)⟩)
  | some expired =>
    refine watch_write hκ hA (watch_insertClaim hκ hA halone fun w ha => ?_)
    rw [hwrites]
    exact (hrow w ha).vacant hexpire

theorem watch_claimSlot (hκ : κ ≠ .idle) (hA : Persists false p A)
    (halone : ∀ w, A w → Alone p w) (hwrites : σ.writes = [])
    (hthread : ∀ w, A w → w.holder (.thread args.threadId) = some p) :
    (protocol false).Watches machine p (claimWatch args) True (Inside p κ [] σ A)
      (claimSlot args lease) (ClaimBody p κ args lease) := by
  unfold claimSlot
  refine watch_lockActiveRuns hκ hA hwrites hthread fun rows hlength => ?_
  have hall := hA.and (Occupied.persists (p := p) args.threadId rows)
  have halone' : ∀ w, A w ∧ Occupied args.threadId rows p w → Alone p w := fun w h => halone w h.1
  cases rows with
  | nil =>
    show (protocol false).Watches machine p (claimWatch args) True _
      (perform .now >>= fun n => insertClaim args lease n) _
    refine watch_now hκ hall fun n => watch_insertClaim hκ hall halone' fun w h => ?_
    rw [show ({ σ with now := some n } : Session).writes = [] from hwrites]
    refine ⟨.nothing, fun r hr ht => ?_⟩
    cases hactive : r.status.isActive with
    | false => rfl
    | true => exact absurd (h.2.2.2 r hr ht hactive) List.not_mem_nil
  | cons row rest =>
    obtain rfl : rest = [] := by simpa using hlength
    show (protocol false).Watches machine p (claimWatch args) True _
      (perform .now >>= fun n => match expire row n with
        | none => throw threadBusy
        | some expired => do
          perform (.updateRun expired)
          insertClaim args lease n) _
    exact watch_now hκ hall fun n => watch_occupied hκ hall halone' hwrites fun w h => h.2

theorem watch_claimIn (hκ : κ ≠ .idle) (hA : Persists false p A)
    (halone : ∀ w, A w → Alone p w) (hwrites : σ.writes = []) :
    (protocol false).Watches machine p (claimWatch args) True (Inside p κ [] σ A)
      (claimIn args lease) (ClaimBody p κ args lease) := by
  unfold claimIn lockThread
  rw [bind_bind]
  refine watch_lockThread hκ hA ?_
  rintro (_ | row)
  · refine watch_end hκ (hA.and ?_) (fun w h => halone w h.1) (Or.inl ⟨trivial, Or.inl rfl⟩)
    exact fun _ _ _ _ _ _ h => absurd h (by simp)
  · have hlocked := hA.and (holds_persists (.thread args.threadId))
    have halone' : ∀ w, A w ∧ w.holder (.thread args.threadId) = some p → Alone p w :=
      fun w h => halone w h.1
    refine Discipline.Watches.pre (A := Inside p κ [] σ fun w => A w ∧
      w.holder (.thread args.threadId) = some p) (fun w _ h => ⟨h.1, h.2.1, h.2.2 rfl⟩) ?_
    rw [pure_bind]
    cases hkey : args.idempotencyKey with
    | none => exact watch_claimSlot hκ hlocked halone' hwrites fun w h => h.2
    | some key =>
      refine watch_read (C := fun rows _ => rows.length ≤ 1) hκ hlocked rfl ?_ ?_
      · intro w r w' fs hi hat ha hx
        simp only [execOk, view_eq hat, hwrites, Db.after_nil] at hx
        obtain ⟨rfl, rfl, rfl⟩ : _ ∧ _ ∧ _ := by simpa [answer] using hx
        exact ⟨rfl, _, rfl, hi.db.runsByKey_length args.agent.agentId key⟩
      · intro rows w hi h
        have hall := hlocked.and (.const (rows.length ≤ 1))
        have hlength := h.2.2
        cases rows with
        | nil =>
          exact watch_claimSlot hκ hall (fun w h => halone' w h.1) hwrites (fun w h => h.1.2) w hi h
        | cons existing rest =>
          obtain rfl : rest = [] := by simpa using hlength
          exact watch_existing hκ hall (fun w h => halone' w h.1) hkey w hi h

-- ---------------------------------------------------------------------------
-- The whole claim
-- ---------------------------------------------------------------------------

/-- How a claim ends, when its `INSERT` was undisputed and when not. -/
def ClaimPost (p : Pid) (args : ClaimArgs) (lease : Time) (φ : Prop) (r : Except Exn RunClaim)
    (w : World) : Prop :=
  ClaimEnd args lease φ r ∧ ∀ e, r = .error e → Uncommitted p w

/-- The rollback after a body that raised. -/
theorem watch_rollback {e : Exn} (hκ : κ ≠ .idle) (hend : ClaimEnd args lease φ (.error e)) :
    (protocol false).Watches machine p (claimWatch args) φ (Inside p κ [] σ (Alone p))
      (perform .rollback >>= fun _ => (throw e : P RunClaim)) (ClaimPost p args lease) := by
  refine Discipline.Watches.op (B := fun r w => r = .ok () ∧ At p κ [] none w ∧ Alone p w)
    (At.stable hκ Alone.persists) (fun _ _ _ => trivial)
    (fun _ h => absurd h Bool.false_ne_true) ?_ ?_
  · rintro w c r w' fs hi - ⟨hat, halone⟩ hmay hx
    obtain rfl : c = .ok := hmay.1
    obtain ⟨rfl, rfl, rfl⟩ : _ ∧ _ ∧ _ := by simpa [machine, exec, execOk, answer] using hx
    obtain ⟨-, -, hclosed⟩ := hat.rolledBack hi
    exact ⟨rfl, ⟨hclosed.kind, hclosed.session, fun σ h => absurd h (by simp), hat.resolving,
      hclosed.cleanup, hclosed.acked⟩, halone⟩
  · rintro (e' | u)
    · exact fun w _ h => absurd h.1 (by simp)
    · refine Discipline.Watches.pre (fun w _ h => h.2) ?_
      exact Discipline.Watches.done (At.stable hκ Alone.persists) fun w _ h =>
        ⟨hend, fun _ _ => h.2.2⟩

/-- The commit after a body that ended. -/
theorem watch_commit {a : RunClaim} (hκ : κ ≠ .idle) (hend : ClaimEnd args lease φ (.ok a)) :
    (protocol false).Watches machine p (claimWatch args) φ (Inside p κ [] σ (Alone p))
      (perform .commit >>= fun _ => (pure a : P RunClaim)) (ClaimPost p args lease) := by
  refine Discipline.Watches.op (B := fun r _ => r = .ok ()) (At.stable hκ Alone.persists)
    (fun _ _ _ => trivial) (fun _ h => absurd h Bool.false_ne_true) ?_ ?_
  · rintro w c r w' fs hi - ⟨hat, halone⟩ hmay hx
    obtain rfl : c = .ok := hmay.1
    replace hx := (exec_ok p w .commit).symm.trans hx
    simp only [execOk, hat.session, answer] at hx
    exact (Prod.mk.inj (Option.some.inj hx)).1.symm
  · rintro (e | u)
    · exact fun w _ h => absurd h (by simp)
    · exact Discipline.Watches.done (.const _) fun w _ _ => ⟨hend, fun e h => absurd h (by simp)⟩

theorem watch_claim (hκ : κ ≠ .idle) (hlease : args.lease = some lease) :
    (protocol false).Watches machine p (claimWatch args) True
      (fun w => At p κ [] none w ∧ Alone p w) (claim args) (ClaimPost p args lease) := by
  unfold claim inTransaction
  rw [hlease]
  refine Discipline.Watches.op
    (B := fun r w => r = .ok () ∧
      ∃ begun, Inside p κ [] ⟨p, .claim args, begun, none, []⟩ (Alone p) w)
    (At.stable hκ Alone.persists) (fun _ _ _ => trivial)
    (fun _ h => absurd h Bool.false_ne_true) ?_ ?_
  · rintro w c r w' fs hi - ⟨hat, halone⟩ hmay hx
    obtain rfl : c = .ok := hmay.1
    replace hx := (exec_ok p w (.begin (.claim args))).symm.trans hx
    simp only [execOk, hat.session] at hx
    obtain ⟨rfl, rfl, rfl⟩ : _ ∧ _ ∧ _ := by simpa [answer] using hx
    obtain ⟨hstep, hbeside, hat', -⟩ := hat.begun hi hκ fun h => absurd h Bool.false_ne_true
    exact ⟨rfl, w.clock, hat', Alone.persists w _ hi hstep.inv hbeside halone⟩
  · rintro (e | u)
    · exact fun w _ h => absurd h.1 (by simp)
    · show (protocol false).Watches machine p (claimWatch args) True _
        ((claimIn args lease).attempt >>= _) _
      rw [attempt_bind]
      refine Discipline.Watches.pre (fun w _ h => h.2) (Discipline.Watches.exists fun begun => ?_)
      refine Discipline.Watches.handle
        (watch_claimIn hκ Alone.persists (fun w h => h) rfl) fun φ' r => ?_
      rintro w hi ⟨⟨σ, hat⟩, halone, hend⟩
      cases r with
      | error e => exact watch_rollback hκ hend w hi ⟨hat, halone⟩
      | ok a => exact watch_commit hκ hend w hi ⟨hat, halone⟩

end Watching

end AgentRuntimeKit
