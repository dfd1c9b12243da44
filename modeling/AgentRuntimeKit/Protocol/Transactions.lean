import AgentRuntimeKit.Protocol.Effects

/-!
# Rules for transactions

The rely/guarantee discipline of this development, and one rule for each statement a
transaction sends. Inside a transaction the assertion is `Inside p κ L σ A`: the open
session of `p` is `σ`, and `A` holds, where `A` is something that neither others nor
the transaction itself can break (`Persists`). `transaction` puts a body between its
`begin` and its `commit` or `rollback`.

## Results

* `read`, `lockThread`, `lockRows`, `now`, `write`, `insertRun`, `insertMessages`,
  `insertThread` — one statement each.
* `transaction` — a whole transaction.
-/

namespace AgentRuntimeKit

open Lib Prog

/-- The discipline, for given tasks and results. -/
def discipline (priv : Bool) (task : Pid → P Answer → World → Prop)
    (post : Pid → Except Exn Answer → World → Prop) : Discipline World Op Res Exn Answer :=
  ⟨Inv priv, Other, task, post⟩

/-- What `p` knows of itself: what it is, its open transaction, and which of its calls it saw
commit. -/
structure At (p : Pid) (κ : Kind) (L : List Call) (s : Option Session) (w : World) : Prop where
  kind : w.kind p = κ
  session : w.session p = s
  client : ∀ σ, s = some σ → σ.client = p
  resolving : w.resolving p = none
  cleanup : w.cleanup p = none
  acked : w.acked p = L

/-- After a failed transaction: a commit of it may still be under way. -/
structure Closed (p : Pid) (κ : Kind) (L : List Call) (w : World) : Prop where
  kind : w.kind p = κ
  session : w.session p = none
  cleanup : w.cleanup p = none
  acked : w.acked p = L

/-- Kept by everything that leaves `p` alone, its own transactions included. -/
def Lasts (priv : Bool) (p : Pid) (F : World → Prop) : Prop :=
  ∀ w w', Inv priv w → Inv priv w' → Quiet p w w' → F w → F w'

/-- Kept while a transaction of `p` is open. -/
def Persists (priv : Bool) (p : Pid) (F : World → Prop) : Prop :=
  ∀ w w', Inv priv w → Inv priv w' → Beside p w w' → F w → F w'

/-- Kept by every step, as long as `p` stays what it is. -/
def Durable (priv : Bool) (p : Pid) (F : World → Prop) : Prop :=
  ∀ w w', Inv priv w → Inv priv w' → Evolution w w' → w'.kind p = w.kind p → F w → F w'

/-- Not an exception of this package. -/
def NotKit (e : Exn) : Prop := ∀ c m, e ≠ .kit c m

section Assertions

variable {priv : Bool} {p : Pid} {κ : Kind} {L : List Call} {s : Option Session}
  {F G : World → Prop} {task : Pid → P Answer → World → Prop}
  {post : Pid → Except Exn Answer → World → Prop}

theorem Durable.lasts (h : Durable priv p F) : Lasts priv p F :=
  fun w w' hi hi' hq => h w w' hi hi' hq.evolution hq.kind

theorem Durable.and (hF : Durable priv p F) (hG : Durable priv p G) :
    Durable priv p fun w => F w ∧ G w :=
  fun w w' hi hi' hevo hk h => ⟨hF w w' hi hi' hevo hk h.1, hG w w' hi hi' hevo hk h.2⟩

theorem Durable.const (φ : Prop) : Durable priv p fun _ => φ := fun _ _ _ _ _ _ h => h

theorem Durable.exists {ι : Sort*} {F : ι → World → Prop} (h : ∀ i, Durable priv p (F i)) :
    Durable priv p fun w => ∃ i, F i w :=
  fun w w' hi hi' hevo hk ⟨i, hf⟩ => ⟨i, h i w w' hi hi' hevo hk hf⟩

theorem Lasts.persists (h : Lasts priv p F) : Persists priv p F :=
  fun w w' hi hi' hb => h w w' hi hi' hb.quiet

theorem Lasts.and (hF : Lasts priv p F) (hG : Lasts priv p G) : Lasts priv p fun w => F w ∧ G w :=
  fun w w' hi hi' hq h => ⟨hF w w' hi hi' hq h.1, hG w w' hi hi' hq h.2⟩

theorem Persists.and (hF : Persists priv p F) (hG : Persists priv p G) :
    Persists priv p fun w => F w ∧ G w :=
  fun w w' hi hi' hq h => ⟨hF w w' hi hi' hq h.1, hG w w' hi hi' hq h.2⟩

theorem Persists.const (φ : Prop) : Persists priv p fun _ => φ := fun _ _ _ _ _ h => h

theorem Lasts.const (φ : Prop) : Lasts priv p fun _ => φ := fun _ _ _ _ _ h => h

theorem At.aside {w w' : World} (h : At p κ L s w) (ha : Aside p w w') : At p κ L s w' :=
  ⟨ha.quiet.kind.trans h.kind, ha.session.trans h.session, h.client, ha.resolving h.resolving,
    ha.quiet.cleanup.trans h.cleanup, ha.acked.trans h.acked⟩

theorem Closed.aside {w w' : World} (h : Closed p κ L w) (ha : Aside p w w') : Closed p κ L w' :=
  ⟨ha.quiet.kind.trans h.kind, ha.session.trans h.session, ha.quiet.cleanup.trans h.cleanup,
    ha.acked.trans h.acked⟩

theorem At.closed {w : World} (h : At p κ L none w) : Closed p κ L w :=
  ⟨h.kind, h.session, h.cleanup, h.acked⟩

theorem At.stable (hκ : κ ≠ .idle) (hF : Persists priv p F) :
    (discipline priv task post).Stable p fun w => At p κ L s w ∧ F w := by
  intro w w' hi hi' ho h
  have ha := ho.2 (by rw [h.1.kind]; exact hκ)
  exact ⟨h.1.aside ha, hF w w' hi hi' ha.toBeside h.2⟩

theorem Closed.stable (hκ : κ ≠ .idle) (hF : Lasts priv p F) :
    (discipline priv task post).Stable p fun w => Closed p κ L w ∧ F w := by
  intro w w' hi hi' ho h
  have ha := ho.2 (by rw [h.1.kind]; exact hκ)
  exact ⟨h.1.aside ha, hF w w' hi hi' ha.quiet h.2⟩

end Assertions

-- ---------------------------------------------------------------------------
-- What an operation answers
-- ---------------------------------------------------------------------------

/-- Operations that take place or fail, and nothing else. -/
def Op.isPlain : Op → Bool
  | commit | rollback | resolve | uuid4 | awaitInvoker _ | openSource _ | traceId | expired
  | spawnCleanup _ _ _ _ _ => false
  | _ => true

theorem exec_ok (p : Pid) (w : World) (o : Op) : exec p w o .ok = execOk p w o := by
  cases o <;> rfl

theorem exec_fail {p : Pid} {w : World} {o : Op} {e : Exn} (hplain : o.isPlain = true) :
    exec p w o (.fail e) = if o.mayRaise w p e then answer (.error e) w else none := by
  cases o <;> first
    | rfl
    | exact absurd hplain Bool.false_ne_true

theorem exec_plain {p : Pid} {w w' : World} {o : Op} {c : Choice} {r : Except Exn (Res o)}
    {fs : Forks} (hplain : o.isPlain = true) (h : exec p w o c = some (r, w', fs)) :
    execOk p w o = some (r, w', fs) ∨
      ∃ e, r = .error e ∧ w' = w ∧ fs = [] ∧ o.mayRaise w p e = true := by
  cases c with
  | ok => exact Or.inl (exec_ok p w o ▸ h)
  | fail e =>
    rw [exec_fail hplain] at h
    split at h
    · next hmay =>
      obtain ⟨rfl, rfl, rfl⟩ : _ ∧ _ ∧ _ := by simpa [answer] using h
      exact Or.inr ⟨e, rfl, rfl, rfl, hmay⟩
    · exact absurd h (by simp)
  | _ => cases o <;> first
      | exact absurd hplain Bool.false_ne_true
      | exact absurd h (by simp [exec])

/-- A statement raises no exception of this package. -/
theorem notKit_of_mayRaise {p : Pid} {w : World} {o : Op} {e : Exn}
    (hstatement : o.isStatement = true)
    (h : o.mayRaise w p e = true) : NotKit e := by
  rintro c m rfl
  have hforeign : o.isForeign = false := by
    cases o <;> first | rfl | exact absurd hstatement (by simp [Op.isStatement])
  simp [Op.mayRaise, hforeign, Exn.isForeign] at h

-- ---------------------------------------------------------------------------
-- Statements
-- ---------------------------------------------------------------------------

/-- The open transaction of `p` is `σ`, and `A` holds. -/
def Inside (p : Pid) (κ : Kind) (L : List Call) (σ : Session) (A : World → Prop) (w : World) :
    Prop :=
  At p κ L (some σ) w ∧ A w

/-- How the body of a transaction for `call` ends: its transaction still open, with `B`, or with
an exception. `N` is what is known when the run it is about is missing. -/
def BodyPost {α : Type} (p : Pid) (κ : Kind) (L : List Call) (call : Call) (N : World → Prop)
    (B : Session → α → World → Prop) (r : Except Exn α) (w : World) : Prop :=
  ∃ σ, At p κ L (some σ) w ∧ σ.call = call ∧
    match r with
    | .ok a => B σ a w
    | .error e => (∃ m, e = .kit .runNotFound m) → N w

/-- A step that records nothing is no commit. -/
theorem no_commit {p : Pid} {w w' : World} (hlog : w'.log = w.log) (q : Pid) (σ : Session)
    (hc : Commits w w' q σ) : q ≠ p := by
  have hlength := congrArg List.length hc.log
  rw [hlog, List.length_cons] at hlength
  exact absurd hlength (Nat.ne_of_lt (Nat.lt_succ_self _))

theorem Beside.inTx {p : Pid} {w : World} {session : Pid → Option Session}
    {holder : LockKey → Option Pid} {inserting : List (Pid × UniqueKey)}
    (hh : ∀ k, w.holder k = some p → holder k = some p)
    (hi : ∀ k, (p, k) ∈ w.inserting → (p, k) ∈ inserting) :
    Beside p w (w.inTx session holder inserting w.premature) where
  quiet := ⟨.inTx fun _ h => h, rfl, rfl, rfl, rfl, rfl, rfl, rfl, fun _ h _ => h⟩
  commits := no_commit rfl
  holder := hh
  inserting := hi
  resolving h := h
  acked := rfl

/-- The session of `p` goes on. -/
theorem SessionOk.goOn {priv : Bool} {p : Pid} {w w' : World} {σ σ' : Session}
    (h : SessionOk priv w p σ) (hclient : σ.client = p) (hevo : Evolution w w')
    (hrun : w'.runId = w.runId)
    (hsame : σ'.client = σ.client ∧ σ'.call = σ.call ∧ σ'.begun = σ.begun)
    (hnow : σ'.now = σ.now ∨ σ'.now = some w.clock) : SessionOk priv w' p σ' := by
  obtain ⟨hc, hcall, hbegun⟩ := hsame
  refine ⟨?_, ?_, fun n hn => ?_, Or.inl (hc.trans hclient), fun hp => ?_⟩
  · rw [hc, hevo.kind _ h.started]
    exact h.started
  · rw [hbegun]
    exact h.begun.trans hevo.clock
  · rw [hbegun]
    rcases hnow with hsame | hread
    · rw [hsame] at hn
      obtain ⟨hlow, hhigh⟩ := h.now n hn
      exact ⟨hlow, hhigh.trans hevo.clock⟩
    · rw [hread, Option.some.injEq] at hn
      rw [← hn]
      exact ⟨h.begun, hevo.clock⟩
  · have hpriv := (h.callPriv hp).evolve hevo h.started (congrFun hrun _)
    constructor
    · rw [hc, hcall]
      exact hpriv.claim
    · rw [hcall]
      exact hpriv.transition
    · rw [hc, hcall]
      exact hpriv.complete
    · rw [hc, hcall]
      exact hpriv.settle
    · rw [hc, hcall]
      exact hpriv.cleanup

section Statements

variable {priv : Bool} {p : Pid} {κ : Kind} {L : List Call} {σ : Session} {call : Call}
  {N A : World → Prop} {α : Type} {B : Session → α → World → Prop}
  {task : Pid → P Answer → World → Prop} {post : Pid → Except Exn Answer → World → Prop}

/-- One statement of an open transaction. -/
theorem statement {o : Op} {f : Res o → P α} {C : Res o → World → Prop} (hκ : κ ≠ .idle)
    (hA : Persists priv p A) (hcall : σ.call = call) (hplain : o.isPlain = true)
    (hstatement : o.isStatement = true)
    (hok : ∀ w r w' fs, Inv priv w → At p κ L (some σ) w → A w →
      execOk p w o = some (r, w', fs) → fs = [] ∧ StepOk priv p w w' ∧ Beside p w w' ∧
        ((∃ a, r = .ok a ∧ C a w') ∨ ∃ e, r = .error e ∧ NotKit e ∧ At p κ L (some σ) w'))
    (hf : ∀ a, (discipline priv task post).Triple machine p (Beside p) (C a) (f a)
      (BodyPost p κ L call N B)) :
    (discipline priv task post).Triple machine p (Beside p) (Inside p κ L σ A) (perform o >>= f)
      (BodyPost p κ L call N B) := by
  refine Discipline.Triple.op (B := fun r w => match r with
    | .ok a => C a w
    | .error e => At p κ L (some σ) w ∧ NotKit e) (At.stable hκ hA) ?_ ?_
  · intro w c r w' fs hi ha hx
    rcases exec_plain hplain hx with hx | ⟨e, rfl, rfl, rfl, hmay⟩
    · obtain ⟨rfl, hstep, hbeside, hr⟩ := hok w r w' fs hi ha.1 ha.2 hx
      refine ⟨hstep.inv, hstep.other, fun f hf => absurd hf List.not_mem_nil, hbeside, ?_⟩
      rcases hr with ⟨a, rfl, hc⟩ | ⟨e, rfl, hkit, hat⟩
      · exact hc
      · exact ⟨hat, hkit⟩
    · exact ⟨hi, (StepOk.refl hi).other, fun f hf => absurd hf List.not_mem_nil, .refl p _,
        ha.1, notKit_of_mayRaise hstatement hmay⟩
  · rintro (e | a)
    · refine Discipline.Triple.done (At.stable hκ (.const (NotKit e))) fun w _ h => ?_
      exact ⟨σ, h.1, hcall, fun ⟨m, hm⟩ => absurd hm (h.2 _ m)⟩
    · exact hf a

/-- A statement that only reads. -/
theorem read {o : Op} {f : Res o → P α} {C : Res o → World → Prop} (hκ : κ ≠ .idle)
    (hA : Persists priv p A) (hcall : σ.call = call) (hplain : o.isPlain = true)
    (hstatement : o.isStatement = true)
    (hok : ∀ w r w' fs, Inv priv w → At p κ L (some σ) w → A w →
      execOk p w o = some (r, w', fs) → fs = [] ∧ w' = w ∧ ∃ a, r = .ok a ∧ C a w)
    (hf : ∀ a, (discipline priv task post).Triple machine p (Beside p)
      (Inside p κ L σ fun w => A w ∧ C a w) (f a) (BodyPost p κ L call N B)) :
    (discipline priv task post).Triple machine p (Beside p) (Inside p κ L σ A) (perform o >>= f)
      (BodyPost p κ L call N B) := by
  refine statement hκ hA hcall hplain hstatement (fun w r w' fs hi hat ha hx => ?_) hf
  obtain ⟨rfl, rfl, a, rfl, hc⟩ := hok w r w' fs hi hat ha hx
  exact ⟨rfl, .refl hi, .refl p _, Or.inl ⟨a, rfl, hat, ha, hc⟩⟩

/-- A step of `p` inside its transaction, from what it knows of itself. -/
theorem At.inTx {w : World} (hi : Inv priv w) (h : At p κ L (some σ) w) {σ' : Session}
    (session : Pid → Option Session) (holder : LockKey → Option Pid)
    (inserting : List (Pid × UniqueKey)) (hself : session p = some σ')
    (hs : ∀ q, q ≠ p → session q = w.session q)
    (hsame : σ'.client = σ.client ∧ σ'.call = σ.call ∧ σ'.begun = σ.begun)
    (hnow : σ'.now = σ.now ∨ σ'.now = some w.clock)
    (hh : ∀ k q, w.holder k = some q → holder k = some q)
    (hi' : ∀ q k, (q, k) ∈ w.inserting → (q, k) ∈ inserting)
    (hins : ∀ q r k, (q, k) ∈ inserting → (r, k) ∈ inserting → q = r) :
    StepOk priv p w (w.inTx session holder inserting w.premature) ∧
      Beside p w (w.inTx session holder inserting w.premature) ∧
      At p κ L (some σ') (w.inTx session holder inserting w.premature) := by
  refine ⟨?_, .inTx (fun k => hh k p) (fun k => hi' p k), h.kind, hself, ?_, h.resolving, h.cleanup,
    h.acked⟩
  · refine .transaction hi (hi.started h.session) h.cleanup hs (fun k q _ => hh k q)
      (fun q k _ => hi' q k) hins (fun _ hp => hp) fun σ'' hσ'' => ?_
    rw [hself, Option.some.injEq] at hσ''
    subst hσ''
    exact ((hi.proc p).session σ h.session).goOn (h.client σ rfl) (.inTx fun _ hp => hp) rfl hsame
      hnow
  · rintro σ'' hσ''
    rw [← Option.some.inj hσ'', hsame.1]
    exact h.client σ rfl

/-- Taking locks that nobody else holds. -/
theorem At.locked {w : World} (hi : Inv priv w) (h : At p κ L (some σ) w)
    (holder : LockKey → Option Pid) (hh : ∀ k q, w.holder k = some q → holder k = some q) :
    StepOk priv p w { w with holder := holder } ∧ Beside p w { w with holder := holder } ∧
      At p κ L (some σ) { w with holder := holder } :=
  h.inTx hi w.session holder w.inserting h.session (fun _ _ => rfl)
    ⟨rfl, rfl, rfl⟩ (Or.inl rfl) hh (fun _ _ hk => hk) hi.inserting

theorem holder_lock {w : World} {k : LockKey} (hfree : w.free p k = true) {k' : LockKey} {q : Pid}
    (h : w.holder k' = some q) : (w.lock p k).holder k' = some q := by
  show Function.update w.holder k (some p) k' = some q
  by_cases hk : k' = k
  · subst hk
    rw [World.free, h] at hfree
    rw [Function.update_self, of_decide_eq_true hfree]
  · rw [Function.update_of_ne hk, h]

theorem lockAll_eq (w : World) (ks : List LockKey) :
    w.lockAll p ks = { w with holder := (w.lockAll p ks).holder } := by
  unfold World.lockAll
  induction ks generalizing w with
  | nil => rfl
  | cons k rest ih =>
    rw [List.foldl_cons, ih (w.lock p k)]
    rfl

theorem holder_lockAll {w : World} {ks : List LockKey} (hfree : ∀ k ∈ ks, w.free p k = true)
    {k' : LockKey} {q : Pid} (h : w.holder k' = some q) : (w.lockAll p ks).holder k' = some q := by
  unfold World.lockAll
  induction ks generalizing w with
  | nil => exact h
  | cons k rest ih =>
    rw [List.foldl_cons]
    refine ih (fun k₂ hk₂ => ?_) (holder_lock (hfree k List.mem_cons_self) h)
    have hold := hfree k₂ (List.mem_cons_of_mem _ hk₂)
    -- a lock of `p` is still free for `p`
    unfold World.free at hold ⊢
    by_cases hk : k₂ = k
    · have hholder : (w.lock p k).holder k₂ = some p := by
        rw [hk]
        exact Function.update_self _ _ _
      rw [hholder]
      exact decide_eq_true rfl
    · have hholder : (w.lock p k).holder k₂ = w.holder k₂ := Function.update_of_ne hk _ _
      rw [hholder]
      exact hold

/-- Reading the database clock. -/
theorem now {f : Time → P α} (hκ : κ ≠ .idle) (hA : Persists priv p A) (hcall : σ.call = call)
    (hf : ∀ n, (discipline priv task post).Triple machine p (Beside p)
      (Inside p κ L { σ with now := some n } A) (f n) (BodyPost p κ L call N B)) :
    (discipline priv task post).Triple machine p (Beside p) (Inside p κ L σ A)
      (perform .now >>= f) (BodyPost p κ L call N B) := by
  refine statement hκ hA hcall rfl rfl (fun w r w' fs hi hat ha hx => ?_) hf
  simp only [execOk, hat.session, answer] at hx
  obtain ⟨rfl, rfl, rfl⟩ : _ ∧ _ ∧ _ := by simpa using hx
  obtain ⟨hstep, hbeside, hat'⟩ := hat.inTx hi
    (Function.update w.session p (some { σ with now := some w.clock })) w.holder w.inserting
    (Function.update_self _ _ _)
    (fun _ hq => Function.update_of_ne hq _ _) ⟨rfl, rfl, rfl⟩ (Or.inr rfl) (fun _ _ h => h)
    (fun _ _ h => h) hi.inserting
  exact ⟨rfl, hstep, hbeside, Or.inl ⟨w.clock, rfl, hat', hA w _ hi hstep.inv hbeside ha⟩⟩

/-- Flushing a write. -/
theorem At.flushed {w : World} (hi : Inv priv w) (h : At p κ L (some σ) w) (x : Write)
    {keys : List UniqueKey} (hfree : w.awaits p keys = false) :
    StepOk priv p w (w.flush p σ x keys) ∧ Beside p w (w.flush p σ x keys) ∧
      At p κ L (some { σ with writes := σ.writes ++ [x] }) (w.flush p σ x keys) := by
  have hmine : ∀ q k, (q, k) ∈ w.inserting → k ∈ keys → q = p := by
    intro q k hq hk
    rw [World.awaits, List.any_eq_false] at hfree
    have hnot := hfree (q, k) hq
    by_contra hne
    exact hnot (by simp [hne, hk])
  refine h.inTx hi (Function.update w.session p (some { σ with writes := σ.writes ++ [x] }))
    w.holder (keys.map (fun k => (p, k)) ++ w.inserting) (Function.update_self _ _ _)
    (fun _ hq => Function.update_of_ne hq _ _) ⟨rfl, rfl, rfl⟩
    (Or.inl rfl) (fun _ _ hk => hk) (fun q k hk => List.mem_append_right _ hk) ?_
  intro q r k hq hr
  have hcases : ∀ x, (x, k) ∈ keys.map (fun k => (p, k)) ++ w.inserting →
      (x = p ∧ k ∈ keys) ∨ (x, k) ∈ w.inserting := by
    intro x hx
    rcases List.mem_append.mp hx with hx | hx
    · obtain ⟨k', hk', he⟩ := List.mem_map.mp hx
      obtain ⟨rfl, rfl⟩ := Prod.mk.inj he
      exact Or.inl ⟨rfl, hk'⟩
    · exact Or.inr hx
  rcases hcases q hq with ⟨hqp, hk⟩ | hold
  · rcases hcases r hr with ⟨hrp, -⟩ | hold'
    · rw [hqp, hrp]
    · rw [hqp, hmine r k hold' hk]
  · rcases hcases r hr with ⟨hrp, hk⟩ | hold'
    · rw [hrp, hmine q k hold hk]
    · exact hi.inserting q r k hold hold'

/-- Updating a row. -/
theorem write {row : RunRow} {f : Unit → P α} (hκ : κ ≠ .idle) (hA : Persists priv p A)
    (hcall : σ.call = call)
    (hf : (discipline priv task post).Triple machine p (Beside p)
      (Inside p κ L { σ with writes := σ.writes ++ [.updateRun row] } A) (f ())
      (BodyPost p κ L call N B)) :
    (discipline priv task post).Triple machine p (Beside p) (Inside p κ L σ A)
      (perform (.updateRun row) >>= f) (BodyPost p κ L call N B) := by
  refine statement hκ hA hcall rfl rfl (fun w r w' fs hi hat ha hx => ?_) fun _ => hf
  simp only [execOk, hat.session, answer] at hx
  obtain ⟨rfl, rfl, rfl⟩ : _ ∧ _ ∧ _ := by simpa using hx
  have hfree : w.awaits p [] = false := by simp [World.awaits]
  obtain ⟨hstep, hbeside, hat'⟩ := hat.flushed hi (.updateRun row) hfree
  exact ⟨rfl, hstep, hbeside, Or.inl ⟨(), rfl, hat', hA w _ hi hstep.inv hbeside ha⟩⟩

/-- The thread of a row is locked by `p`, and the row is as `p` read it. -/
def Held (p : Pid) (row : RunRow) (w : World) : Prop :=
  row ∈ w.db.runs ∧ w.holder (.thread row.threadId) = some p

theorem Held.persists (row : RunRow) : Persists priv p (Held p row) :=
  fun _ _ hi _ hb h => ⟨hb.locked hi.db h.1 h.2, hb.holder _ h.2⟩

theorem holds_persists (k : LockKey) : Persists priv p fun w => w.holder k = some p :=
  fun _ _ _ _ hb h => hb.holder k h

/-- What a record says of the tables from when it was read on: its row is there, and it is the
record itself if that is terminal. -/
def Known (record : RunRow) (w : World) : Prop :=
  ∃ row ∈ w.db.runs, SameRun record row ∧ (record.status.isActive = false → row = record)

theorem Known.durable (record : RunRow) : Durable priv p (Known record) := by
  rintro w w' hi - hevo - ⟨row, hrow, hsame, hdone⟩
  rcases hevo.tables with ⟨hdb, -⟩ | ⟨q, σ, hc⟩
  · exact ⟨row, hdb ▸ hrow, hsame, hdone⟩
  · rw [Known, hc.db]
    rcases hc.staged.forward hi.db hrow with hkept | ⟨row', hrow', now, -, -, hmove⟩
    · exact ⟨row, hkept, hsame, hdone⟩
    · refine ⟨row', hrow', hsame.trans hmove.unmoved, fun h => ?_⟩
      have hactive := hmove.active
      rw [hdone h, h] at hactive
      exact absurd hactive Bool.false_ne_true

theorem Known.lasts (record : RunRow) : Lasts priv p (Known record) := (Known.durable record).lasts

theorem view_eq {w : World} (h : At p κ L (some σ) w) : w.view p = w.db.after σ.writes := by
  rw [World.view, h.session]

/-- Locking a thread. -/
theorem lockThreadOp {id : Uuid} {namespace_ : Option String} {f : Option ThreadRow → P α}
    (hκ : κ ≠ .idle) (hA : Persists priv p A) (hcall : σ.call = call)
    (hf : ∀ a, (discipline priv task post).Triple machine p (Beside p)
      (Inside p κ L σ fun w => A w ∧ (a.isSome = true → w.holder (.thread id) = some p)) (f a)
      (BodyPost p κ L call N B)) :
    (discipline priv task post).Triple machine p (Beside p) (Inside p κ L σ A)
      (perform (.lockThread id namespace_) >>= f) (BodyPost p κ L call N B) := by
  refine statement hκ hA hcall rfl rfl (fun w r w' fs hi hat ha hx => ?_) hf
  simp only [execOk] at hx
  split at hx
  · obtain ⟨rfl, rfl, rfl⟩ : _ ∧ _ ∧ _ := by simpa [answer] using hx
    exact ⟨rfl, .refl hi, .refl p _, Or.inl ⟨none, rfl, hat, ha, fun h => absurd h (by simp)⟩⟩
  · split at hx
    · next row _ hfree =>
      obtain ⟨rfl, rfl, rfl⟩ : _ ∧ _ ∧ _ := by simpa [answer] using hx
      obtain ⟨hstep, hbeside, hat'⟩ := hat.locked hi (w.lock p (.thread id)).holder
        fun k q => holder_lock hfree
      exact ⟨rfl, hstep, hbeside, Or.inl ⟨some row, rfl, hat', hA w _ hi hstep.inv hbeside ha,
        fun _ => Function.update_self _ _ _⟩⟩
    · exact absurd hx (by simp)

/-- `FOR UPDATE SKIP LOCKED`. -/
theorem tryLockThread {id : Uuid} {f : Option ThreadRow → P α}
    (hκ : κ ≠ .idle) (hA : Persists priv p A) (hcall : σ.call = call)
    (hf : ∀ a, (discipline priv task post).Triple machine p (Beside p)
      (Inside p κ L σ fun w => A w ∧ (a.isSome = true → w.holder (.thread id) = some p)) (f a)
      (BodyPost p κ L call N B)) :
    (discipline priv task post).Triple machine p (Beside p) (Inside p κ L σ A)
      (perform (.tryLockThread id) >>= f) (BodyPost p κ L call N B) := by
  refine statement hκ hA hcall rfl rfl (fun w r w' fs hi hat ha hx => ?_) hf
  simp only [execOk] at hx
  split at hx
  · obtain ⟨rfl, rfl, rfl⟩ : _ ∧ _ ∧ _ := by simpa [answer] using hx
    exact ⟨rfl, .refl hi, .refl p _, Or.inl ⟨none, rfl, hat, ha, fun h => absurd h (by simp)⟩⟩
  · split at hx
    · next row _ hfree =>
      obtain ⟨rfl, rfl, rfl⟩ : _ ∧ _ ∧ _ := by simpa [answer] using hx
      obtain ⟨hstep, hbeside, hat'⟩ := hat.locked hi (w.lock p (.thread id)).holder
        fun k q => holder_lock hfree
      exact ⟨rfl, hstep, hbeside, Or.inl ⟨some row, rfl, hat', hA w _ hi hstep.inv hbeside ha,
        fun _ => Function.update_self _ _ _⟩⟩
    · obtain ⟨rfl, rfl, rfl⟩ : _ ∧ _ ∧ _ := by simpa [answer] using hx
      exact ⟨rfl, .refl hi, .refl p _, Or.inl ⟨none, rfl, hat, ha, fun h => absurd h (by simp)⟩⟩

/-- Locking a row whose thread `p` has locked. -/
theorem lockRunOp {runId tid : Uuid} {f : List RunRow → P α} (hκ : κ ≠ .idle)
    (hA : Persists priv p A) (hcall : σ.call = call) (hwrites : σ.writes = [])
    (hthread : ∀ w, Inv priv w → A w → w.holder (.thread tid) = some p ∧
      ∃ r, Known r w ∧ r.id = runId ∧ r.threadId = tid)
    (hf : ∀ a, (discipline priv task post).Triple machine p (Beside p)
      (Inside p κ L σ fun w => A w ∧ ∀ row ∈ a, row.id = runId ∧ Held p row w) (f a)
      (BodyPost p κ L call N B)) :
    (discipline priv task post).Triple machine p (Beside p) (Inside p κ L σ A)
      (perform (.lockRun runId) >>= f) (BodyPost p κ L call N B) := by
  refine statement hκ hA hcall rfl rfl (fun w r w' fs hi hat ha hx => ?_) hf
  simp only [execOk, view_eq hat, hwrites, Db.after_nil] at hx
  split at hx
  · next hfree =>
    split at hx
    · obtain ⟨rfl, rfl, rfl⟩ : _ ∧ _ ∧ _ := by simpa [answer] using hx
      exact ⟨rfl, .refl hi, .refl p _,
        Or.inl ⟨[], rfl, hat, ha, fun _ h => absurd h List.not_mem_nil⟩⟩
    · next row hrow =>
      obtain ⟨rfl, rfl, rfl⟩ : _ ∧ _ ∧ _ := by simpa [answer] using hx
      obtain ⟨hstep, hbeside, hat'⟩ := hat.locked hi (w.lock p (.run runId)).holder
        fun k q => holder_lock hfree
      obtain ⟨hmem, hid⟩ := Db.run?_mem hrow
      obtain ⟨hheld, r, ⟨row', hrow', hsame, -⟩, hr, ht⟩ := hthread w hi ha
      -- the row still belongs to the thread that is locked
      have heq : row = row' := hi.db.unique_id hmem hrow' (by rw [hid, hsame.id, hr])
      refine ⟨rfl, hstep, hbeside, Or.inl ⟨[row], rfl, hat', hA w _ hi hstep.inv hbeside ha, ?_⟩⟩
      intro x hx
      rw [List.mem_singleton.mp hx]
      refine ⟨hid, hmem, ?_⟩
      rw [heq, hsame.threadId, ht]
      exact holder_lock hfree hheld
  · exact absurd hx (by simp)

/-- Locking the active rows of a thread that `p` has locked. -/
theorem lockActiveRuns {t : Uuid} {f : List RunRow → P α} (hκ : κ ≠ .idle)
    (hA : Persists priv p A) (hcall : σ.call = call) (hwrites : σ.writes = [])
    (hthread : ∀ w, Inv priv w → A w → w.holder (.thread t) = some p)
    (hf : ∀ a, (discipline priv task post).Triple machine p (Beside p)
      (Inside p κ L σ fun w => A w ∧ ∀ row ∈ a, row.threadId = t ∧ Held p row w) (f a)
      (BodyPost p κ L call N B)) :
    (discipline priv task post).Triple machine p (Beside p) (Inside p κ L σ A)
      (perform (.lockActiveRuns t) >>= f) (BodyPost p κ L call N B) := by
  refine statement hκ hA hcall rfl rfl (fun w r w' fs hi hat ha hx => ?_) hf
  simp only [execOk, view_eq hat, hwrites, Db.after_nil] at hx
  split at hx
  · next hfree =>
    obtain ⟨rfl, rfl, rfl⟩ : _ ∧ _ ∧ _ := by simpa [answer] using hx
    have hkeys : ∀ k ∈ (w.db.activeRuns t).map (fun row => LockKey.run row.id),
        w.free p k = true := by
      intro k hk
      obtain ⟨row, hrow, rfl⟩ := List.mem_map.mp hk
      exact List.all_eq_true.mp hfree row hrow
    obtain ⟨hstep, hbeside, hat'⟩ := hat.locked hi
      (w.lockAll p ((w.db.activeRuns t).map fun row => .run row.id)).holder
      fun k q => holder_lockAll hkeys
    rw [← lockAll_eq] at hstep hbeside hat'
    refine ⟨rfl, hstep, hbeside, Or.inl ⟨_, rfl, hat', hA w _ hi hstep.inv hbeside ha, ?_⟩⟩
    intro row hrow
    obtain ⟨hmem, ht, -⟩ := Db.mem_activeRuns.mp hrow
    refine ⟨ht, ?_, ?_⟩
    · rw [lockAll_eq]
      exact hmem
    · rw [ht]
      exact holder_lockAll hkeys (hthread w hi ha)
  · exact absurd hx (by simp)

/-- Inserting the row of a claim. `INSERT … ON CONFLICT DO NOTHING` may insert nothing. -/
theorem insertRun {row : RunRow} {conflict : Bool} {f : Option RunRow → P α} {n : Time}
    (hκ : κ ≠ .idle) (hA : Persists priv p A) (hcall : σ.call = call)
    (hthread : ∀ w, Inv priv w → A w →
      w.holder (.thread row.threadId) = some p ∧ Freed w p n σ.writes)
    (hnone : (discipline priv task post).Triple machine p (Beside p) (Inside p κ L σ A) (f none)
      (BodyPost p κ L call N B))
    (hsome : ∀ stored, stored = { row with startedAt := σ.begun } →
      (discipline priv task post).Triple machine p (Beside p)
        (Inside p κ L { σ with writes := σ.writes ++ [.insertRun stored] }
          fun w => A w ∧ Inserted w p σ.writes stored) (f (some stored))
        (BodyPost p κ L call N B)) :
    (discipline priv task post).Triple machine p (Beside p) (Inside p κ L σ A)
      (perform (.insertRun row conflict) >>= f) (BodyPost p κ L call N B) := by
  refine statement (C := fun a w => match a with
    | none => Inside p κ L σ A w
    | some stored => stored = { row with startedAt := σ.begun } ∧
        Inside p κ L { σ with writes := σ.writes ++ [.insertRun stored] }
          (fun w => A w ∧ Inserted w p σ.writes stored) w) hκ hA hcall rfl rfl ?_ ?_
  · intro w r w' fs hi hat ha hx
    simp only [execOk, hat.session, view_eq hat] at hx
    split at hx
    · obtain ⟨rfl, rfl, rfl⟩ : _ ∧ _ ∧ _ := by simpa [answer] using hx
      exact ⟨rfl, .refl hi, .refl p _, Or.inl ⟨none, rfl, hat, ha⟩⟩
    · split at hx
      · exact absurd hx (by simp)
      · next hfree =>
        split at hx
        · obtain ⟨rfl, rfl, rfl⟩ : _ ∧ _ ∧ _ := by simpa [answer] using hx
          exact ⟨rfl, .refl hi, .refl p _, Or.inr ⟨_, rfl, fun c m h => Exn.noConfusion h, hat⟩⟩
        · next hkeys =>
          obtain ⟨rfl, rfl, rfl⟩ : _ ∧ _ ∧ _ := by simpa [answer] using hx
          have hfree' := Bool.eq_false_iff.mpr hfree
          obtain ⟨hstep, hbeside, hat'⟩ := hat.flushed hi
            (.insertRun { row with startedAt := σ.begun }) hfree'
          have ha' := hA w _ hi hstep.inv hbeside ha
          refine ⟨rfl, hstep, hbeside, Or.inl ⟨_, rfl, rfl, hat', ha', ?_⟩⟩
          refine ⟨(hthread _ hstep.inv ha').1, fun k hk => ?_, fun r hr k hk hk' => ?_⟩
          · exact List.mem_append_left _ (List.mem_map.mpr ⟨k, hk, rfl⟩)
          · -- the statement found none of its keys in the table
            have hmem : k ∈ (w.db.after σ.writes).keys :=
              List.mem_append_left _ (List.mem_append_right _ (List.mem_flatMap.mpr ⟨r, hr, hk⟩))
            refine hkeys (List.any_eq_true.mpr ⟨k, hk', ?_⟩)
            exact List.contains_iff_mem.mpr hmem
  · rintro (_ | stored)
    · exact hnone
    · intro w hi h
      exact hsome stored h.1 w hi h.2

/-- Inserting a batch of messages. -/
theorem insertMessages {rows : List MessageRow} {f : Unit → P α} (hκ : κ ≠ .idle)
    (hA : Persists priv p A) (hcall : σ.call = call)
    (hf : (discipline priv task post).Triple machine p (Beside p)
      (Inside p κ L { σ with writes := σ.writes ++ [.insertMessages rows] } A) (f ())
      (BodyPost p κ L call N B)) :
    (discipline priv task post).Triple machine p (Beside p) (Inside p κ L σ A)
      (perform (.insertMessages rows) >>= f) (BodyPost p κ L call N B) := by
  refine statement hκ hA hcall rfl rfl (fun w r w' fs hi hat ha hx => ?_) fun _ => hf
  simp only [execOk, hat.session] at hx
  split at hx
  · exact absurd hx (by simp)
  · next hfree =>
    split at hx
    · obtain ⟨rfl, rfl, rfl⟩ : _ ∧ _ ∧ _ := by simpa [answer] using hx
      exact ⟨rfl, .refl hi, .refl p _, Or.inr ⟨_, rfl, fun c m h => Exn.noConfusion h, hat⟩⟩
    · obtain ⟨rfl, rfl, rfl⟩ : _ ∧ _ ∧ _ := by simpa [answer] using hx
      obtain ⟨hstep, hbeside, hat'⟩ := hat.flushed hi (.insertMessages rows)
        (Bool.eq_false_iff.mpr hfree)
      exact ⟨rfl, hstep, hbeside, Or.inl ⟨(), rfl, hat', hA w _ hi hstep.inv hbeside ha⟩⟩

/-- Inserting a thread. -/
theorem insertThread {row : ThreadRow} {f : Unit → P α} (hκ : κ ≠ .idle)
    (hA : Persists priv p A) (hcall : σ.call = call)
    (hf : (discipline priv task post).Triple machine p (Beside p)
      (Inside p κ L { σ with writes := σ.writes ++ [.insertThread row] } A) (f ())
      (BodyPost p κ L call N B)) :
    (discipline priv task post).Triple machine p (Beside p) (Inside p κ L σ A)
      (perform (.insertThread row) >>= f) (BodyPost p κ L call N B) := by
  refine statement hκ hA hcall rfl rfl (fun w r w' fs hi hat ha hx => ?_) fun _ => hf
  simp only [execOk, hat.session] at hx
  split at hx
  · exact absurd hx (by simp)
  · next hfree =>
    split at hx
    · obtain ⟨rfl, rfl, rfl⟩ : _ ∧ _ ∧ _ := by simpa [answer] using hx
      exact ⟨rfl, .refl hi, .refl p _, Or.inr ⟨_, rfl, fun c m h => Exn.noConfusion h, hat⟩⟩
    · obtain ⟨rfl, rfl, rfl⟩ : _ ∧ _ ∧ _ := by simpa [answer] using hx
      obtain ⟨hstep, hbeside, hat'⟩ := hat.flushed hi (.insertThread row)
        (Bool.eq_false_iff.mpr hfree)
      exact ⟨rfl, hstep, hbeside, Or.inl ⟨(), rfl, hat', hA w _ hi hstep.inv hbeside ha⟩⟩

/-- A body that ends normally. -/
theorem body_pure {a : α} (hκ : κ ≠ .idle) (hA : Persists priv p A) (hcall : σ.call = call)
    (hB : ∀ w, Inv priv w → At p κ L (some σ) w → A w → B σ a w) :
    (discipline priv task post).Triple machine p (Beside p) (Inside p κ L σ A) (pure a)
      (BodyPost p κ L call N B) :=
  Discipline.Triple.done (At.stable hκ hA) fun w hi h => ⟨σ, h.1, hcall, hB w hi h.1 h.2⟩

/-- A body that raises an exception other than that its run is missing. -/
theorem body_throw {e : Exn} (hκ : κ ≠ .idle) (hA : Persists priv p A) (hcall : σ.call = call)
    (he : ∀ m, e ≠ .kit .runNotFound m) :
    (discipline priv task post).Triple machine p (Beside p) (Inside p κ L σ A) (throw e)
      (BodyPost p κ L call N B) := by
  refine Discipline.Triple.done (At.stable hκ hA) fun w _ h => ?_
  exact ⟨σ, h.1, hcall, fun ⟨m, hm⟩ => absurd hm (he m)⟩

end Statements

-- ---------------------------------------------------------------------------
-- Whole transactions
-- ---------------------------------------------------------------------------

/-- If the transaction of a clean-up is not premature, nothing of its invocation is open. -/
def Timely (p : Pid) (w : World) : Prop :=
  ∀ parent status, w.kind p = .cleanup parent status → w.premature parent = false →
    w.resolving parent = none

theorem Timely.lasts {priv : Bool} {p : Pid} : Lasts priv p (Timely p) := by
  intro w w' hi _ hq h parent status hkind hpremature
  rw [hq.kind] at hkind
  have hcleanup := (hi.proc p).parent parent status hkind
  have hbefore : w.premature parent = false := by
    cases hp : w.premature parent with
    | false => rfl
    | true => rw [hq.evolution.premature parent hp] at hpremature; exact hpremature
  have hnone := h parent status hkind hbefore
  cases hr : w'.resolving parent with
  | none => rfl
  | some q =>
    rcases hq.evolution.resolving parent q hr with hold | hopen
    · rw [hnone] at hold
      exact absurd hold (by simp)
    · rw [((hi.proc parent).cleanup p hcleanup).1] at hopen
      exact absurd hopen (by simp)

section Transaction

variable {priv : Bool} {p : Pid} {κ : Kind} {L : List Call} {call : Call}
  {N A : World → Prop} {α : Type} {B : Session → α → World → Prop} {C : α → World → Prop}
  {task : Pid → P Answer → World → Prop} {post : Pid → Except Exn Answer → World → Prop}

/-- The process to which a commit is handed over is a task. -/
def ResolverTask (priv : Bool) (task : Pid → P Answer → World → Prop) : Prop :=
  ∀ w q σ, Inv priv w → w.kind q = .resolver σ.client → w.session q = some σ → σ.client ≠ q →
    task q resolverProgram w

/-- How a transaction for `call` ends. -/
def CallPost (p : Pid) (κ : Kind) (L : List Call) (call : Call) (N : World → Prop)
    (C : α → World → Prop) (r : Except Exn α) (w : World) : Prop :=
  match r with
  | .ok a => At p κ (call :: L) none w ∧ C a w
  | .error e => Closed p κ L w ∧ ((∃ m, e = .kit .runNotFound m) → N w)

theorem At.begun {w : World} (hi : Inv priv w) (hκ : κ ≠ .idle) (h : At p κ L none w)
    (hpriv : priv = true → CallPriv w ⟨p, call, w.clock, none, []⟩) :
    StepOk priv p w (w.beginSession p call) ∧ Beside p w (w.beginSession p call) ∧
      At p κ L (some ⟨p, call, w.clock, none, []⟩) (w.beginSession p call) ∧
      Timely p (w.beginSession p call) := by
  have hstarted : w.kind p ≠ .idle := by
    rw [h.kind]
    exact hκ
  have hmono : ∀ q, w.premature q = true → (w.beginSession p call).premature q = true := by
    intro q hq
    show (w.premature q || _) = true
    rw [hq, Bool.true_or]
  have hevo : Evolution w (w.beginSession p call) := .inTx hmono
  refine ⟨?_, ⟨⟨hevo, rfl, rfl, rfl, rfl, rfl, rfl, rfl, fun _ hm _ => hm⟩,
      no_commit rfl, fun _ hk => hk, fun _ hk => hk, fun hr => hr, rfl⟩,
    ⟨h.kind, Function.update_self _ _ _, ?_, h.resolving, h.cleanup, h.acked⟩, ?_⟩
  · refine StepOk.transaction hi hstarted h.cleanup
      (fun q hq => Function.update_of_ne hq _ _) (fun _ _ _ hk => hk) (fun _ _ _ hk => hk)
      hi.inserting hmono fun σ hs => ?_
    have hσ : _ = σ := Option.some.inj ((Function.update_self p _ w.session).symm.trans hs)
    subst hσ
    refine ⟨hstarted, Nat.le_refl _, fun n hn => absurd hn (by simp), Or.inl rfl, fun hp => ?_⟩
    exact (hpriv hp).evolve hevo hstarted rfl
  · rintro σ hs
    rw [← Option.some.inj hs]
  · intro parent status hkind hpremature
    cases hr : w.resolving parent with
    | none => exact hr
    | some q =>
      -- the invocation has a commit under way: this clean-up is premature
      have htrue : (w.beginSession p call).premature parent = true := by
        show (w.premature parent ||
          ((w.kind p).cleansUp parent && (w.resolving parent).isSome)) = true
        rw [show w.kind p = .cleanup parent status from hkind, hr]
        simp [Kind.cleansUp]
      rw [htrue] at hpremature
      exact absurd hpremature (by simp)

theorem Quiet.ended {w w' : World} (hevo : Evolution w w') (hkind : w'.kind = w.kind)
    (hrun : w'.runId = w.runId) (harmed : w'.armed = w.armed) (hcleanup : w'.cleanup = w.cleanup)
    (hsettled : w'.settled = w.settled) (hstream : w'.stream = w.stream)
    (hsource : w'.source = w.source)
    (hlog : ∀ e ∈ w'.log, e.isBy p = true → e ∈ w.log) : Quiet p w w' :=
  ⟨hevo, by rw [hkind], by rw [hrun], by rw [harmed], by rw [hcleanup], by rw [hsettled],
    by rw [hstream], by rw [hsource], hlog⟩

/-- A rollback by the client. -/
theorem At.rolledBack {w : World} {σ : Session} (hi : Inv priv w) (h : At p κ L (some σ) w) :
    StepOk priv p w (w.endSession p) ∧ Quiet p w (w.endSession p) ∧
      Closed p κ L (w.endSession p) := by
  have hevo : Evolution w (w.endSession p) :=
    { Evolution.refl w with
      tables := Or.inl ⟨rfl, [], rfl, fun _ h => absurd h List.not_mem_nil⟩ }
  have hstep := StepOk.ended w.resolving hi (hi.started h.session) (fun _ _ h => h)
    fun _ _ _ h => h
  exact ⟨hstep, .ended hevo rfl rfl rfl rfl rfl rfl rfl fun _ hm _ => hm,
    h.kind, Function.update_self _ _ _, h.cleanup, h.acked⟩

/-- A commit by the client, acknowledged or not. -/
theorem At.committed {w : World} {σ : Session} (hi : Inv priv w) (h : At p κ L (some σ) w)
    (hstaged : Staged w p σ) (acked : Pid → List Call) (hacked : ∀ x, x ≠ p → acked x = w.acked x) :
    StepOk priv p w { w.commit p σ with acked := acked } ∧
      Quiet p w { w.commit p σ with acked := acked } := by
  have hstep := StepOk.committed w.resolving hi h.session hstaged (fun _ _ h => h)
    (fun _ _ _ h => h) hacked
  have hevo : Evolution w { w.commit p σ with acked := acked } :=
    { Evolution.refl w with
      tables := Or.inr ⟨p, σ, .committing w.resolving h.session hstaged⟩ }
  refine ⟨hstep, .ended hevo rfl rfl rfl rfl rfl rfl rfl fun e he hby => ?_⟩
  rcases List.mem_cons.mp he with rfl | he
  · exact absurd hby (by simp [Event.isBy])
  · exact he

/-- How a `COMMIT` turns out. -/
theorem exec_commit {w w' : World} {σ : Session} {c : Choice} {r : Except Exn (Res .commit)}
    {fs : Forks} (hs : w.session p = some σ) (h : exec p w .commit c = some (r, w', fs)) :
    (r = .ok () ∧ w' = (w.commit p σ).acknowledge p σ.call ∧ fs = []) ∨
      ∃ e, r = .error e ∧ NotKit e ∧
        ((w' = w.endSession p ∧ fs = []) ∨ (w' = w.commit p σ ∧ fs = []) ∨
          ∃ q, w.kind q = .idle ∧ w' = w.handOver p q σ ∧ fs = [(q, resolverProgram)]) := by
  cases c with
  | ok =>
    simp only [exec, execOk, hs] at h
    obtain ⟨rfl, rfl, rfl⟩ : _ ∧ _ ∧ _ := by simpa [answer] using h
    exact Or.inl ⟨rfl, rfl, rfl⟩
  | fail e =>
    simp only [exec] at h
    split at h
    · next hmay =>
      obtain ⟨rfl, rfl, rfl⟩ : _ ∧ _ ∧ _ := by simpa [answer] using h
      exact Or.inr ⟨e, rfl, notKit_of_mayRaise rfl hmay, Or.inl ⟨rfl, rfl⟩⟩
    · exact absurd h (by simp)
  | lost e =>
    simp only [exec, hs] at h
    split at h
    · next hmay =>
      obtain ⟨rfl, rfl, rfl⟩ : _ ∧ _ ∧ _ := by simpa [answer] using h
      exact Or.inr ⟨e, rfl, notKit_of_mayRaise rfl hmay, Or.inr (Or.inl ⟨rfl, rfl⟩)⟩
    · exact absurd h (by simp)
  | late e q =>
    simp only [exec, hs] at h
    split at h
    · next hmay =>
      rw [Bool.and_eq_true] at hmay
      obtain ⟨rfl, rfl, rfl⟩ : _ ∧ _ ∧ _ := by simpa using h
      refine Or.inr ⟨e, rfl, notKit_of_mayRaise rfl hmay.1, Or.inr (Or.inr ⟨q, ?_, rfl, rfl⟩)⟩
      cases hk : w.kind q with
      | idle => rfl
      | _ =>
        rw [hk] at hmay
        exact absurd hmay.2 Bool.false_ne_true
    · exact absurd h (by simp)
  | _ => exact absurd h (by simp [exec])

/-- A `ROLLBACK` ends the transaction in any case. -/
theorem exec_rollback {w w' : World} {c : Choice} {r : Except Exn (Res .rollback)} {fs : Forks}
    (h : exec p w .rollback c = some (r, w', fs)) :
    w' = w.endSession p ∧ fs = [] ∧ (r = .ok () ∨ ∃ e, r = .error e ∧ NotKit e) := by
  cases c with
  | ok =>
    obtain ⟨rfl, rfl, rfl⟩ : _ ∧ _ ∧ _ := by simpa [exec, execOk, answer] using h
    exact ⟨rfl, rfl, Or.inl rfl⟩
  | fail e =>
    simp only [exec] at h
    split at h
    · next hmay =>
      obtain ⟨rfl, rfl, rfl⟩ : _ ∧ _ ∧ _ := by simpa [answer] using h
      exact ⟨rfl, rfl, Or.inr ⟨e, rfl, notKit_of_mayRaise rfl hmay⟩⟩
    · exact absurd h (by simp)
  | _ => exact absurd h (by simp [exec])

/-- A commit that the client gives up waiting for. -/
theorem At.handedOver {w : World} {σ : Session} {q : Pid} (hi : Inv priv w)
    (h : At p κ L (some σ) w) (hstaged : Staged w p σ) (hq : w.kind q = .idle) :
    StepOk priv p w (w.handOver p q σ) ∧ Quiet p w (w.handOver p q σ) ∧
      Closed p κ L (w.handOver p q σ) := by
  have hstarted := hi.started h.session
  have hpq : p ≠ q := by
    rintro rfl
    exact hstarted hq
  have hstep := StepOk.handedOver hi h.session (h.client σ rfl) h.resolving hstaged hq
  have hkind : (w.handOver p q σ).kind p = w.kind p := Function.update_of_ne hpq _ _
  have hnone : (w.handOver p q σ).session p = none :=
    (Function.update_of_ne hpq _ _).trans (Function.update_self _ _ _)
  have hevo : Evolution w (w.handOver p q σ) := by
    -- a third process sees the step
    obtain ⟨x, hx⟩ : ∃ x, x ≠ p := ⟨p + 1, Nat.succ_ne_self p⟩
    exact (hstep.other x hx).1
  exact ⟨hstep, ⟨hevo, hkind, rfl, rfl, rfl, rfl, rfl, rfl, fun _ hm _ => hm⟩, hkind.trans h.kind,
    hnone, h.cleanup, h.acked⟩

theorem staged_stable {σ : Session} {a : α} (hκ : κ ≠ .idle) (hB : Persists priv p (B σ a)) :
    (discipline priv task post).Stable p
      fun w => At p κ L (some σ) w ∧ Staged w p σ ∧ B σ a w := by
  intro w w' hi hi' ho h
  have ha := ho.2 (by rw [h.1.kind]; exact hκ)
  have hok := (hi.proc p).session σ h.1.session
  exact ⟨h.1.aside ha, ha.toBeside.staged hi hok.started h.2.1, hB w w' hi hi' ha.toBeside h.2.2⟩

/-- The commit that ends a transaction. -/
theorem commit_step {σ : Session} {a : α} (hκ : κ ≠ .idle) (hcall : σ.call = call)
    (hC : ∀ a, Persists priv p (C a)) (hB : Persists priv p (B σ a))
    (htask : ResolverTask priv task)
    (hcommit : ∀ w, Inv priv w → At p κ L (some σ) w → Staged w p σ → B σ a w →
      ∀ w', Inv priv w' → w'.db = w.db.after σ.writes → w'.log = .commit σ w.db :: w.log →
        w'.mint = w.mint → w'.resolving = w.resolving → C a w') :
    (discipline priv task post).Triple machine p (Quiet p)
      (fun w => At p κ L (some σ) w ∧ Staged w p σ ∧ B σ a w)
      (perform .commit >>= fun _ => pure a) (CallPost p κ L call N C) := by
  refine Discipline.Triple.op (B := fun r w => match r with
    | .ok _ => At p κ (call :: L) none w ∧ C a w
    | .error e => Closed p κ L w ∧ NotKit e) (staged_stable hκ hB) ?_ ?_
  · intro w c r w' fs hi ⟨hat, hstaged, hb⟩ hx
    rcases exec_commit hat.session hx with ⟨rfl, rfl, rfl⟩ | ⟨e, rfl, hkit, hend⟩
    · obtain ⟨hstep, hquiet⟩ := hat.committed hi hstaged
        ((w.commit p σ).acknowledge p σ.call).acked
        fun x hx => Function.update_of_ne hx _ _
      refine ⟨hstep.inv, hstep.other, fun f hf => absurd hf List.not_mem_nil, hquiet, ?_, ?_⟩
      · refine ⟨hat.kind, Function.update_self _ _ _, fun σ hs => absurd hs (by simp),
          hat.resolving, hat.cleanup, ?_⟩
        show Function.update w.acked p (σ.call :: w.acked p) p = _
        rw [Function.update_self, hcall, hat.acked]
      · exact hcommit w hi hat hstaged hb _ hstep.inv rfl rfl rfl rfl
    · rcases hend with ⟨rfl, rfl⟩ | ⟨rfl, rfl⟩ | ⟨q, hq, rfl, rfl⟩
      · obtain ⟨hstep, hquiet, hclosed⟩ := hat.rolledBack hi
        exact ⟨hstep.inv, hstep.other, fun f hf => absurd hf List.not_mem_nil, hquiet, hclosed,
          hkit⟩
      · obtain ⟨hstep, hquiet⟩ := hat.committed hi hstaged w.acked fun _ _ => rfl
        exact ⟨hstep.inv, hstep.other, fun f hf => absurd hf List.not_mem_nil, hquiet,
          ⟨hat.kind, Function.update_self _ _ _, hat.cleanup, hat.acked⟩, hkit⟩
      · obtain ⟨hstep, hquiet, hclosed⟩ := hat.handedOver hi hstaged hq
        refine ⟨hstep.inv, hstep.other, fun f hf => ?_, hquiet, hclosed, hkit⟩
        rw [List.mem_singleton.mp hf]
        refine htask _ q σ hstep.inv (Function.update_self _ _ _) (Function.update_self _ _ _) ?_
        rintro hself
        rw [← hself, hat.client σ rfl] at hq
        exact hi.started hat.session hq
  · rintro (e | u)
    · refine Discipline.Triple.done (Closed.stable hκ (.const (NotKit e))) fun w _ h => ?_
      exact ⟨h.1, fun ⟨m, hm⟩ => absurd hm (h.2 _ m)⟩
    · exact Discipline.Triple.done (At.stable hκ (hC a)) fun w _ h => h

/-- The rollback that ends a transaction. -/
theorem rollback_step {σ : Session} {e : Exn} {Φ : World → Prop} (hκ : κ ≠ .idle)
    (hN : Lasts priv p N)
    (hΦ : Persists priv p Φ) (himp : ∀ w, Inv priv w → Φ w → (∃ m, e = .kit .runNotFound m) → N w) :
    (discipline priv task post).Triple machine p (Quiet p)
      (fun w => At p κ L (some σ) w ∧ Φ w)
      (perform .rollback >>= fun _ => (throw e : P α)) (CallPost p κ L call N C) := by
  refine Discipline.Triple.op (B := fun r w => Closed p κ L w ∧
    match r with
    | .ok _ => (∃ m, e = .kit .runNotFound m) → N w
    | .error e' => NotKit e') (At.stable hκ hΦ) ?_ ?_
  · intro w c r w' fs hi ⟨hat, hφ⟩ hx
    obtain ⟨hstep, hquiet, hclosed⟩ := hat.rolledBack hi
    have hend := exec_rollback hx
    obtain ⟨rfl, rfl, hr⟩ := hend
    refine ⟨hstep.inv, hstep.other, fun f hf => absurd hf List.not_mem_nil, hquiet, hclosed, ?_⟩
    rcases hr with rfl | ⟨e', rfl, hkit⟩
    · exact fun hm => hN w _ hi hstep.inv hquiet (himp w hi hφ hm)
    · exact hkit
  · rintro (e' | u)
    · refine Discipline.Triple.done (Closed.stable hκ (.const (NotKit e'))) fun w _ h => ?_
      exact ⟨h.1, fun ⟨m, hm⟩ => absurd hm (h.2 _ m)⟩
    · refine Discipline.Triple.done (Closed.stable hκ ?_) fun w _ h => h
      exact fun w w' hi hi' hq h hm => hN w w' hi hi' hq (h hm)

/-- A whole transaction. -/
theorem transaction {body : P α} (hκ : κ ≠ .idle) (hA : Persists priv p A) (hN : Lasts priv p N)
    (hC : ∀ a, Persists priv p (C a)) (hB : ∀ σ a, Persists priv p (B σ a))
    (htask : ResolverTask priv task)
    (hpriv : ∀ w, Inv priv w → At p κ L none w → A w → priv = true →
      CallPriv w ⟨p, call, w.clock, none, []⟩)
    (hbody : ∀ begun, (discipline priv task post).Triple machine p (Beside p)
      (Inside p κ L ⟨p, call, begun, none, []⟩ fun w => A w ∧ Timely p w) body
      (BodyPost p κ L call N fun σ a w => Staged w p σ ∧ B σ a w))
    (hcommit : ∀ σ a w, Inv priv w → σ.call = call → At p κ L (some σ) w → Staged w p σ → B σ a w →
      ∀ w', Inv priv w' → w'.db = w.db.after σ.writes → w'.log = .commit σ w.db :: w.log →
        w'.mint = w.mint → w'.resolving = w.resolving → C a w') :
    (discipline priv task post).Triple machine p (Quiet p) (fun w => At p κ L none w ∧ A w)
      (inTransaction call body) (CallPost p κ L call N C) := by
  unfold inTransaction
  refine Discipline.Triple.op (B := fun r w => match r with
    | .ok _ => ∃ begun, Inside p κ L ⟨p, call, begun, none, []⟩ (fun w => A w ∧ Timely p w) w
    | .error e => Closed p κ L w ∧ NotKit e) (At.stable hκ hA) ?_ ?_
  · intro w c r w' fs hi ⟨hat, ha⟩ hx
    rcases exec_plain rfl hx with hx | ⟨e, rfl, rfl, rfl, hmay⟩
    · simp only [execOk, hat.session] at hx
      obtain ⟨rfl, rfl, rfl⟩ : _ ∧ _ ∧ _ := by simpa [answer] using hx
      obtain ⟨hstep, hbeside, hat', htimely⟩ := hat.begun hi hκ (hpriv w hi hat ha)
      exact ⟨hstep.inv, hstep.other, fun f hf => absurd hf List.not_mem_nil, hbeside.quiet, w.clock,
        hat', hA w _ hi hstep.inv hbeside ha, htimely⟩
    · exact ⟨hi, (StepOk.refl hi).other, fun f hf => absurd hf List.not_mem_nil, .refl p _,
        hat.closed, notKit_of_mayRaise rfl hmay⟩
  · rintro (e | u)
    · refine Discipline.Triple.done (Closed.stable hκ (.const (NotKit e))) fun w _ h => ?_
      exact ⟨h.1, fun ⟨m, hm⟩ => absurd hm (h.2 _ m)⟩
    · show (discipline priv task post).Triple machine p (Quiet p) _ (body.attempt >>= _) _
      rw [attempt_bind]
      refine Discipline.Triple.exists fun begun => ?_
      refine Discipline.Triple.handle ((hbody begun).weaken fun _ _ hb => hb.quiet) ?_
      rintro (e | a)
      · -- the body raised
        refine Discipline.Triple.exists fun σ => ?_
        refine Discipline.Triple.pre (fun w _ h => ⟨h.1, h.2.2⟩)
          (rollback_step hκ hN (Φ := fun w => (∃ m, e = .kit .runNotFound m) → N w) ?_
            fun w _ h => h)
        exact fun w w' hi hi' hb h hm => hN w w' hi hi' hb.quiet (h hm)
      · refine Discipline.Triple.exists fun σ => ?_
        intro w hi h
        exact commit_step hκ h.2.1 hC (hB σ a) htask
          (fun w hi hat hs hb => hcommit σ a w hi h.2.1 hat hs hb) w hi ⟨h.1, h.2.2⟩

end Transaction

end AgentRuntimeKit
