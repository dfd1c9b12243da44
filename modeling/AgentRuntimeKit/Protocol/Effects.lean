import AgentRuntimeKit.Protocol.Steps

/-!
# The steps of the machine

Each change of the world that an operation or the environment makes, with the
conditions under which it keeps the invariant and does to others only what their
`Other` allows. What the operations need of their process is stated here once; the
programs are checked against it in `Protocol/Transactions.lean` and after.

## Results

* `StepOk.transaction` — beginning, locking, reading the clock, flushing a write.
* `StepOk.ended`       — rolling back.
* `StepOk.committed`   — committing.
* `StepOk.handedOver`  — a commit that outlives its client.
* `StepOk.own`         — a change of task state.
* `StepOk.recorded`    — a history read or an entry of the invoker.
* `StepOk.spawned`, `StepOk.finished` — the start and the end of a clean-up.
* `StepOk.environment` — the moves of the environment.
-/

namespace AgentRuntimeKit

open Lib

/-- A step of `p` that keeps the invariant and respects the others. -/
structure StepOk (priv : Bool) (p : Pid) (w w' : World) : Prop where
  inv : Inv priv w'
  other : ∀ q, q ≠ p → Other q w w'

-- ---------------------------------------------------------------------------
-- Nothing happens
-- ---------------------------------------------------------------------------

theorem Evolution.refl (w : World) : Evolution w w where
  clock := Nat.le_refl _
  mint _ _ h := h
  runId _ _ := rfl
  kind _ _ := rfl
  cleanup _ _ h := h
  settled _ _ h := h
  resolving _ _ h := Or.inl h
  premature _ h := h
  ended _ h := h
  tables := Or.inl ⟨rfl, [], rfl, fun _ h => absurd h List.not_mem_nil⟩

theorem Untouched.refl (q : Pid) (w : World) : Untouched q w w where
  session := rfl
  holder _ h := h
  inserting _ h := h
  kind := rfl
  mint _ h := h
  runId := rfl
  armed := rfl
  pushed := rfl
  stream _ := rfl
  source := rfl
  acked := rfl
  cleanup := rfl
  settled := rfl
  resolving h := h
  resolver _ h := h
  log _ h _ := h

theorem Quiet.of_evolution {p : Pid} {w w' : World} (h : Evolution w w')
    (hsame : Untouched p w w') : Quiet p w w' := (hsame.aside h).quiet

theorem Quiet.refl (p : Pid) (w : World) : Quiet p w w :=
  .of_evolution (.refl w) (.refl p w)

theorem Beside.refl (p : Pid) (w : World) : Beside p w w where
  quiet := .refl p w
  commits q σ hc := by
    have hlog := congrArg List.length hc.log
    simp at hlog
  holder _ h := h
  inserting _ h := h
  resolving h := h
  acked := rfl

section StepOk

variable {priv : Bool} {p : Pid} {w : World}

theorem StepOk.refl (hinv : Inv priv w) : StepOk priv p w w :=
  ⟨hinv, fun q _ => ⟨.refl w, fun _ => (Untouched.refl q w).aside (.refl w)⟩⟩

/-- A change that touches only `p`. -/
theorem StepOk.of_change {w' : World} (hinv : Inv priv w') (hc : Change (· = p) w w') :
    StepOk priv p w w' :=
  ⟨hinv, fun _ hq => hc.other fun h => absurd h hq⟩

/-- A process with a transaction has started. -/
theorem Inv.started (hinv : Inv priv w) {σ : Session} (hs : w.session p = some σ) :
    w.kind p ≠ .idle := by
  intro hidle
  rw [((hinv.proc p).idle hidle).session] at hs
  exact absurd hs (by simp)

/-- A process with a transaction has not started its clean-up. -/
theorem Inv.no_cleanup (hinv : Inv priv w) {σ : Session} (hs : w.session p = some σ) :
    w.cleanup p = none := by
  cases hcleanup : w.cleanup p with
  | none => rfl
  | some s =>
    rw [((hinv.proc p).cleanup s hcleanup).1] at hs
    exact absurd hs (by simp)

-- ---------------------------------------------------------------------------
-- Inside a transaction
-- ---------------------------------------------------------------------------

/-- A step inside a transaction: it may change the session, the locks and the inserts of `p`. -/
def World.inTx (w : World) (session : Pid → Option Session) (holder : LockKey → Option Pid)
    (inserting : List (Pid × UniqueKey)) (premature : Pid → Bool) : World :=
  { w with session := session, holder := holder, inserting := inserting, premature := premature }

variable {session : Pid → Option Session} {holder : LockKey → Option Pid}
  {inserting : List (Pid × UniqueKey)} {premature : Pid → Bool}

theorem Evolution.inTx (hp : ∀ q, w.premature q = true → premature q = true) :
    Evolution w (w.inTx session holder inserting premature) :=
  { Evolution.refl w with
    premature := hp
    tables := Or.inl ⟨rfl, [], rfl, fun _ h => absurd h List.not_mem_nil⟩ }

theorem Change.inTx (session : Pid → Option Session) (hs : ∀ q, q ≠ p → session q = w.session q)
    (hh : ∀ k q, q ≠ p → w.holder k = some q → holder k = some q)
    (hi : ∀ q k, q ≠ p → (q, k) ∈ w.inserting → (q, k) ∈ inserting)
    (hp : ∀ q, w.premature q = true → premature q = true) :
    Change (· = p) w (w.inTx session holder inserting premature) where
  evolution := .inTx hp
  others q hq :=
    { Untouched.refl q w with
      session := hs q hq
      holder := fun k h => hh k q hq h
      inserting := fun k h => hi q k hq h }
  clients _ _ _ _ := rfl

/-- A step of `p` inside its transaction. -/
theorem StepOk.transaction (hinv : Inv priv w) (hstarted : w.kind p ≠ .idle)
    (hcleanup : w.cleanup p = none) (hs : ∀ q, q ≠ p → session q = w.session q)
    (hh : ∀ k q, q ≠ p → w.holder k = some q → holder k = some q)
    (hi : ∀ q k, q ≠ p → (q, k) ∈ w.inserting → (q, k) ∈ inserting)
    (hins : ∀ q r k, (q, k) ∈ inserting → (r, k) ∈ inserting → q = r)
    (hp : ∀ q, w.premature q = true → premature q = true)
    (hsession : ∀ σ, session p = some σ →
      SessionOk priv (w.inTx session holder inserting premature) p σ) :
    StepOk priv p w (w.inTx session holder inserting premature) := by
  have hc := Change.inTx session hs hh hi hp
  refine .of_change (hc.inv hinv ?_ rfl rfl hins ?_) hc
  · rintro q rfl
    exact {
      session := hsession
      idle := fun h => absurd h hstarted
      cleanup := fun s h => by
        rw [show w.cleanup q = some s from h] at hcleanup
        exact absurd hcleanup (by simp)
      parent := (hinv.proc q).parent
      runId := (hinv.proc q).runId }
  · rintro rfl
    exact (hinv.rowsPriv rfl).frame hinv hc.evolution rfl (fun _ _ h => h) (fun _ => rfl)
      fun _ _ h => h

-- ---------------------------------------------------------------------------
-- The end of a transaction
-- ---------------------------------------------------------------------------

/-- The transaction of `p` ends. `resolving` says which clients still wait. -/
def World.ending (w : World) (p : Pid) (resolving : Pid → Option Pid) : World :=
  { w.endSession p with resolving := resolving }

/-- The transaction of `p` commits. -/
def World.committing (w : World) (p : Pid) (σ : Session) (resolving : Pid → Option Pid)
    (acked : Pid → List Call) : World :=
  { w.commit p σ with resolving := resolving, acked := acked }

variable {resolving : Pid → Option Pid} {acked : Pid → List Call}

theorem Untouched.ending {q : Pid} (hq : q ≠ p)
    (hfewer : ∀ c x, resolving c = some x → w.resolving c = some x)
    (hmine : ∀ c x, x ≠ p → w.resolving c = some x → resolving c = some x) :
    Untouched q w (w.ending p resolving) :=
  { Untouched.refl q w with
    session := Function.update_of_ne hq _ _
    holder := fun k h => by
      show (if w.holder k = some p then none else w.holder k) = some q
      rw [if_neg (by rw [h]; exact fun h' => hq (Option.some.inj h')), h]
    inserting := fun k h => List.mem_filter.mpr ⟨h, by simpa using hq⟩
    resolving := fun h => by
      show resolving q = none
      cases hr : resolving q with
      | none => rfl
      | some x =>
        rw [hfewer q x hr] at h
        exact absurd h (by simp)
    resolver := fun c h => hmine c q hq h }

theorem Untouched.committing {q : Pid} {σ : Session} (hq : q ≠ p)
    (hfewer : ∀ c x, resolving c = some x → w.resolving c = some x)
    (hmine : ∀ c x, x ≠ p → w.resolving c = some x → resolving c = some x)
    (hacked : ∀ x, x ≠ p → acked x = w.acked x) :
    Untouched q w (w.committing p σ resolving acked) :=
  { Untouched.ending hq hfewer hmine with
    acked := hacked q hq
    log := fun e he hby => by
      rcases List.mem_cons.mp he with rfl | he
      · exact absurd hby (by simp [Event.isBy])
      · exact he }

theorem inserting_ended (hinv : Inv priv w) (q r : Pid) (k : UniqueKey)
    (hq : (q, k) ∈ (w.endSession p).inserting) (hr : (r, k) ∈ (w.endSession p).inserting) :
    q = r :=
  hinv.inserting q r k (List.mem_filter.mp hq).1 (List.mem_filter.mp hr).1

/-- What the invariant says of `p` once its transaction is over. -/
theorem procOk_ended (hinv : Inv priv w) (hstarted : w.kind p ≠ .idle) {w' : World}
    (hsession : w'.session p = none) (hkind : w'.kind = w.kind) (hcleanup : w'.cleanup = w.cleanup)
    (hrun : w'.runId = w.runId) (hmint : w'.mint = w.mint) : ProcOk priv w' p where
  session σ hs := by
    rw [hsession] at hs
    exact absurd hs (by simp)
  idle h := absurd (hkind ▸ h) hstarted
  cleanup s hs := by
    rw [hcleanup] at hs
    rw [hkind]
    exact ⟨hsession, ((hinv.proc p).cleanup s hs).2⟩
  parent q status h := by
    rw [hkind] at h
    rw [hcleanup]
    exact (hinv.proc p).parent q status h
  runId u hu := by
    rw [hrun] at hu
    rw [hmint]
    exact (hinv.proc p).runId u hu

/-- A rollback. -/
theorem StepOk.ended (resolving : Pid → Option Pid) (hinv : Inv priv w)
    (hstarted : w.kind p ≠ .idle)
    (hfewer : ∀ c x, resolving c = some x → w.resolving c = some x)
    (hmine : ∀ c x, x ≠ p → w.resolving c = some x → resolving c = some x) :
    StepOk priv p w (w.ending p resolving) := by
  have hevo : Evolution w (w.ending p resolving) :=
    { Evolution.refl w with
      resolving := fun c q h => Or.inl (hfewer c q h)
      tables := Or.inl ⟨rfl, [], rfl, fun _ h => absurd h List.not_mem_nil⟩ }
  have hc : Change (· = p) w (w.ending p resolving) :=
    ⟨hevo, fun q hq => .ending hq hfewer hmine, fun _ _ _ _ => rfl⟩
  refine .of_change (hc.inv hinv ?_ rfl rfl (inserting_ended hinv) ?_) hc
  · rintro q rfl
    exact procOk_ended hinv hstarted (Function.update_self _ _ _) rfl rfl rfl rfl
  · rintro rfl
    exact (hinv.rowsPriv rfl).frame hinv hevo rfl (fun _ _ h => h) (fun _ => rfl)
      fun _ _ h => h

theorem Commits.committing (resolving : Pid → Option Pid) {σ : Session}
    (hsession : w.session p = some σ)
    (hstaged : Staged w p σ) : Commits w (w.committing p σ resolving acked) p σ :=
  ⟨hsession, Function.update_self _ _ _, hstaged, rfl, rfl⟩

/-- A commit. -/
theorem StepOk.committed (resolving : Pid → Option Pid) (hinv : Inv priv w) {σ : Session}
    (hsession : w.session p = some σ) (hstaged : Staged w p σ)
    (hfewer : ∀ c x, resolving c = some x → w.resolving c = some x)
    (hmine : ∀ c x, x ≠ p → w.resolving c = some x → resolving c = some x)
    (hacked : ∀ x, x ≠ p → acked x = w.acked x) :
    StepOk priv p w (w.committing p σ resolving acked) := by
  have hevo : Evolution w (w.committing p σ resolving acked) :=
    { Evolution.refl w with
      resolving := fun c q h => Or.inl (hfewer c q h)
      tables := Or.inr ⟨p, σ, .committing resolving hsession hstaged⟩ }
  have hc : Change (· = p) w (w.committing p σ resolving acked) :=
    ⟨hevo, fun q hq => .committing hq hfewer hmine hacked, fun _ _ _ _ => rfl⟩
  refine .of_change (hc.invCommit hinv ?_ hsession hstaged rfl rfl rfl rfl
    (inserting_ended hinv)) hc
  rintro q rfl
  exact procOk_ended hinv (hinv.started hsession) (Function.update_self _ _ _) rfl rfl rfl rfl

/-- The locks and inserts of a staged transaction go with it to the process that finishes it. -/
theorem Staged.handOver {σ : Session} {q : Pid} (hq : w.kind q = .idle)
    (hstarted : w.kind σ.client ≠ .idle) (h : Staged w p σ) : Staged (w.handOver p q σ) q σ := by
  have hlock : ∀ {k}, w.holder k = some p → (w.handOver p q σ).holder k = some q :=
    fun hk => if_pos hk
  have hins : ∀ {k}, (p, k) ∈ w.inserting → (q, k) ∈ (w.handOver p q σ).inserting :=
    fun hk => List.mem_map.mpr ⟨_, hk, if_pos rfl⟩
  have hkind : (w.handOver p q σ).kind σ.client = w.kind σ.client := by
    refine Function.update_of_ne ?_ _ _
    rintro rfl
    exact hstarted hq
  cases h with
  | nothing hwrites hbatch hcompletes => exact .nothing hwrites hbatch hcompletes
  | update hwrites hnow hold hl hmove hbatch hcompletes htarget =>
    exact .update hwrites hnow hold (hlock hl) hmove hbatch hcompletes htarget
  | insert hcall hnow hwrites hfreed hrow hi =>
    refine .insert hcall hnow hwrites ?_ hrow
      ⟨hlock hi.lock, fun k hk => hins (hi.keys k hk), hi.apart⟩
    cases hfreed with
    | nothing => exact .nothing
    | expired hold hl hexpire => exact .expired hold (hlock hl) hexpire
  | append hcall hwrites hl => exact .append hcall hwrites (hlock hl)
  | finish hcall hnow hwrites hold hl howner hcheck hhistory =>
    refine .finish hcall hnow hwrites hold (hlock hl) howner hcheck ?_
    rw [hkind]
    exact hhistory
  | thread hcall hwrites => exact .thread hcall hwrites

theorem handed_key {q : Pid} (entry : Pid × UniqueKey) :
    (if entry.1 = p then (q, entry.2) else entry).2 = entry.2 := by
  split <;> rfl

/-- A commit that goes on without its client, as `q`. -/
theorem StepOk.handedOver (hinv : Inv priv w) {σ : Session} {q : Pid}
    (hsession : w.session p = some σ) (hclient : σ.client = p) (hresolving : w.resolving p = none)
    (hstaged : Staged w p σ) (hq : w.kind q = .idle) : StepOk priv p w (w.handOver p q σ) := by
  have hstarted := hinv.started hsession
  have hidle := (hinv.proc q).idle hq
  have hpq : p ≠ q := by
    rintro rfl
    exact hstarted hq
  have hevo : Evolution w (w.handOver p q σ) :=
    { Evolution.refl w with
      kind := fun x hx => by
        refine Function.update_of_ne ?_ _ _
        rintro rfl
        exact hx hq
      resolving := fun c x h => by
        by_cases hcp : c = p
        · subst hcp
          rw [hsession]
          exact Or.inr rfl
        · refine Or.inl ?_
          rw [← h]
          exact (Function.update_of_ne (by rw [hclient]; exact hcp) _ _).symm
      tables := Or.inl ⟨rfl, [], rfl, fun _ h => absurd h List.not_mem_nil⟩ }
  -- the session, the locks and the keys of `p` become those of `q`
  have hothers : ∀ x, ¬ (x = p ∨ x = q) → Untouched x w (w.handOver p q σ) := by
    intro x hx
    obtain ⟨hxp, hxq⟩ := not_or.mp hx
    exact { Untouched.refl x w with
      session := (Function.update_of_ne hxq _ _).trans (Function.update_of_ne hxp _ _)
      holder := fun k h => by
        show (if w.holder k = some p then some q else w.holder k) = some x
        rw [if_neg (by rw [h]; exact fun h' => hxp (Option.some.inj h')), h]
      inserting := fun k h => List.mem_map.mpr ⟨_, h, if_neg hxp⟩
      kind := Function.update_of_ne hxq _ _
      resolving := fun h => by
        rw [← h]
        exact Function.update_of_ne (by rw [hclient]; exact hxp) _ _
      resolver := fun c h => by
        rw [← h]
        refine Function.update_of_ne ?_ _ _
        rw [hclient]
        rintro rfl
        rw [hresolving] at h
        exact absurd h (by simp) }
  have hc : Change (fun x => x = p ∨ x = q) w (w.handOver p q σ) :=
    ⟨hevo, hothers, fun _ _ _ _ => rfl⟩
  have hnone : (w.handOver p q σ).session p = none :=
    (Function.update_of_ne hpq _ _).trans (Function.update_self _ _ _)
  have hkindp : (w.handOver p q σ).kind p = w.kind p := Function.update_of_ne hpq _ _
  have hok := (hinv.proc p).session σ hsession
  refine ⟨hc.inv hinv ?_ rfl rfl ?_ ?_, fun x hx => hc.other ?_⟩
  · rintro x (rfl | rfl)
    · -- the client
      exact {
        session := fun σ' hs => by
          rw [hnone] at hs
          exact absurd hs (by simp)
        idle := fun h => absurd (hkindp.symm.trans h) hstarted
        cleanup := fun s hs => by
          have hnot := hinv.no_cleanup hsession
          rw [show w.cleanup x = some s from hs] at hnot
          exact absurd hnot (by simp)
        parent := fun r status h => (hinv.proc x).parent r status (hkindp.symm.trans h)
        runId := (hinv.proc x).runId }
    · -- the process that finishes
      have hkind : (w.handOver p x σ).kind x = .resolver σ.client := Function.update_self _ _ _
      refine {
        session := fun σ' hs => ?_
        idle := fun h => by
          rw [hkind] at h
          exact Kind.noConfusion h
        cleanup := fun s hs => by
          rw [show (w.handOver p x σ).cleanup x = w.cleanup x from rfl, hidle.cleanup] at hs
          exact absurd hs (by simp)
        parent := fun r status h => by
          rw [hkind] at h
          exact Kind.noConfusion h
        runId := (hinv.proc x).runId }
      have hσ : σ = σ' := by
        rw [show (w.handOver p x σ).session x = some σ from Function.update_self _ _ _] at hs
        exact Option.some.inj hs
      subst hσ
      refine ⟨?_, hok.begun, hok.now, Or.inr ⟨hkind, Function.update_self _ _ _, ?_⟩, fun hp => ?_⟩
      · rw [hevo.kind _ hok.started]
        exact hok.started
      · exact hstaged.handOver hq hok.started
      · exact (hok.callPriv hp).evolve hevo hok.started rfl
  · -- two who insert one key have inserted it before under one name
    intro x y k hx hy
    obtain ⟨⟨x₀, k₀⟩, hx₀, hxe⟩ := List.mem_map.mp hx
    obtain ⟨⟨y₀, k₁⟩, hy₀, hye⟩ := List.mem_map.mp hy
    have hk₀ : k₀ = k := (handed_key (x₀, k₀)).symm.trans (congrArg Prod.snd hxe)
    have hk₁ : k₁ = k := (handed_key (y₀, k₁)).symm.trans (congrArg Prod.snd hye)
    subst hk₀
    subst hk₁
    have hsame := hinv.inserting x₀ y₀ k₁ hx₀ hy₀
    subst hsame
    exact congrArg Prod.fst (hxe.symm.trans hye)
  · rintro rfl
    exact (hinv.rowsPriv rfl).frame hinv hevo rfl (fun _ _ h => h) (fun _ => rfl)
      fun _ _ h => h
  · rintro (rfl | rfl)
    · exact absurd rfl hx
    · exact hq

-- ---------------------------------------------------------------------------
-- Outside of transactions
-- ---------------------------------------------------------------------------

/-- A change of task state. -/
def World.withState (w : World) (mint : Uuid → Option Pid) (armed : Pid → Bool)
    (stream : Pid → Stream) (source : Pid → Option Reading) : World :=
  { w with mint := mint, armed := armed, stream := stream, source := source }

variable {mint : Uuid → Option Pid} {armed : Pid → Bool} {stream : Pid → Stream}
  {source : Pid → Option Reading}

theorem Evolution.withState (hmint : ∀ u q, w.mint u = some q → mint u = some q)
    (hended : ∀ q r, w.source q = some r → r.ended → ∃ r', source q = some r' ∧ r'.ended) :
    Evolution w (w.withState mint armed stream source) :=
  { Evolution.refl w with
    mint := hmint
    ended := by
      rintro q ⟨r, hr, hend⟩
      exact hended q r hr hend
    tables := Or.inl ⟨rfl, [], rfl, fun _ h => absurd h List.not_mem_nil⟩ }

/-- A change of task state of `p`. -/
theorem StepOk.own (mint : Uuid → Option Pid) (armed : Pid → Bool) (stream : Pid → Stream)
    (source : Pid → Option Reading) (hinv : Inv priv w) (hstarted : w.kind p ≠ .idle)
    (hmint : ∀ u q, w.mint u = some q → mint u = some q)
    (hminted : ∀ u q, q ≠ p → mint u = some q → w.mint u = some q)
    (harmed : ∀ q, q ≠ p → armed q = w.armed q) (hstream : ∀ q, q ≠ p → stream q = w.stream q)
    (hsource : ∀ q, q ≠ p → source q = w.source q)
    (hended : ∀ r, w.source p = some r → r.ended → ∃ r', source p = some r' ∧ r'.ended) :
    StepOk priv p w (w.withState mint armed stream source) := by
  have hevo : Evolution w (w.withState mint armed stream source) := by
    refine .withState hmint fun q r hr hend => ?_
    by_cases hq : q = p
    · subst hq
      exact hended r hr hend
    · exact ⟨r, (hsource q hq).trans hr, hend⟩
  have hc : Change (· = p) w (w.withState mint armed stream source) := by
    refine ⟨hevo, fun q hq => ?_, fun _ _ _ _ => rfl⟩
    exact { Untouched.refl q w with
      mint := fun u h => hminted u q hq h
      armed := harmed q hq
      pushed := congrArg Stream.pushed (hstream q hq)
      stream := fun _ => hstream q hq
      source := hsource q hq }
  refine .of_change (hc.inv hinv ?_ rfl rfl hinv.inserting ?_) hc
  · -- the session of `p` reads none of this
    rintro q rfl
    have hold := hinv.proc q
    refine ⟨fun σ hs => ?_, fun h => absurd h hstarted, hold.cleanup, hold.parent,
      fun u hu => hmint _ _ (hold.runId u hu)⟩
    have hok := hold.session σ hs
    refine ⟨hok.started, hok.begun, hok.now, ?_, fun hp => ?_⟩
    · rcases hok.client with hself | ⟨hkind, hresolving, hstaged⟩
      · exact Or.inl hself
      · refine Or.inr ⟨hkind, hresolving, ?_⟩
        cases hstaged with
        | nothing hwrites hbatch hcompletes => exact .nothing hwrites hbatch hcompletes
        | update hwrites hnow hold hl hmove hbatch hcompletes htarget =>
          exact .update hwrites hnow hold hl hmove hbatch hcompletes htarget
        | insert hcall hnow hwrites hfreed hrow hi =>
          refine .insert hcall hnow hwrites ?_ hrow ⟨hi.lock, hi.keys, hi.apart⟩
          cases hfreed with
          | nothing => exact .nothing
          | expired hold hl hexpire => exact .expired hold hl hexpire
        | append hcall hwrites hl => exact .append hcall hwrites hl
        | finish hcall hnow hwrites hold hl howner hcheck hhistory =>
          exact .finish hcall hnow hwrites hold hl howner hcheck hhistory
        | thread hcall hwrites => exact .thread hcall hwrites
    · exact (hok.callPriv hp).evolve hevo hok.started rfl
  · rintro rfl
    exact (hinv.rowsPriv rfl).frame hinv hevo rfl (fun _ _ h => h) (fun _ => rfl)
      fun _ _ h => h

/-- An invocation names its run, or forgets it. -/
theorem StepOk.namedRun {runId : Pid → Option Uuid} (hinv : Inv priv w)
    (hstarted : w.kind p ≠ .idle) (hsession : w.session p = none)
    (hresolving : w.resolving p = none) (hcleanup : w.cleanup p = none)
    (hrun : ∀ q, q ≠ p → runId q = w.runId q)
    (hmint : ∀ u, runId p = some u → w.mint u = some p)
    (hrows : priv = true → ∀ r ∈ w.db.runs, w.mint r.id = some p → runId p = some r.id) :
    StepOk priv p w { w with runId := runId } := by
  have hevo : Evolution w { w with runId := runId } :=
    { Evolution.refl w with
      runId := fun q hq => by
        refine hrun q ?_
        rintro rfl
        rw [hcleanup] at hq
        exact absurd hq (by simp)
      tables := Or.inl ⟨rfl, [], rfl, fun _ h => absurd h List.not_mem_nil⟩ }
  -- no transaction works for `p`
  have hclients : ∀ q σ, q ≠ p → w.session q = some σ → runId σ.client = w.runId σ.client := by
    intro q σ hq hs
    refine hrun _ ?_
    rcases ((hinv.proc q).session σ hs).client with hself | ⟨-, hresolver, -⟩
    · rw [hself]
      exact hq
    · intro hp
      rw [hp, hresolving] at hresolver
      exact absurd hresolver (by simp)
  have hc : Change (· = p) w { w with runId := runId } :=
    ⟨hevo, fun q hq => { Untouched.refl q w with runId := hrun q hq }, hclients⟩
  refine .of_change (hc.inv hinv ?_ rfl rfl hinv.inserting ?_) hc
  · rintro q rfl
    have hold := hinv.proc q
    refine ⟨fun σ hs => ?_, fun h => absurd h hstarted, hold.cleanup, hold.parent, hmint⟩
    rw [show w.session q = some σ from hs] at hsession
    exact absurd hsession (by simp)
  · rintro rfl
    have hold := hinv.rowsPriv rfl
    refine hold.evolve hinv hevo ?_ (fun r hr => Or.inl ⟨r, hr, rfl, rfl⟩) hold.blocked
      (fun _ _ h => Or.inl h) ?_
    · intro r hr
      obtain ⟨q, hq, hid⟩ := hold.minted r hr
      refine ⟨q, hq, ?_⟩
      by_cases hqp : q = p
      · subst hqp
        exact hrows rfl r hr hq
      · exact (hrun q hqp).trans hid
    · intro s o q status hs hkind
      have hq : q ≠ p := by
        rintro rfl
        have hparent := (hinv.proc s).parent q status hkind
        rw [hcleanup] at hparent
        exact absurd hparent (by simp)
      have hout := hold.outcomes s o q status hs hkind
      refine hout.evolve hinv hevo hkind (fun r hr _ => hr) fun _ r hr _ => ⟨r, hr, rfl⟩

/-- An event of `p` is recorded. -/
theorem StepOk.recorded (hinv : Inv priv w) (hstarted : w.kind p ≠ .idle)
    (hsession : w.session p = none) {e : Event} (hcommit : e.isCommit = false)
    (hby : ∀ q, q ≠ p → e.isBy q = false)
    (hentered : ∀ q runId agentId key, e = .enter q runId agentId key →
      w.mint runId = some q ∧ .some runId ∉ w.log.map Event.entered ∧
        ∃ r ∈ w.db.runs, r.id = runId ∧ r.agentId = agentId ∧ r.idempotencyKey = key)
    (hread : ∀ q, e.reader = some q → .some q ∉ w.log.map Event.reader) :
    StepOk priv p w (w.record e) := by
  have hevo : Evolution w (w.record e) :=
    { Evolution.refl w with
      tables := Or.inl ⟨rfl, [e], rfl, fun e' h => by rw [List.mem_singleton.mp h, hcommit]⟩ }
  have hc : Change (· = p) w (w.record e) := by
    refine ⟨hevo, fun q hq => ?_, fun _ _ _ _ => rfl⟩
    exact { Untouched.refl q w with
      log := fun e' he hq' => by
        rcases List.mem_cons.mp he with rfl | he
        · rw [hby q hq] at hq'
          exact absurd hq' (by simp)
        · exact he }
  refine .of_change (hc.invRecord hinv ?_ rfl rfl hcommit hentered hread hinv.inserting ?_) hc
  · rintro q rfl
    have hold := hinv.proc q
    refine ⟨fun σ hs => ?_, fun h => absurd h hstarted, hold.cleanup, hold.parent, hold.runId⟩
    rw [show w.session q = some σ from hs] at hsession
    exact absurd hsession (by simp)
  · rintro rfl
    refine (hinv.rowsPriv rfl).frame hinv hevo rfl (fun σ before h => ?_) (fun _ => rfl)
      fun _ _ h => h
    rcases List.mem_cons.mp h with rfl | h
    · exact absurd hcommit (by simp [Event.isCommit])
    · exact h

/-- The clean-up of `p` starts as `q`. -/
theorem StepOk.spawned {q : Pid} {status : RunStatus} (hinv : Inv priv w)
    (hstarted : w.kind p ≠ .idle) (hsession : w.session p = none) (hcleanup : w.cleanup p = none)
    (hq : w.kind q = .idle) :
    StepOk priv p w { w with
      kind := Function.update w.kind q (.cleanup p status)
      cleanup := Function.update w.cleanup p (some q) } := by
  have hidle := (hinv.proc q).idle hq
  have hpq : p ≠ q := by
    rintro rfl
    exact hstarted hq
  have hkind : ∀ x, w.kind x ≠ .idle →
      Function.update w.kind q (.cleanup p status) x = w.kind x := by
    intro x hx
    refine Function.update_of_ne ?_ _ _
    rintro rfl
    exact hx hq
  have hevo : Evolution w { w with
      kind := Function.update w.kind q (.cleanup p status)
      cleanup := Function.update w.cleanup p (some q) } :=
    { Evolution.refl w with
      kind := hkind
      cleanup := fun x s h => by
        rw [← h]
        refine Function.update_of_ne ?_ _ _
        rintro rfl
        rw [hcleanup] at h
        exact absurd h (by simp)
      tables := Or.inl ⟨rfl, [], rfl, fun _ h => absurd h List.not_mem_nil⟩ }
  have hc : Change (fun x => x = p ∨ x = q) w { w with
      kind := Function.update w.kind q (.cleanup p status)
      cleanup := Function.update w.cleanup p (some q) } := by
    refine ⟨hevo, fun x hx => ?_, fun _ _ _ _ => rfl⟩
    obtain ⟨hxp, hxq⟩ := not_or.mp hx
    exact { Untouched.refl x w with
      kind := Function.update_of_ne hxq _ _
      cleanup := Function.update_of_ne hxp _ _ }
  refine ⟨hc.inv hinv ?_ rfl rfl hinv.inserting ?_, fun x hx => hc.other ?_⟩
  · rintro x (rfl | rfl)
    · have hold := hinv.proc x
      refine ⟨fun σ hs => ?_, fun h => absurd ((hkind x hstarted).symm.trans h) hstarted,
        fun s hs => ?_, fun r st h => ?_, hold.runId⟩
      · rw [show w.session x = some σ from hs] at hsession
        exact absurd hsession (by simp)
      · have hsq : q = s :=
          Option.some.inj ((Function.update_self x (some q) w.cleanup).symm.trans hs)
        subst hsq
        exact ⟨hsession, status, Function.update_self _ _ _⟩
      · have hold' := hold.parent r st ((hkind x hstarted).symm.trans h)
        exact hevo.cleanup _ _ hold'
    · have hkx : Function.update w.kind x (.cleanup p status) x = .cleanup p status :=
        Function.update_self _ _ _
      refine ⟨fun σ hs => ?_, fun h => Kind.noConfusion (hkx.symm.trans h), fun s hs => ?_,
        fun r st h => ?_, fun u hu => ?_⟩
      · exact absurd (hidle.session.symm.trans hs) (by simp)
      · have hnone : Function.update w.cleanup p (some x) x = none :=
          (Function.update_of_ne (Ne.symm hpq) _ _).trans hidle.cleanup
        exact absurd (hnone.symm.trans hs) (by simp)
      · obtain ⟨rfl, -⟩ := Kind.cleanup.inj (hkx.symm.trans h)
        exact Function.update_self _ _ _
      · exact absurd (hidle.runId.symm.trans hu) (by simp)
  · rintro rfl
    exact (hinv.rowsPriv rfl).frame hinv hevo rfl (fun _ _ h => h) (fun _ => rfl)
      fun _ _ h => h
  · rintro (rfl | rfl)
    · exact absurd rfl hx
    · exact hq

/-- A clean-up ends. -/
theorem StepOk.finished {q : Pid} {status : RunStatus} {o : SettleOutcome} (hinv : Inv priv w)
    (hkind : w.kind p = .cleanup q status) (hsession : w.session p = none)
    (hsettled : w.settled p = none) (ho : priv = true → OutcomeOk w q o) :
    StepOk priv p w { w with settled := Function.update w.settled p (some o) } := by
  have hevo : Evolution w { w with settled := Function.update w.settled p (some o) } :=
    { Evolution.refl w with
      settled := fun s o' h => by
        rw [← h]
        refine Function.update_of_ne ?_ _ _
        rintro rfl
        rw [hsettled] at h
        exact absurd h (by simp)
      tables := Or.inl ⟨rfl, [], rfl, fun _ h => absurd h List.not_mem_nil⟩ }
  have hc : Change (· = p) w { w with settled := Function.update w.settled p (some o) } :=
    ⟨hevo, fun x hx => { Untouched.refl x w with settled := Function.update_of_ne hx _ _ },
      fun _ _ _ _ => rfl⟩
  refine .of_change (hc.inv hinv ?_ rfl rfl hinv.inserting ?_) hc
  · rintro x rfl
    have hold := hinv.proc x
    refine ⟨fun σ hs => ?_, fun h => ?_, hold.cleanup, hold.parent, hold.runId⟩
    · rw [show w.session x = some σ from hs] at hsession
      exact absurd hsession (by simp)
    · exact Kind.noConfusion (hkind.symm.trans h)
  · rintro rfl
    have hold := hinv.rowsPriv rfl
    refine hold.evolve hinv hevo hold.minted (fun r hr => Or.inl ⟨r, hr, rfl, rfl⟩) hold.blocked
      (fun _ _ h => Or.inl h) ?_
    intro s o' r st hs hk
    by_cases hsp : s = p
    · subst hsp
      obtain ⟨rfl, rfl⟩ := Kind.cleanup.inj (hkind.symm.trans hk)
      have ho' : o = o' :=
        Option.some.inj ((Function.update_self s (some o) w.settled).symm.trans hs)
      subst ho'
      exact ho rfl
    · exact hold.outcomes s o' r st ((Function.update_of_ne hsp _ _).symm.trans hs) hk

-- ---------------------------------------------------------------------------
-- The environment
-- ---------------------------------------------------------------------------

/-- A move of the environment. -/
theorem StepOk.environment {e : Env} {w' : World} {fs : Forks} (hinv : Inv priv w)
    (h : env w e = some (w', fs)) : Inv priv w' ∧ ∀ q, Other q w w' := by
  -- all but a start touch no process, no table and no record
  have hquiet : ∀ {w₁ : World} (hc : Change (fun _ => False) w w₁), w₁.db = w.db →
      w₁.log = w.log → w₁.inserting = w.inserting → w₁.runId = w.runId →
      w₁.settled = w.settled → Inv priv w₁ ∧ ∀ q, Other q w w₁ := by
    intro w₁ hc hdb hlog hins hrun hsettled
    refine ⟨hc.inv hinv (fun _ h => h.elim) hdb hlog (hins ▸ hinv.inserting) ?_,
      fun q => hc.other fun h => h.elim⟩
    rintro rfl
    exact (hinv.rowsPriv rfl).frame hinv hc.evolution hdb (fun _ _ h => hlog ▸ h)
      (fun _ => by rw [hrun]) fun _ _ h => hsettled ▸ h
  have hevo : ∀ {p : Pid} {s : Stream}, Evolution w (w.setStream p s) := fun {p s} =>
    { Evolution.refl w with
      tables := Or.inl ⟨rfl, [], rfl, fun _ h => absurd h List.not_mem_nil⟩ }
  -- a consumer changes its stream, but not what has been put there
  have hstream : ∀ {p : Pid} {s : Stream}, (w.kind p).isTask = true →
      s.pushed = (w.stream p).pushed → Change (fun _ => False) w (w.setStream p s) := by
    intro p s htask hpushed
    refine ⟨hevo, fun q _ => ?_, fun _ _ _ _ => rfl⟩
    by_cases hq : q = p
    · subst hq
      exact { Untouched.refl q w with
        pushed := by
          show (Function.update w.stream q s q).pushed = _
          rw [Function.update_self]
          exact hpushed
        stream := fun hidle => by
          rw [hidle] at htask
          exact absurd htask Bool.false_ne_true }
    · have hsame : (w.setStream p s).stream q = w.stream q := by
        show Function.update w.stream p s q = _
        rw [Function.update_of_ne hq]
      exact { Untouched.refl q w with
        pushed := by rw [hsame]
        stream := fun _ => hsame }
  cases e with
  | tick d =>
    obtain ⟨rfl, -⟩ := Prod.mk.inj (Option.some.inj h)
    refine hquiet ⟨?_, fun q _ => ?_, fun _ _ _ _ => rfl⟩ rfl rfl rfl rfl rfl
    · exact { Evolution.refl w with
        clock := Nat.le_add_right _ _
        tables := Or.inl ⟨rfl, [], rfl, fun _ h => absurd h List.not_mem_nil⟩ }
    · exact { Untouched.refl q w with }
  | start p t =>
    rw [env] at h
    split at h
    · next hidle =>
      obtain ⟨rfl, -⟩ := Prod.mk.inj (Option.some.inj h)
      have hp : w.kind p = .idle := by
        cases hk : w.kind p with
        | idle => rfl
        | _ => rw [hk] at hidle; exact absurd hidle Bool.false_ne_true
      have hok := (hinv.proc p).idle hp
      have hkind : ∀ x, w.kind x ≠ .idle → Function.update w.kind p (.task t) x = w.kind x := by
        intro x hx
        refine Function.update_of_ne ?_ _ _
        rintro rfl
        exact hx hp
      have hc : Change (· = p) w { w with kind := Function.update w.kind p (.task t) } := by
        refine ⟨?_, fun q hq => ?_, fun _ _ _ _ => rfl⟩
        · exact { Evolution.refl w with
            kind := hkind
            tables := Or.inl ⟨rfl, [], rfl, fun _ h => absurd h List.not_mem_nil⟩ }
        · exact { Untouched.refl q w with kind := Function.update_of_ne hq _ _ }
      refine ⟨hc.inv hinv ?_ rfl rfl hinv.inserting ?_, fun q => hc.other ?_⟩
      · -- a task that starts has nothing yet
        rintro q rfl
        have hkq : Function.update w.kind q (.task t) q = .task t := Function.update_self _ _ _
        refine ⟨fun σ hs => ?_, fun hk => ?_, fun s hs => ?_, fun r st hk => ?_, fun u hu => ?_⟩
        · exact absurd (hok.session.symm.trans hs) (by simp)
        · exact Kind.noConfusion (hkq.symm.trans hk)
        · exact absurd (hok.cleanup.symm.trans hs) (by simp)
        · exact Kind.noConfusion (hkq.symm.trans hk)
        · exact absurd (hok.runId.symm.trans hu) (by simp)
      · rintro rfl
        exact (hinv.rowsPriv rfl).frame hinv hc.evolution rfl (fun _ _ h => h) (fun _ => rfl)
          fun _ _ h => h
      · rintro rfl
        exact hp
    · exact absurd h (by simp)
  | take p =>
    simp only [env] at h
    split at h
    · next hcond _ =>
      obtain ⟨rfl, -⟩ := Prod.mk.inj (Option.some.inj h)
      rw [Bool.and_eq_true] at hcond
      exact hquiet (hstream hcond.1 rfl) rfl rfl rfl rfl rfl
    · exact absurd h (by simp)
  | close p =>
    rw [env] at h
    split at h
    · next htask =>
      obtain ⟨rfl, -⟩ := Prod.mk.inj (Option.some.inj h)
      exact hquiet (hstream htask rfl) rfl rfl rfl rfl rfl
    · exact absurd h (by simp)
  | shutdown worker =>
    obtain ⟨rfl, -⟩ := Prod.mk.inj (Option.some.inj h)
    refine hquiet ⟨?_, fun q _ => ?_, fun _ _ _ _ => rfl⟩ rfl rfl rfl rfl rfl
    · exact { Evolution.refl w with
        tables := Or.inl ⟨rfl, [], rfl, fun _ h => absurd h List.not_mem_nil⟩ }
    · exact { Untouched.refl q w with }

end StepOk

end AgentRuntimeKit
