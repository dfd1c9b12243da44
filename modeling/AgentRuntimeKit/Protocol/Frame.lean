import AgentRuntimeKit.Protocol.Programs
import AgentRuntimeKit.Protocol.Transactions

/-!
# What a move leaves alone

One operation changes the stream, the deadline and the source of its own process only, and
it changes the open transactions in few ways. These facts need no invariant.

## Results

* `exec_frame`    — streams, deadlines, sources, kinds and the clock.
* `exec_sessions` — where the transactions that are open after an operation come from.
* `exec_answers`, `exec_cancelled` — what an operation answers.
-/

namespace AgentRuntimeKit

open Lib

/-- What an operation does to streams, deadlines, sources, kinds and the clock. -/
structure Frame (p : Pid) (o : Op) (r : Except Exn (Res o)) (w w' : World) : Prop where
  stream : w'.stream = match o, r with
    | .put item, .ok _ =>
      Function.update w.stream p { w.stream p with pushed := (w.stream p).pushed ++ [item] }
    | _, _ => w.stream
  armed : w'.armed = match o, r with
    | .arm, .ok _ => Function.update w.armed p true
    | .disarm, .ok _ => Function.update w.armed p false
    | _, _ => w.armed
  source : ∀ q, w'.source q = match o, r with
    | .openSource _, .ok source => Function.update w.source p (some ⟨source, 0⟩) q
    | .awaitInvoker _, .ok output => Function.update w.source p (some (.ofOutput output)) q
    | .pull, .ok _ => Function.update w.source p
        ((w.source p).map fun rd => { rd with pulled := rd.pulled + 1 }) q
    | _, _ => w.source q
  clock : w'.clock = w.clock
  /-- No operation starts a task of a caller. -/
  kind : ∀ q, w'.kind q = w.kind q ∨ (w.kind q = .idle ∧ (w'.kind q).isTask = false)

section Frame

variable {p : Pid} {w w' : World} {o : Op} {c : Choice} {r : Except Exn (Res o)} {fs : Forks}

theorem Frame.refl_error (p : Pid) (o : Op) (e : Exn) (w : World) :
    Frame p o (.error e) w w where
  stream := by cases o <;> rfl
  armed := by cases o <;> rfl
  source _ := by cases o <;> rfl
  clock := rfl
  kind _ := Or.inl rfl

theorem execOk_frame (h : execOk p w o = some (r, w', fs)) : Frame p o r w w' := by
  cases o with
  | lockActiveRuns t =>
    simp only [execOk] at h
    split at h
    · obtain ⟨rfl, rfl, rfl⟩ : _ ∧ _ ∧ _ := by
        simpa only [answer, Option.some.injEq, Prod.mk.injEq] using h
      rw [lockAll_eq]
      exact ⟨rfl, rfl, fun _ => rfl, rfl, fun _ => Or.inl rfl⟩
    · exact absurd h (by simp)
  | insertRun row quiet =>
    simp only [execOk] at h
    cases hs : w.session p with
    | none =>
      rw [hs] at h
      exact absurd h (by simp)
    | some σ =>
      rw [hs] at h
      simp only [answer] at h
      split at h
      · obtain ⟨rfl, rfl, rfl⟩ : _ ∧ _ ∧ _ := by simpa using h
        exact ⟨rfl, rfl, fun _ => rfl, rfl, fun _ => Or.inl rfl⟩
      · split at h
        · exact absurd h (by simp)
        · split at h
          · obtain ⟨rfl, rfl, rfl⟩ : _ ∧ _ ∧ _ := by
              simpa only [Option.some.injEq, Prod.mk.injEq] using h
            exact ⟨rfl, rfl, fun _ => rfl, rfl, fun _ => Or.inl rfl⟩
          · obtain ⟨rfl, rfl, rfl⟩ : _ ∧ _ ∧ _ := by
              simpa only [Option.some.injEq, Prod.mk.injEq] using h
            exact ⟨rfl, rfl, fun _ => rfl, rfl, fun _ => Or.inl rfl⟩
  | pull =>
    simp only [execOk] at h
    cases hs : w.source p with
    | none =>
      rw [hs] at h
      exact absurd h (by simp)
    | some rd =>
      rw [hs] at h
      obtain ⟨rfl, rfl, rfl⟩ : _ ∧ _ ∧ _ := by
        simpa only [answer, Option.some.injEq, Prod.mk.injEq] using h
      refine ⟨rfl, rfl, fun q => ?_, rfl, fun _ => Or.inl rfl⟩
      simp only [World.setSource, hs, Option.map_some]
  | _ =>
    -- an operation that answers once, under a condition or two
    simp only [execOk, answer] at h
    repeat' split at h
    all_goals first
      | (obtain ⟨rfl, rfl, rfl⟩ : _ ∧ _ ∧ _ := by
          simpa only [Option.some.injEq, Prod.mk.injEq] using h
         exact ⟨rfl, rfl, fun _ => rfl, rfl, fun _ => Or.inl rfl⟩)
      | exact absurd h (by simp)

theorem kind_of_start {f : Pid → Kind} {q : Pid} {κ : Kind} (hq : (f q).isIdle = true)
    (hκ : κ.isTask = false) (q' : Pid) : Function.update f q κ q' = f q' ∨
      (f q' = .idle ∧ (Function.update f q κ q').isTask = false) := by
  by_cases hqq : q' = q
  · rw [hqq, Function.update_self]
    refine Or.inr ⟨?_, hκ⟩
    cases hk : f q with
    | idle => rfl
    | _ =>
      rw [hk] at hq
      exact Bool.noConfusion hq
  · exact Or.inl (Function.update_of_ne hqq _ _)

theorem exec_frame (h : exec p w o c = some (r, w', fs)) : Frame p o r w w' := by
  by_cases hplain : o.isPlain = true
  · rcases exec_plain hplain h with hok | ⟨e, rfl, rfl, -, -⟩
    · exact execOk_frame hok
    · exact .refl_error p o e w'
  · cases o with
    | commit =>
      cases c with
      | ok => exact execOk_frame (exec_ok p w .commit ▸ h)
      | fail e =>
        simp only [exec] at h
        split at h
        · obtain ⟨rfl, rfl, rfl⟩ : _ ∧ _ ∧ _ := by simpa [answer] using h
          exact ⟨rfl, rfl, fun _ => rfl, rfl, fun _ => Or.inl rfl⟩
        · exact absurd h (by simp)
      | lost e =>
        -- the commit goes through, and its acknowledgement is lost
        simp only [exec] at h
        split at h
        · split at h
          · obtain ⟨rfl, rfl, rfl⟩ : _ ∧ _ ∧ _ := by simpa [answer] using h
            exact ⟨rfl, rfl, fun _ => rfl, rfl, fun _ => Or.inl rfl⟩
          · exact absurd h (by simp)
        · exact absurd h (by simp)
      | late e q =>
        -- the commit is handed over to `q`, which starts with it
        simp only [exec] at h
        split at h
        · split at h
          · next hcond =>
            rw [Bool.and_eq_true] at hcond
            obtain ⟨rfl, rfl, rfl⟩ : _ ∧ _ ∧ _ := by simpa using h
            exact ⟨rfl, rfl, fun _ => rfl, rfl, kind_of_start hcond.2 rfl⟩
          · exact absurd h (by simp)
        · exact absurd h (by simp)
      | _ => exact absurd h (by simp [exec])
    | rollback =>
      obtain ⟨rfl, -, rfl | ⟨e, rfl, -⟩⟩ := exec_rollback h
      · exact ⟨rfl, rfl, fun _ => rfl, rfl, fun _ => Or.inl rfl⟩
      · exact ⟨rfl, rfl, fun _ => rfl, rfl, fun _ => Or.inl rfl⟩
    | spawnCleanup runId token code status timeout =>
      cases c with
      | pid q =>
        simp only [exec] at h
        split at h
        · next hidle =>
          obtain ⟨rfl, rfl, rfl⟩ : _ ∧ _ ∧ _ := by simpa using h
          exact ⟨rfl, rfl, fun _ => rfl, rfl, kind_of_start hidle rfl⟩
        · exact absurd h (by simp)
      | fail e =>
        exact absurd h
            (by cases e <;> simp [exec, Op.mayRaise, Op.suspends, Op.isStatement, Op.isForeign])
      | _ => exact absurd h (by simp [exec, execOk])
    | resolve =>
      cases c with
      | flag b =>
        simp only [exec] at h
        split at h
        · obtain ⟨rfl, rfl, rfl⟩ : _ ∧ _ ∧ _ := by simpa [answer] using h
          cases b <;> exact ⟨rfl, rfl, fun _ => rfl, rfl, fun _ => Or.inl rfl⟩
        · exact absurd h (by simp)
      | fail e =>
        exact absurd h
            (by cases e <;> simp [exec, Op.mayRaise, Op.suspends, Op.isStatement, Op.isForeign])
      | _ => exact absurd h (by simp [exec, execOk])
    | _ =>
      -- what third-party code and `uuid4` answer, or a failure
      cases c
      all_goals first
        | exact absurd rfl hplain
        | skip
      all_goals simp only [exec, execOk, answer] at h
      all_goals repeat' split at h
      all_goals first
        | (obtain ⟨rfl, rfl, rfl⟩ : _ ∧ _ ∧ _ := by
            simpa only [Option.some.injEq, Prod.mk.injEq] using h
           exact ⟨rfl, rfl, fun _ => rfl, rfl, fun _ => Or.inl rfl⟩)
        | exact absurd h (by simp)

-- ---------------------------------------------------------------------------
-- What an operation answers
-- ---------------------------------------------------------------------------

theorem execOk_cancelled {b : Bool} (h : execOk p w o = some (.error (.cancelled b), w', fs)) :
    False := by
  cases o
  all_goals simp only [execOk, answer, uniqueViolation] at h
  all_goals repeat' split at h
  all_goals simp at h

/-- The exception that a choice makes an operation answer. -/
def Choice.exception : Choice → Option Exn
  | fail e | lost e | late e _ => some e
  | _ => none

/-- A cancellation is answered only where it can be delivered, and by choice. -/
theorem exec_cancelled {b : Bool} (h : exec p w o c = some (.error (.cancelled b), w', fs)) :
    o.mayRaise w p (.cancelled b) = true ∧ c.exception = some (.cancelled b) := by
  by_cases hplain : o.isPlain = true
  · cases c with
    | ok => exact (execOk_cancelled (exec_ok p w o ▸ h)).elim
    | fail e =>
      rw [exec_fail hplain] at h
      split at h
      · next hmay =>
        obtain ⟨rfl, -⟩ : e = .cancelled b ∧ _ := by simpa [answer] using h
        exact ⟨hmay, rfl⟩
      · exact absurd h (by simp)
    | _ => cases o <;> first
      | exact absurd hplain Bool.false_ne_true
      | exact absurd h (by simp [exec])
  · cases o
    all_goals first
      | exact absurd rfl hplain
      | skip
    all_goals cases c
    all_goals simp only [exec, execOk, answer] at h
    all_goals repeat' split at h
    all_goals simp at h
    all_goals obtain ⟨rfl, -⟩ := h
    all_goals simp_all [Choice.exception]

theorem exec_answers (h : exec p w o c = some (r, w', fs)) : o.answers r := by
  cases o with
  | openSource messages =>
    cases r with
    | error e => trivial
    | ok source =>
      cases c with
      | source s =>
        simp only [exec] at h
        split at h
        · next hends =>
          obtain ⟨rfl, -⟩ : s = source ∧ _ := by simpa [answer] using h
          intro e he
          rw [he] at hends
          exact hends
        · exact absurd h (by simp)
      | fail e =>
        simp only [exec] at h
        split at h
        · exact absurd h (by simp [answer])
        · exact absurd h (by simp)
      | _ => exact absurd h (by simp [exec, execOk])
  | put item =>
    cases r with
    | ok => trivial
    | error e =>
      rcases exec_plain rfl h with hok | ⟨e', he', -, -, hmay⟩
      · simp only [execOk] at hok
        split at hok <;> exact absurd hok (by simp [answer])
      · rw [← Except.error.inj he'] at hmay
        cases e with
        | cancelled b => exact ⟨b, rfl⟩
        | _ => exact absurd hmay (by simp [Op.mayRaise, Op.isForeign, Op.isStatement])
  | disarm =>
    cases r with
    | ok => trivial
    | error e =>
      rcases exec_plain rfl h with hok | ⟨e', he', -, -, hmay⟩
      · exact absurd hok (by simp [execOk, answer])
      · exact absurd hmay (by
          cases e' <;> simp [Op.mayRaise, Op.isForeign, Op.isStatement, Op.suspends])
  | _ => trivial

-- ---------------------------------------------------------------------------
-- Open transactions
-- ---------------------------------------------------------------------------

/-- What an operation writes in a transaction that began at `begun`. -/
def Op.write? (begun : Time) : Op → Option Write
  | updateRun row => some (.updateRun row)
  | insertRun row _ => some (.insertRun { row with startedAt := begun })
  | insertMessages rows => some (.insertMessages rows)
  | insertThread row => some (.insertThread row)
  | _ => none

/-- Where a transaction that is open after an operation of `p` comes from. -/
inductive SessionFrom (p : Pid) (o : Op) (w : World) (q : Pid) (σ : Session) : Prop
  | kept (h : w.session q = some σ)
  | begun {call : Call} (hq : q = p) (h : σ = ⟨p, call, w.clock, none, []⟩)
  | reading {σ₀ : Session} (hq : q = p) (h₀ : w.session p = some σ₀)
      (h : σ = { σ₀ with now := some w.clock })
  | flushed {σ₀ : Session} {x : Write} (hq : q = p) (h₀ : w.session p = some σ₀)
      (h : σ = { σ₀ with writes := σ₀.writes ++ [x] }) (hx : o.write? σ₀.begun = some x)
  | handed (h₀ : w.session p = some σ) (hq : w.kind q = .idle)

theorem update_session {q : Pid} {σ : Session} {x : Option Session}
    (h : Function.update w.session p x q = some σ) :
    w.session q = some σ ∨ (q = p ∧ x = some σ) := by
  by_cases hq : q = p
  · rw [hq, Function.update_self] at h
    exact Or.inr ⟨hq, h⟩
  · rw [Function.update_of_ne hq] at h
    exact Or.inl h

theorem SessionFrom.of_update {q : Pid} {σ : Session} {x : Option Session}
    (h : Function.update w.session p x q = some σ)
    (hx : ∀ σ', x = some σ' → SessionFrom p o w p σ') : SessionFrom p o w q σ := by
  rcases update_session h with hkept | ⟨rfl, hsome⟩
  · exact .kept hkept
  · exact hx σ hsome

theorem SessionFrom.of_flush {q : Pid} {σ σ₀ : Session} {x : Write} {keys : List UniqueKey}
    (h₀ : w.session p = some σ₀) (hx : o.write? σ₀.begun = some x)
    (h : (w.flush p σ₀ x keys).session q = some σ) : SessionFrom p o w q σ :=
  .of_update h fun _ hsome => .flushed rfl h₀ (Option.some.inj hsome).symm hx

theorem SessionFrom.of_end {q : Pid} {σ : Session}
    (h : (w.endSession p).session q = some σ) : SessionFrom p o w q σ :=
  .of_update h fun _ hsome => absurd hsome (by simp)

theorem execOk_sessions (h : execOk p w o = some (r, w', fs)) {q : Pid} {σ : Session}
    (hq : w'.session q = some σ) : SessionFrom p o w q σ := by
  cases o with
  | lockActiveRuns t =>
    simp only [execOk] at h
    split at h
    · obtain ⟨rfl, rfl, rfl⟩ : _ ∧ _ ∧ _ := by
        simpa only [answer, Option.some.injEq, Prod.mk.injEq] using h
      rw [lockAll_eq] at hq
      exact .kept hq
    · exact absurd h (by simp)
  | begin call =>
    simp only [execOk, answer] at h
    split at h
    · obtain ⟨rfl, rfl, rfl⟩ : _ ∧ _ ∧ _ := by simpa only [Option.some.injEq, Prod.mk.injEq] using h
      exact .of_update hq fun _ hsome => .begun rfl (Option.some.inj hsome).symm
    · exact absurd h (by simp)
  | now =>
    simp only [execOk, answer] at h
    split at h
    · next σ₀ hσ₀ =>
      obtain ⟨rfl, rfl, rfl⟩ : _ ∧ _ ∧ _ := by simpa only [Option.some.injEq, Prod.mk.injEq] using h
      exact .of_update hq fun _ hsome => .reading rfl hσ₀ (Option.some.inj hsome).symm
    · exact absurd h (by simp)
  | insertRun row quiet =>
    simp only [execOk, answer] at h
    cases hs : w.session p with
    | none =>
      rw [hs] at h
      exact absurd h (by simp)
    | some σ₀ =>
      rw [hs] at h
      dsimp only at h
      split at h
      · obtain ⟨rfl, rfl, rfl⟩ : _ ∧ _ ∧ _ := by simpa using h
        exact .kept hq
      · split at h
        · exact absurd h (by simp)
        · split at h
          · obtain ⟨rfl, rfl, rfl⟩ : _ ∧ _ ∧ _ := by
              simpa only [Option.some.injEq, Prod.mk.injEq] using h
            exact .kept hq
          · obtain ⟨rfl, rfl, rfl⟩ : _ ∧ _ ∧ _ := by
              simpa only [Option.some.injEq, Prod.mk.injEq] using h
            exact .of_flush hs rfl hq
  | _ =>
    simp only [execOk, answer] at h
    repeat' split at h
    all_goals first
      | obtain ⟨rfl, rfl, rfl⟩ : _ ∧ _ ∧ _ := by
          simpa only [Option.some.injEq, Prod.mk.injEq] using h
      | exact absurd h (by simp)
    all_goals first
      | exact .kept hq
      | exact .of_flush (by assumption) rfl hq
      | exact .of_end hq

theorem exec_sessions (h : exec p w o c = some (r, w', fs)) {q : Pid} {σ : Session}
    (hq : w'.session q = some σ) : SessionFrom p o w q σ := by
  by_cases hplain : o.isPlain = true
  · rcases exec_plain hplain h with hok | ⟨e, rfl, rfl, -, -⟩
    · exact execOk_sessions hok hq
    · exact .kept hq
  · cases o with
    | commit =>
      cases hs : w.session p with
      | none =>
        cases c
        all_goals simp only [exec, execOk, hs, answer] at h
        all_goals repeat' split at h
        all_goals first
          | obtain ⟨rfl, rfl, rfl⟩ : _ ∧ _ ∧ _ := by
              simpa only [Option.some.injEq, Prod.mk.injEq] using h
          | exact absurd h (by simp)
        exact .of_end hq
      | some σ₀ =>
        rcases exec_commit hs h with
          ⟨-, rfl, -⟩ | ⟨e, -, -, ⟨rfl, -⟩ | ⟨rfl, -⟩ | ⟨q', hidle, rfl, -⟩⟩
        · exact .of_end hq
        · exact .of_end hq
        · exact .of_end hq
        · have hover : Function.update (Function.update w.session p none) q' (some σ₀) q = some σ :=
            hq
          by_cases hqq : q = q'
          · rw [hqq, Function.update_self] at hover
            rw [← Option.some.inj hover, hqq]
            exact .handed hs hidle
          · rw [Function.update_of_ne hqq] at hover
            exact .of_end hover
    | rollback =>
      obtain ⟨rfl, -, -⟩ := exec_rollback h
      exact .of_end hq
    | resolve =>
      cases c with
      | flag b =>
        simp only [exec] at h
        split at h
        · obtain ⟨rfl, rfl, rfl⟩ : _ ∧ _ ∧ _ := by simpa [answer] using h
          cases b
          · exact .of_end hq
          · exact .of_end hq
        · exact absurd h (by simp)
      | fail e =>
        exact absurd h
            (by cases e <;> simp [exec, Op.mayRaise, Op.suspends, Op.isStatement, Op.isForeign])
      | _ => exact absurd h (by simp [exec, execOk])
    | _ =>
      cases c
      all_goals first
        | exact absurd rfl hplain
        | skip
      all_goals simp only [exec, execOk, answer] at h
      all_goals repeat' split at h
      all_goals first
        | (obtain ⟨rfl, rfl, rfl⟩ : _ ∧ _ ∧ _ := by
            simpa only [Option.some.injEq, Prod.mk.injEq] using h
           exact .kept hq)
        | exact absurd h (by simp)

end Frame

end AgentRuntimeKit
