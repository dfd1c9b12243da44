import AgentRuntimeKit.Protocol.Claims
import AgentRuntimeKit.Results.Runs

/-!
# How a claim fails

`claim` declares that it returns its new run, or the run of its key, or raises
`ThreadNotFoundError`, `IdempotencyConflictError` or `ThreadBusyError`. A request that is sent again
under another key, or under none, meets the unique index of `request_id`, which `claim` does not
arbitrate: its `INSERT` has `ON CONFLICT` for the key only. Then it raises `IntegrityError`.

`claim_declared_iff` follows one claim from a reachable configuration, amid any steps of anybody
else. It assumes:

* `hlease`  — the lease is valid. A lease is a span of time here; one so long that its end is no
  `datetime` makes the addition raise `OverflowError` before any `INSERT`, and is not meant;
* `hfine`   — no statement of the claim fails for reasons of its own, such as a lost connection;
* `hunused` — when it inserts, no run has the identifier that its caller has drawn (`Unused`).

What other transactions do between the reads of the claim and its `INSERT` is left open, and that is
the point: a row that was not there when the claim looked may be there when it inserts. So the
condition is about that moment (`AtInsert`): no run has the request, or one has the key
(`Undisputed`), in which case the claim inserts nothing and reads that run.

The claim is run by `claim_triple`, and in step with it by `watch_claim`, which carries the
condition at the `INSERT` along to the end of the run.

## Results

* `ClaimPost.declared_iff` — from what the transaction has established at its end.
* `Reachable.watched_claim` — a claim that has just been called.
* `claim_declared_iff`     — it ends in one of its declared ways iff nothing but its key disputes
  its row.
-/

namespace AgentRuntimeKit

open Lib Prog

/-- How a claim may end: it has created its row, it answers with the row of its key, or it
raises one of three exceptions and has changed nothing. -/
inductive Declared (args : ClaimArgs) (lease : Time) (p : Pid) (w : World) :
    Except Exn Answer → Prop
  | created {row : RunRow} {now begun : Time}
      (hrow : row = { claimRow args lease now with startedAt := begun })
      (hknown : Known row w) : Declared args lease p w (.ok (.claim ⟨row, true⟩))
  | existing {row : RunRow} {key : String} (hkey : args.idempotencyKey = some key)
      (hanswers : Answers args row) (hknown : Known row w) :
      Declared args lease p w (.ok (.claim ⟨row, false⟩))
  | threadNotFound (h : Uncommitted p w) :
      Declared args lease p w (.error (threadNotFound args.threadId))
  | idempotencyConflict (h : Uncommitted p w) :
      Declared args lease p w (.error idempotencyConflict)
  | threadBusy (h : Uncommitted p w) : Declared args lease p w (.error threadBusy)

/-- `P` holds where `p` sends its `INSERT`. -/
def AtInsert (p : Pid) (P : World → Prop) : Cfg → Move Choice Env → Prop :=
  Performs p fun w o _ => o.insertsRun = true → P w

/-- No statement of `p` fails for reasons of its own, such as a lost connection. -/
def Unfailing (p : Pid) : Cfg → Move Choice Env → Prop := Performs p fun _ _ ch => ch = .ok

-- ---------------------------------------------------------------------------
-- Every run
-- ---------------------------------------------------------------------------

section Runs

variable {c₀ c : Cfg} {p : Pid} {args : ClaimArgs} {lease : Time} {mvs : List (Move Choice Env)}
  {r : Except Exn Answer}

/-- No claim declares that it violates a unique index. -/
theorem not_declared {w : World} : ¬Declared args lease p w (.error uniqueViolation) := by
  intro h
  generalize hr : (Except.error uniqueViolation : Except Exn Answer) = r at h
  cases h <;> exact absurd hr (by simp [uniqueViolation, threadNotFound,
    AgentRuntimeKit.idempotencyConflict, AgentRuntimeKit.threadBusy])

/-- What a claim answers, with what its transaction has established. -/
theorem ClaimPost.declared_iff {w : World} {φ : Prop} {r : Except Exn RunClaim}
    (h : ClaimPost p args lease φ r w)
    (hdone : ∀ a, r = .ok a → ClaimDone false p args a w) :
    Declared args lease p w (r.map .claim) ↔ φ := by
  obtain ⟨hend, hun⟩ := h
  cases r with
  | error e =>
    rcases hend with ⟨hφ, hdeclared⟩ | ⟨hφ, rfl⟩
    · refine iff_of_true ?_ hφ
      rcases hdeclared with rfl | rfl | rfl
      · exact .threadNotFound (hun _ rfl)
      · exact .idempotencyConflict (hun _ rfl)
      · exact .threadBusy (hun _ rfl)
    · exact iff_of_false not_declared hφ
  | ok a =>
    obtain ⟨hφ, hnew, hold⟩ := hend
    obtain ⟨hanswers, hknown, -, -⟩ := hdone a rfl
    refine iff_of_true ?_ hφ
    obtain ⟨row, created⟩ := a
    cases created with
    | true =>
      obtain ⟨now, begun, hrow⟩ := hnew rfl
      exact .created hrow hknown
    | false =>
      obtain ⟨key, hkey⟩ := hold rfl
      exact .existing hkey hanswers hknown

/-- A claim that has just been called, in a reachable configuration. -/
theorem Reachable.watched_claim (h : Reachable false c) {c' : Cfg}
    (hlease : args.lease = some lease)
    (hs : machine.step c (.env (.start p (.call (.claim args)))) = some c') :
    ∃ m, c'.procs p = some m ∧ (protocol false).Watched machine p (claimWatch args)
      (fun φ r w => Declared args lease p w r ↔ φ) True m c'.world := by
  have h' : Reachable false c' := h.step (legal_false c _) hs
  obtain ⟨e, fs, hmv, henv, hst⟩ : ∃ e fs,
      (Move.env (.start p (.call (.claim args))) : Move Choice Env) = .env e ∧
        machine.env c.world e = some (c'.world, fs) ∧ startAll c.procs fs = some c'.procs := by
    rcases Machine.step_cases hs with ⟨q, ch, o, k, r, fs, hmv, -⟩ | h
    · exact absurd hmv (by simp)
    · exact h
  injection hmv with he
  subst he
  simp only [machine, env] at henv
  split at henv
  · next hidle =>
    obtain ⟨hw, rfl⟩ : _ ∧ _ := by simpa using henv
    have hkind : c.world.kind p = .idle := by
      cases hk : c.world.kind p with
      | idle => rfl
      | _ =>
        rw [hk] at hidle
        exact absurd hidle Bool.false_ne_true
    have hfresh := (h.inv.proc p).idle hkind
    have hself : c'.world.kind p = .task (.call (.claim args)) := by
      rw [← hw]
      exact Function.update_self _ _ _
    have hκ : Kind.task (.call (.claim args)) ≠ .idle := fun h => Kind.noConfusion h
    have hat : At p (.task (.call (.claim args))) [] none c'.world := by
      rw [← hw] at hself ⊢
      exact ⟨hself, hfresh.session, fun σ h => absurd h (by simp), hfresh.resolving,
        hfresh.cleanup, hfresh.acked⟩
    have halone : Alone p c'.world := by
      rw [← hw]
      refine ⟨hfresh.resolving, ?_⟩
      rintro σ before hmem rfl
      exact h.inv.clients σ before hmem hkind
    have hprocs : c'.procs p = some (Call.claim args).program := by
      rw [startAll] at hst
      split at hst
      · rw [startAll, Option.some.injEq] at hst
        rw [← hst]
        exact Function.update_self _ _ _
      · exact absurd hst (by simp)
    refine ⟨_, hprocs, ?_⟩
    have hdone := @claim_triple false p (.task (.call (.claim args))) [] _ (TaskOf false) PostOf
      args lease hκ (kind_persists (.task (.call (.claim args)))) resolverTask
      (fun _ _ _ hp => absurd hp Bool.false_ne_true) hlease
      (fun _ _ _ _ hp => absurd hp Bool.false_ne_true) c'.world h'.inv ⟨hat, hself⟩
    refine ((watch_claim hκ hlease c'.world h'.inv ⟨hat, halone⟩).and
      (hdone.watched fun _ _ => trivial)).map fun φ r w hboth => ?_
    obtain ⟨hpost, hcall⟩ := hboth
    exact hpost.declared_iff fun a ha => by
      rw [ha] at hcall
      exact hcall.2
  · exact absurd henv (by simp)

/-- **A claim fails only in its declared ways iff nothing but its key disputes its row.** The lease
is one whose end is a `datetime`; no statement of the claim fails of itself; and its identifier is
new. Everything else may happen meanwhile, and `Undisputed` is read when the `INSERT` is sent. -/
theorem claim_declared_iff (h₀ : Reachable false c₀) (hlease : args.lease = some lease)
    (hrun : machine.run c₀ (.env (.start p (.call (.claim args))) :: mvs) = some c)
    (hend : c.procs p = some (.done r))
    (hfine : machine.Along (Unfailing p) c₀ (.env (.start p (.call (.claim args))) :: mvs))
    (hunused : machine.Along (AtInsert p (Unused args)) c₀
      (.env (.start p (.call (.claim args))) :: mvs)) :
    Declared args lease p c.world r ↔
      machine.Along (AtInsert p (Undisputed args)) c₀
        (.env (.start p (.call (.claim args))) :: mvs) := by
  rw [Machine.run] at hrun
  cases hs : machine.step c₀ (.env (.start p (.call (.claim args)))) with
  | none => simp [hs] at hrun
  | some c₁ =>
    rw [hs] at hrun
    obtain ⟨m, hm, hwatched⟩ := h₀.watched_claim hlease hs
    have hmay : machine.Along (Performs p (claimWatch args).may) c₁ mvs :=
      ((Machine.along_cons hs).mp hfine).2.both ((Machine.along_cons hs).mp hunused).2
        fun c mv hok hun ch o k hmv hp => ⟨hok ch o k hmv hp, hun ch o k hmv hp⟩
    obtain ⟨m', hm', hwatched'⟩ := hwatched.run (R := Reachable false) (fun _ h => h.inv)
      (fun c mv c' h hs => ⟨h.step (legal_false c mv) hs, h.next (legal_false c mv) hs⟩)
      (h₀.step (legal_false c₀ _) hs) hm hmay hrun
    rw [hend, Option.some.injEq] at hm'
    subst hm'
    have hiff : Declared args lease p c.world r ↔
        True ∧ machine.Along (AtInsert p (Undisputed args)) c₁ mvs := hwatched' c.world .refl
    rw [hiff, Machine.along_cons hs, true_and]
    exact (and_iff_right fun ch o k h => absurd h (by simp)).symm

end Runs

-- ---------------------------------------------------------------------------
-- A request that is sent again
-- ---------------------------------------------------------------------------

instance (args : ClaimArgs) (w : World) : Decidable (Unused args w) :=
  inferInstanceAs (Decidable (∀ r ∈ w.db.runs, r.id ≠ args.runId))

instance (args : ClaimArgs) (w : World) : Decidable (Undisputed args w) :=
  decidable_of_iff ((∀ r ∈ w.db.runs, r.requestId ≠ args.requestId) ∨
      args.idempotencyKey.isSome = true ∧ ∃ r ∈ w.db.runs,
        r.agentId = args.agent.agentId ∧ r.idempotencyKey = args.idempotencyKey) (by
    refine or_congr_right ⟨?_, ?_⟩
    · rintro ⟨hsome, h⟩
      obtain ⟨key, hkey⟩ := Option.isSome_iff_exists.mp hsome
      exact ⟨key, hkey, hkey ▸ h⟩
    · rintro ⟨key, hkey, h⟩
      rw [hkey]
      exact ⟨rfl, h⟩)

instance (p : Pid) (P : World → Prop) [DecidablePred P] (c : Cfg) (mv : Move Choice Env) :
    Decidable (AtInsert p P c mv) :=
  inferInstanceAs (Decidable (Performs p (fun w o _ => o.insertsRun = true → P w) c mv))

theorem unfailing_ok (p : Pid) (n : Nat) (c : Cfg) :
    machine.Along (Unfailing p) c (Sample.ok p n) := by
  refine Machine.along_of_forall fun mv hmv c ch o k hmove _ => ?_
  rw [List.eq_of_mem_replicate hmv] at hmove
  injection hmove with _ hch
  exact hch.symm

namespace Sample

/-- The claim of request 20 on thread 100, under a key of the caller's choice. -/
def claimArgs (runId : Uuid) (key : Option String) : ClaimArgs :=
  ⟨runId, 20, agent, 100, key, "hash", runId, some 10⟩

/-- A thread is created. -/
def opening : List (Move Choice Env) :=
  .env (.start 1 (.call (.createThread "default" none))) :: .run 1 (.uuid 100) :: ok 1 4

def opened : Cfg := (machine.run (Cfg.initial 0) opening).get (by decide)

/-- Request 20 is claimed, and its lease ends. -/
def claiming : List (Move Choice Env) :=
  .env (.start 2 (.call (.claim (claimArgs 200 (some "a"))))) :: ok 2 7

def claimed : Cfg := (machine.run opened claiming).get (by decide)

def lapsed : Cfg := (machine.run claimed [.env (.tick 10)]).get (by decide)

/-- It is claimed again under another key. -/
def resending : List (Move Choice Env) :=
  .env (.start 3 (.call (.claim (claimArgs 201 (some "b"))))) :: ok 3 8

def resent : Cfg := (machine.run lapsed resending).get (by decide)

/-- What a process has ended in. -/
def outcome (c : Cfg) (p : Pid) : Option (Except Exn Answer) :=
  match c.procs p with
  | some (.done r) => some r
  | _ => none

theorem procs_of_outcome {c : Cfg} {p : Pid} {r : Except Exn Answer} (h : outcome c p = some r) :
    c.procs p = some (.done r) := by
  unfold outcome at h
  split at h
  · next r' hp =>
    rw [hp, Option.some.inj h]
  · exact absurd h (by simp)

/-- Callers may start anything. -/
theorem reaches_of_run {c c' : Cfg} {mvs : List (Move Choice Env)}
    (h : machine.run c mvs = some c') : machine.Reaches (Legal false) c c' :=
  .of_run (fun c mv _ => legal_false c mv) h

theorem reachable_opened : Reachable false opened :=
  ⟨0, reaches_of_run (Option.some_get _).symm⟩

theorem reachable_lapsed : Reachable false lapsed :=
  (reachable_opened.reaches (reaches_of_run (Option.some_get _).symm)).reaches
    (reaches_of_run (Option.some_get _).symm)

end Sample

theorem Sample.unfailing (p : Pid) (t : Task) (n : Nat) (c : Cfg) :
    machine.Along (Unfailing p) c (.env (.start p t) :: Sample.ok p n) :=
  ⟨fun _ _ _ h => absurd h (by simp), fun c' _ => unfailing_ok p n c'⟩

/-- The first claim of the request creates its row. -/
theorem Sample.claim_declared_first : ∃ r, Sample.claimed.procs 2 = some (.done r) ∧
    Declared (Sample.claimArgs 200 (some "a")) 10 2 Sample.claimed.world r := by
  obtain ⟨r, hr⟩ := Option.isSome_iff_exists.mp
    (show (Sample.outcome Sample.claimed 2).isSome = true by decide)
  have hend := Sample.procs_of_outcome hr
  refine ⟨r, hend, ?_⟩
  have hrun : machine.run Sample.opened Sample.claiming = some Sample.claimed :=
    (Option.some_get _).symm
  exact (claim_declared_iff Sample.reachable_opened rfl hrun hend (Sample.unfailing 2 _ 7 _)
    (by decide)).mpr (by decide)

/-- The request that is sent again under another key meets the unique index of requests. -/
theorem Sample.resent_request_refused : ¬∀ (c₀ c : Cfg) (p : Pid) (args : ClaimArgs)
    (lease : Time) (mvs : List (Move Choice Env)) (r : Except Exn Answer), Reachable false c₀ →
    args.lease = some lease →
    machine.run c₀ (.env (.start p (.call (.claim args))) :: mvs) = some c →
    c.procs p = some (.done r) →
    machine.Along (Unfailing p) c₀ (.env (.start p (.call (.claim args))) :: mvs) →
    machine.Along (AtInsert p (Unused args)) c₀ (.env (.start p (.call (.claim args))) :: mvs) →
    Declared args lease p c.world r := by
  intro h
  have hdeclared := h Sample.lapsed Sample.resent 3 (Sample.claimArgs 201 (some "b")) 10
    (Sample.ok 3 8) (.error uniqueViolation) Sample.reachable_lapsed rfl
    (Option.some_get _).symm (Sample.procs_of_outcome rfl) (Sample.unfailing 3 _ 8 _) (by decide)
  exact not_declared hdeclared

end AgentRuntimeKit
