import AgentRuntimeKit.Lib.Typestate
import AgentRuntimeKit.Protocol.Policies
import AgentRuntimeKit.Runtime.EventLoop

/-!
# Where tasks stand

A task of the host is outside of the runtime or inside an invocation, however deeply it nests its
invocations; a clean-up is settling a failure until it is done. Only inside, or settling, does
anybody perform an operation of a turn, and only inside is a clean-up started. The two task sets of
the runtime hold whoever is inside and whoever is settling.

## Results

* `HostCode.producer`    — a stream is code of the host that invokes the runtime.
* `HostCode.follows`     — the code of the host keeps to its place.
* `settleTask_follows`   — so does a clean-up.
-/

namespace AgentRuntimeKit

open Lib Prog Typestate

-- ---------------------------------------------------------------------------
-- The typestate
-- ---------------------------------------------------------------------------

inductive Standing
  | unborn
  | outside
  | inside
  | settling
  | over
deriving DecidableEq

/-- Where a task stands, and what it has seen of a shutdown. -/
structure Place where
  standing : Standing
  door : Door

/-- What a task may do where it stands. -/
def Place.allows (s : Place) : LoopOp → Prop
  | .register | .host | .close | .time | .wait _ _ | .unrolled | .enterLifespan | .leaveLifespan =>
    s.standing = .outside ∨ s.standing = .inside
  | .pending => (s.standing = .outside ∨ s.standing = .inside) ∧ s.door ≠ .untouched
  | .dispose => (s.standing = .outside ∨ s.standing = .inside) ∧ s.door = .drained
  | .unregister | .spawn _ _ _ _ => s.standing = .inside
  | .inner _ => s.standing = .inside ∨ s.standing = .settling
  | .finish => s.standing = .outside ∨ s.standing = .settling

/-- What an operation may answer there. -/
def Place.answers (s : Place) : (o : LoopOp) → Except Exn (LoopRes o) → Prop
  | .register, .ok owns => owns = decide (s.standing = .outside)
  | .unregister, .error _ | .finish, .error _ => False
  | _, _ => True

/-- Where the answer leaves the task. -/
def Place.after (s : Place) : (o : LoopOp) → Except Exn (LoopRes o) → Place
  | .register, .ok _ => { s with standing := .inside }
  | .unregister, .ok _ => { s with standing := .outside }
  | .finish, .ok _ => { s with standing := .over }
  | .close, .ok _ => { s with door := if s.door = .drained then .drained else .closed }
  | .pending, .ok pending => { s with door := if pending = ∅ then .drained else s.door }
  | _, _ => s

def lifetime : Typestate Place LoopOp LoopRes Exn := ⟨Place.allows, Place.answers, Place.after⟩

/-- A task of the host is at `s`. -/
def Place.Hosts (s : Place) : Prop := s.standing = .outside ∨ s.standing = .inside

/-- The task stands where it stood, and has seen at least as much of a shutdown. -/
structure Place.Later (s s' : Place) : Prop where
  standing : s'.standing = s.standing
  closed : s.door ≠ .untouched → s'.door ≠ .untouched
  drained : s.door = .drained → s'.door = .drained

section Programs

variable {α β : Type} {s s' s'' : Place}

theorem Place.Later.refl (s : Place) : s.Later s := ⟨rfl, id, id⟩

theorem Place.Later.trans (h : s.Later s') (h' : s'.Later s'') : s.Later s'' :=
  ⟨h'.standing.trans h.standing, h'.closed ∘ h.closed, h'.drained ∘ h.drained⟩

theorem Place.Hosts.later (hs : s.Hosts) (h : s.Later s') : s'.Hosts := by
  unfold Place.Hosts
  rw [h.standing]
  exact hs

/-- The program keeps to its place. -/
abbrev Keeps (s : Place) (m : L α) : Prop := lifetime.Follows (fun _ s' => s.Later s') s m

theorem Keeps.done (r : Except Exn α) : Keeps s (.done r) := Place.Later.refl s

theorem Keeps.handle {m : L α} {f : Except Exn α → L β} (h : Keeps s m)
    (hf : ∀ r s', s.Later s' → Keeps s' (f r)) : Keeps s (m.handle f) := by
  refine Follows.handle h fun r s' hlater => ?_
  exact (hf r s' hlater).mono fun _ _ h => hlater.trans h

/-- An operation that moves nobody. -/
theorem Keeps.op {o : LoopOp} {k : Except Exn (LoopRes o) → L α} (ho : s.allows o)
    (hstay : ∀ r, s.after o r = s) (hk : ∀ r, Keeps s (k r)) : Keeps s (.op o k) := by
  refine ⟨ho, fun r _ => ?_⟩
  show lifetime.Follows _ (s.after o r) (k r)
  rw [hstay r]
  exact hk r

-- ---------------------------------------------------------------------------
-- Invocations and clean-ups
-- ---------------------------------------------------------------------------

/-- An operation of a turn or of a clean-up. -/
theorem issue_keeps {o : Op} {k : Except Exn (Res o) → L α} (hs : s.standing = .inside)
    (hk : ∀ r, Keeps s (k r)) : Keeps s (issue o k) := by
  cases o with
  | spawnCleanup runId token code status timeout =>
    exact Keeps.op hs (fun r => by cases r <;> rfl) hk
  | _ => exact Keeps.op (Or.inl hs) (fun r => by cases r <;> rfl) hk

/-- A turn, whose hooks and invokers keep to their place inside. -/
theorem onLoop_keeps {host : Op → L Unit}
    (hhost : ∀ o (s : Place), s.standing = .inside → Keeps s (host o)) {m : P α} :
    ∀ {s : Place}, s.standing = .inside → Keeps s (onLoop host m) := by
  induction m with
  | done r => exact fun _ => Keeps.done r
  | op o k ih =>
    intro s hs
    unfold onLoop
    split
    · refine (hhost o s hs).handle fun _ s' hlater => ?_
      have hinside : s'.standing = .inside := hlater.standing.trans hs
      exact issue_keeps hinside fun r => ih r hinside
    · exact issue_keeps hs fun r => ih r hs

/-- An invocation ends where it began, nested or not. -/
theorem invokeOn_keeps {host : Op → L Unit}
    (hhost : ∀ o (s : Place), s.standing = .inside → Keeps s (host o)) (rt : Runtime)
    (agentId : String) (request : RuntimeRequest) (key : Option String) (emit : Bool)
    (hs : s.Hosts) : Keeps s (invokeOn host rt agentId request key emit) := by
  refine ⟨hs, fun r hr => ?_⟩
  cases r with
  | error e => exact Place.Later.refl s
  | ok owns =>
    have howns : owns = decide (s.standing = .outside) := hr
    obtain ⟨s₁, hs₁⟩ : ∃ s₁ : Place, s₁ = { s with standing := .inside } := ⟨_, rfl⟩
    show lifetime.Follows (fun _ s' => s.Later s') { s with standing := .inside }
      ((onLoop host (invokeWithDeadline rt agentId request key emit)).finallyDo
        (if owns then act .unregister else pure ()))
    rw [← hs₁]
    have hinside : s₁.standing = .inside := by rw [hs₁]
    have hdoor : s₁.door = s.door := by rw [hs₁]
    refine Follows.handle (onLoop_keeps hhost hinside) fun r' s₂ hlater => ?_
    have hback : ∀ s₃ : Place, s₃.standing = s.standing → s₃.door = s₂.door → s.Later s₃ := by
      intro s₃ hstanding hsame
      refine ⟨hstanding, fun h => ?_, fun h => ?_⟩
      · rw [hsame]
        exact hlater.closed (hdoor ▸ h)
      · rw [hsame]
        exact hlater.drained (hdoor ▸ h)
    have hhere : s₂.standing = .inside := hlater.standing.trans hinside
    rcases hs with hout | hin
    · rw [howns, hout]
      refine ⟨hhere, fun r'' hr'' => ?_⟩
      cases r'' with
      | ok u => exact hback _ hout.symm rfl
      | error e => exact hr''.elim
    · rw [howns, hin]
      exact hback _ (hhere.trans hin.symm) rfl

-- ---------------------------------------------------------------------------
-- Shutdown
-- ---------------------------------------------------------------------------

theorem drain_follows (deadline : Time) (turns : Nat) : ∀ {s : Place}, s.Hosts →
    s.door ≠ .untouched →
      lifetime.Follows (fun r s' => s.Later s' ∧ (r = .ok true → s'.door = .drained)) s
        (drain deadline turns) := by
  induction turns with
  | zero =>
    intro s hs _
    refine ⟨hs, fun r _ => ?_⟩
    cases r with
    | ok u => exact ⟨Place.Later.refl s, fun h => absurd h (by simp)⟩
    | error e => exact ⟨Place.Later.refl s, fun h => absurd h (by simp)⟩
  | succ turns ih =>
    intro s hs hdoor
    refine ⟨⟨hs, hdoor⟩, fun r _ => ?_⟩
    cases r with
    | error e => exact ⟨Place.Later.refl s, fun h => absurd h (by simp)⟩
    | ok pending =>
      show lifetime.Follows _ { s with door := if pending = ∅ then .drained else s.door }
        (if pending = ∅ then pure true else _)
      by_cases hpending : pending = ∅
      · rw [if_pos hpending, if_pos hpending]
        exact ⟨⟨rfl, fun _ => fun h => Door.noConfusion h, fun _ => rfl⟩, fun _ => rfl⟩
      · rw [if_neg hpending, if_neg hpending]
        refine ⟨hs, fun r _ => ?_⟩
        cases r with
        | error e => exact ⟨Place.Later.refl s, fun h => absurd h (by simp)⟩
        | ok now =>
          show lifetime.Follows _ s (if deadline ≤ now then pure false else _)
          split
          · exact ⟨Place.Later.refl s, fun h => absurd h (by simp)⟩
          · refine ⟨hs, fun r _ => ?_⟩
            cases r with
            | error e => exact ⟨Place.Later.refl s, fun h => absurd h (by simp)⟩
            | ok u => exact ih hs hdoor

/-- A shutdown that returns `True` has found nothing pending. -/
theorem shutdown_follows (turns : Nat) (timeout : Option Time) (hs : s.Hosts) :
    lifetime.Follows (fun r s' => s.Later s' ∧ (r = .ok true → s'.door = .drained)) s
      (shutdown turns timeout) := by
  cases timeout with
  | none => exact ⟨Place.Later.refl s, fun h => absurd h (by simp)⟩
  | some timeout =>
    refine ⟨hs, fun r _ => ?_⟩
    cases r with
    | error e => exact ⟨Place.Later.refl s, fun h => absurd h (by simp)⟩
    | ok u =>
      obtain ⟨s₁, hs₁⟩ : ∃ s₁ : Place,
        s₁ = { s with door := if s.door = .drained then .drained else .closed } := ⟨_, rfl⟩
      show lifetime.Follows _ { s with door := if s.door = .drained then .drained else .closed } _
      rw [← hs₁]
      have hdoor : s₁.door ≠ .untouched := by
        rw [hs₁]
        dsimp only
        split
        · exact fun h => Door.noConfusion h
        · exact fun h => Door.noConfusion h
      have hlater : s.Later s₁ := by
        refine ⟨by rw [hs₁], fun _ => hdoor, fun h => ?_⟩
        rw [hs₁]
        exact if_pos h
      have hhosts : s₁.Hosts := hs.later hlater
      refine ⟨hhosts, fun r _ => ?_⟩
      cases r with
      | error e => exact ⟨hlater, fun h => absurd h (by simp)⟩
      | ok now =>
        exact Follows.mono (drain_follows _ turns hhosts hdoor)
          fun r s' h => ⟨hlater.trans h.1, h.2⟩

/-- A lifespan that ends normally has been shut down. -/
theorem lifespan_follows (turns : Nat) (timeout : Option Time) {body : L Unit} (hs : s.Hosts)
    (hbody : Keeps s body) :
    lifetime.Follows (fun r s' => s.Later s' ∧ (r = .ok () → s'.door = .drained)) s
      (lifespan turns timeout body) := by
  cases timeout with
  | none => exact ⟨Place.Later.refl s, fun h => absurd h (by simp)⟩
  | some timeout =>
    refine ⟨hs, fun r _ => ?_⟩
    cases r with
    | error e => exact ⟨Place.Later.refl s, fun h => absurd h (by simp)⟩
    | ok u =>
      show lifetime.Follows (fun r s' => s.Later s' ∧ (r = .ok () → s'.door = .drained)) s
        (body.finallyDo (endLifespan turns (some timeout)))
      refine Follows.handle hbody fun r s₁ hlater => ?_
      have hhosts := hs.later hlater
      -- the block ends normally only where the shutdown returns `True`
      have hend : lifetime.Follows
          (fun r s' => s₁.Later s' ∧ (r = .ok () → s'.door = .drained)) s₁
          (endLifespan turns (some timeout)) := by
        refine Follows.handle (Q := fun r s' => s₁.Later s' ∧ (r = .ok () → s'.door = .drained))
          ?_ fun r s₂ h₂ => ⟨hhosts.later h₂.1, fun r' _ => ?_⟩
        · refine Follows.handle (shutdown_follows turns (some timeout) hhosts) fun r s₂ h₂ => ?_
          cases r with
          | error e => exact ⟨h₂.1, fun h => absurd h (by simp)⟩
          | ok done =>
            cases done with
            | true => exact ⟨h₂.1, fun _ => h₂.2 rfl⟩
            | false => exact ⟨h₂.1, fun h => absurd h (by simp)⟩
        · cases r' with
          | ok u => exact h₂
          | error e => exact ⟨h₂.1, fun h => absurd h (by simp)⟩
      refine Follows.handle hend fun r' s₂ h₂ => ?_
      cases r' with
      | ok u => exact ⟨hlater.trans h₂.1, fun _ => h₂.2 rfl⟩
      | error e => exact ⟨hlater.trans h₂.1, fun h => absurd h (by simp)⟩

-- ---------------------------------------------------------------------------
-- Tasks
-- ---------------------------------------------------------------------------

/-- The code of a host keeps to its place, and disposes of nothing before it has been told so. -/
theorem HostCode.follows {released : Bool} {m : L α} (h : HostCode released m) :
    ∀ {s : Place}, s.Hosts → (released = true → s.door = .drained) → Keeps s m := by
  induction h with
  | done r => exact fun _ _ => Keeps.done r
  | await _ ih =>
    intro s hs hreleased
    exact Keeps.op hs (fun r => by cases r <;> rfl) fun r => ih r hs hreleased
  | invoke _ _ ihost ih =>
    intro s hs hreleased
    refine (invokeOn_keeps (fun o s' h => ihost o (Or.inr h) fun h => ?_) _ _ _ _ _ hs).handle ?_
    · exact absurd h Bool.false_ne_true
    · exact fun r s' hlater => ih r (hs.later hlater) fun h => hlater.drained (hreleased h)
  | @shutdown α released turns timeout f _ _ ihdone ih =>
    intro s hs hreleased
    refine Follows.handle (shutdown_follows turns timeout hs) fun r s' hr => ?_
    have hhosts := hs.later hr.1
    suffices hkeeps : Keeps s' (f r) from hkeeps.mono fun _ _ h => hr.1.trans h
    by_cases hdone : r = .ok true
    · have hdrained := hr.2 hdone
      rw [hdone]
      exact ihdone hhosts fun _ => hdrained
    · exact ih r hdone hhosts fun h => hr.1.drained (hreleased h)
  | @lifespan α released turns timeout body f _ _ _ ihbody ihdone ih =>
    intro s hs hreleased
    refine Follows.handle
      (lifespan_follows turns timeout hs (ihbody hs hreleased)) fun r s' hr => ?_
    have hhosts := hs.later hr.1
    suffices hkeeps : Keeps s' (f r) from hkeeps.mono fun _ _ h => hr.1.trans h
    cases r with
    | ok u => exact ihdone hhosts fun _ => hr.2 rfl
    | error e => exact ih e hhosts fun h => hr.1.drained (hreleased h)
  | dispose _ ih =>
    intro s hs hreleased
    refine Keeps.op ⟨hs, hreleased rfl⟩ (fun r => by cases r <;> rfl) fun r => ih r hs hreleased

theorem HostCode.handle {released : Bool} {m : L α} {f : Except Exn α → L β}
    (h : HostCode released m) (hf : ∀ b r, HostCode b (f r)) : HostCode released (m.handle f) := by
  induction h with
  | done r => exact hf _ r
  | await _ ih => exact .await fun r => ih r hf
  | invoke hhost _ _ ih =>
    rw [handle_handle]
    exact .invoke hhost fun r => ih r hf
  | shutdown _ _ ihdone ih =>
    rw [handle_handle]
    exact .shutdown (ihdone hf) fun r hr => ih r hr hf
  | lifespan hbody _ _ _ ihdone ih =>
    rw [handle_handle]
    exact .lifespan hbody (ihdone hf) fun e => ih e hf
  | dispose _ ih => exact .dispose fun r => ih r hf

theorem HostCode.bind {released : Bool} {m : L α} {f : α → L β} (h : HostCode released m)
    (hf : ∀ b a, HostCode b (f a)) : HostCode released (m >>= f) := by
  refine HostCode.handle h fun b r => ?_
  cases r with
  | ok a => exact hf b a
  | error e => exact .done _

/-- A stream is an invocation whose events go to a queue of the host. -/
theorem HostCode.producer {released : Bool} {host : Op → L Unit}
    (hhost : ∀ o, HostCode false (host o)) (rt : Runtime) (agentId : String)
    (request : RuntimeRequest) (key : Option String) :
    HostCode released (AgentRuntimeKit.producer host rt agentId request key) := by
  have hput : ∀ b, HostCode b (act .host) := fun b => .await fun r => .done r
  have hinvoke : ∀ b, HostCode b (invokeOn host rt agentId request key true) := by
    intro b
    have h : HostCode b (invokeOn host rt agentId request key true >>= fun a => pure a) :=
      .invoke hhost fun r => by cases r <;> exact .done _
    rwa [bind_pure] at h
  unfold AgentRuntimeKit.producer
  refine HostCode.bind (HostCode.handle ?_ fun b r => ?_) fun b _ => ?_
  · exact HostCode.bind (hinvoke released) fun b _ => HostCode.bind (hput b) fun b _ => .done _
  · cases r with
    | ok u => exact .done _
    | error e =>
      show HostCode b (if e.isException then _ else _)
      split
      · exact HostCode.bind (hput b) fun b _ => .done _
      · exact .done _
  · exact HostCode.bind (hput b) fun b _ => .done _

/-- How every task ends. -/
def IsOver (_ : Except Exn Unit) (s : Place) : Prop := s.standing = .over

theorem asTask_follows {m : L α} (h : Keeps s m)
    (hs : s.standing = .outside ∨ s.standing = .settling) :
    lifetime.Follows IsOver s (asTask m) := by
  refine Follows.handle h fun r s' hlater => ⟨?_, fun r' hr' => ?_⟩
  · show s'.standing = .outside ∨ s'.standing = .settling
    rw [hlater.standing]
    exact hs
  cases r' with
  | ok u => exact rfl
  | error e => exact hr'.elim

/-- A program that starts no task. -/
theorem settling_keeps {m : P α} {seen : Exn → Prop}
    (hm : Tame (fun o => o.isNeutral = true) (fun _ _ => True) (fun _ => True) seen m)
    (hs : s.standing = .settling) : Keeps s (onLoop (fun _ => pure ()) m) := by
  induction m generalizing seen with
  | done r => exact Keeps.done r
  | op o k ih =>
    have hrest : ∀ r, Keeps s (onLoop (fun _ => pure ()) (k r)) := fun r => ih r (hm.2 r trivial)
    have hissue : Keeps s (issue o fun r => onLoop (fun _ => pure ()) (k r)) := by
      cases o with
      | spawnCleanup runId token code status timeout => exact absurd hm.1 Bool.false_ne_true
      | _ => exact Keeps.op (Or.inr hs) (fun r => by cases r <;> rfl) hrest
    unfold onLoop
    split
    · exact hissue
    · exact hissue

theorem settleTask_follows {runId token : Uuid} {code : String} {status : RunStatus}
    (hs : s.standing = .settling) :
    lifetime.Follows IsOver s (settleTask runId token code status) :=
  asTask_follows (settling_keeps (cleanupTask_neutral runId token code status) hs) (Or.inr hs)

end Programs

end AgentRuntimeKit
