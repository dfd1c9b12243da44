import AgentRuntimeKit.Lib.Prog
import Mathlib.Logic.Relation

/-!
# Interleaved programs over a shared world

A `Machine` says what each operation does to a shared world, under a choice
that resolves everything the program does not determine (scheduling of a lock,
a fault, an answer of third-party code), and which moves the environment may
make by itself. A `Config` is a world with a family of running programs; one
move lets one process perform one operation, or the environment act.

The reasoning is rely/guarantee. A `Discipline` gives

* `inv` — an invariant of the world;
* `other p` — what one step of anybody but `p` may do to the world;
* `task p` — the precondition of the programs that may be started as `p`;
* `post p` — what holds once `p` has ended.

`Safe p G Q m w` says that `m`, run by `p` from `w` while others take steps
allowed by `other p`, keeps the invariant, does to others only what their own
`other` allows, changes the world by `G` at each step, and ends in `Q`.
`Discipline.sound` is the single induction over runs: if every task is safe and
every environment move is allowed, then in every reachable configuration the
invariant holds and every process is still safe. The `Triple` rules below
reduce safety of a program to one obligation per operation, and
`Triple.frame` carries an assertion along that neither others nor `G` change.
-/

namespace AgentRuntimeKit.Lib

open Relation

/-- Operations over a shared world, and the moves of the environment. Both may
start processes. `none` means blocked or not possible. -/
structure Machine (World Op : Type) (Res : Op → Type) (ε α Choice Env : Type) where
  exec : Nat → World → (o : Op) → Choice →
    Option (Except ε (Res o) × World × List (Nat × Prog Op Res ε α))
  env : World → Env → Option (World × List (Nat × Prog Op Res ε α))

/-- A world and the programs running against it. -/
structure Config (World Op : Type) (Res : Op → Type) (ε α : Type) where
  world : World
  procs : Nat → Option (Prog Op Res ε α)

/-- One scheduling decision. -/
inductive Move (Choice Env : Type)
  | run (p : Nat) (c : Choice)
  | env (e : Env)

section Semantics

variable {World Op : Type} {Res : Op → Type} {ε α Choice Env : Type}

/-- Add processes; refused when a name is taken. -/
def startAll (procs : Nat → Option (Prog Op Res ε α)) :
    List (Nat × Prog Op Res ε α) → Option (Nat → Option (Prog Op Res ε α))
  | [] => some procs
  | (q, m) :: rest =>
    match procs q with
    | none => startAll (Function.update procs q (some m)) rest
    | some _ => none

/-- One move. -/
def Machine.step (M : Machine World Op Res ε α Choice Env) (c : Config World Op Res ε α) :
    Move Choice Env → Option (Config World Op Res ε α)
  | .run p ch =>
    match c.procs p with
    | some (.op o k) =>
      match M.exec p c.world o ch with
      | some (r, w, fs) =>
        (startAll (Function.update c.procs p (some (k r))) fs).map fun procs => ⟨w, procs⟩
      | none => none
    | _ => none
  | .env e =>
    match M.env c.world e with
    | some (w, fs) => (startAll c.procs fs).map fun procs => ⟨w, procs⟩
    | none => none

/-- Run a schedule. -/
def Machine.run (M : Machine World Op Res ε α Choice Env) (c : Config World Op Res ε α) :
    List (Move Choice Env) → Option (Config World Op Res ε α)
  | [] => some c
  | mv :: rest =>
    match M.step c mv with
    | some c' => M.run c' rest
    | none => none

/-- Configurations reached from `c₀` by moves that satisfy `ok`. -/
inductive Machine.Reaches (M : Machine World Op Res ε α Choice Env)
    (ok : Config World Op Res ε α → Move Choice Env → Prop) (c₀ : Config World Op Res ε α) :
    Config World Op Res ε α → Prop
  | refl : M.Reaches ok c₀ c₀
  | step {c c' : Config World Op Res ε α} {mv : Move Choice Env} :
      M.Reaches ok c₀ c → ok c mv → M.step c mv = some c' → M.Reaches ok c₀ c'

variable {M : Machine World Op Res ε α Choice Env}
  {ok : Config World Op Res ε α → Move Choice Env → Prop}

theorem Machine.Reaches.trans {c₀ c₁ c₂ : Config World Op Res ε α}
    (h₁ : M.Reaches ok c₀ c₁) (h₂ : M.Reaches ok c₁ c₂) : M.Reaches ok c₀ c₂ := by
  induction h₂ with
  | refl => exact h₁
  | step _ hok hs ih => exact ih.step hok hs

/-- A schedule whose moves are all allowed reaches where it ends. -/
theorem Machine.Reaches.of_run {c₀ c : Config World Op Res ε α} {mvs : List (Move Choice Env)}
    (hok : ∀ c, ∀ mv ∈ mvs, ok c mv) (h : M.run c₀ mvs = some c) : M.Reaches ok c₀ c := by
  induction mvs generalizing c₀ with
  | nil =>
    rw [Machine.run, Option.some.injEq] at h
    exact h ▸ .refl
  | cons mv rest ih =>
    rw [Machine.run] at h
    cases hs : M.step c₀ mv with
    | none => simp [hs] at h
    | some c₁ =>
      rw [hs] at h
      have h₁ : M.Reaches ok c₀ c₁ := Machine.Reaches.refl.step (hok _ mv (by simp)) hs
      exact h₁.trans (ih (fun c mv' hmv => hok c mv' (List.mem_cons_of_mem _ hmv)) h)

/-- What one move did: a process performed its next operation, or the
environment acted. -/
theorem Machine.step_cases {c c' : Config World Op Res ε α} {mv : Move Choice Env}
    (h : M.step c mv = some c') :
    (∃ p ch o k r fs, mv = .run p ch ∧ c.procs p = some (.op o k) ∧
      M.exec p c.world o ch = some (r, c'.world, fs) ∧
      startAll (Function.update c.procs p (some (k r))) fs = some c'.procs) ∨
    (∃ e fs, mv = .env e ∧ M.env c.world e = some (c'.world, fs) ∧
      startAll c.procs fs = some c'.procs) := by
  cases mv with
  | run p ch =>
    rw [Machine.step] at h
    split at h
    · next o k hp =>
      split at h
      · next r w fs hx =>
        rw [Option.map_eq_some_iff] at h
        obtain ⟨procs, hprocs, rfl⟩ := h
        exact .inl ⟨p, ch, o, k, r, fs, rfl, hp, hx, hprocs⟩
      · exact absurd h (by simp)
    · exact absurd h (by simp)
  | env e =>
    rw [Machine.step] at h
    split at h
    · next w fs hx =>
      rw [Option.map_eq_some_iff] at h
      obtain ⟨procs, hprocs, rfl⟩ := h
      exact .inr ⟨e, fs, rfl, hx, hprocs⟩
    · exact absurd h (by simp)

/-- A process of the extended family is an old one or one of the new ones. -/
theorem startAll_cases {procs procs' : Nat → Option (Prog Op Res ε α)}
    {fs : List (Nat × Prog Op Res ε α)} (h : startAll procs fs = some procs') {q : Nat}
    {m : Prog Op Res ε α} (hq : procs' q = some m) : procs q = some m ∨ (q, m) ∈ fs := by
  induction fs generalizing procs with
  | nil =>
    rw [startAll, Option.some.injEq] at h
    exact .inl (h ▸ hq)
  | cons f rest ih =>
    obtain ⟨q₀, m₀⟩ := f
    rw [startAll] at h
    split at h
    · rcases ih h with hold | hnew
      · by_cases hqq : q = q₀
        · subst hqq
          rw [Function.update_self, Option.some.injEq] at hold
          exact .inr (by simp [hold])
        · rw [Function.update_of_ne hqq] at hold
          exact .inl hold
      · exact .inr (List.mem_cons_of_mem _ hnew)
    · exact absurd h (by simp)

/-- Starting processes leaves the running ones in place. -/
theorem startAll_mono {procs procs' : Nat → Option (Prog Op Res ε α)}
    {fs : List (Nat × Prog Op Res ε α)} (h : startAll procs fs = some procs') {q : Nat}
    {m : Prog Op Res ε α} (hq : procs q = some m) : procs' q = some m := by
  induction fs generalizing procs with
  | nil =>
    rw [startAll, Option.some.injEq] at h
    exact h ▸ hq
  | cons f rest ih =>
    obtain ⟨q₀, m₀⟩ := f
    rw [startAll] at h
    split at h
    · next hnone =>
      refine ih h ?_
      have hne : q ≠ q₀ := by
        rintro rfl
        rw [hnone] at hq
        exact absurd hq (by simp)
      rw [Function.update_of_ne hne]
      exact hq
    · exact absurd h (by simp)

/-- Where a program that runs after a move comes from: it is new, it was there, or it is what
follows the operation that was performed. -/
theorem Machine.step_proc {c c' : Config World Op Res ε α} {mv : Move Choice Env}
    (h : M.step c mv = some c') {q : Nat} {m : Prog Op Res ε α} (hq : c'.procs q = some m) :
    c.procs q = none ∨ c.procs q = some m ∨
      ∃ ch o k r fs, mv = .run q ch ∧ c.procs q = some (.op o k) ∧
        M.exec q c.world o ch = some (r, c'.world, fs) ∧ m = k r := by
  cases hbefore : c.procs q with
  | none => exact Or.inl rfl
  | some m₀ =>
    right
    rcases Machine.step_cases h with ⟨p, ch, o, k, r, fs, rfl, hp, hx, hst⟩ | ⟨e, fs, rfl, hx, hst⟩
    · by_cases hqp : q = p
      · subst hqp
        have hafter := startAll_mono hst (Function.update_self q (some (k r)) c.procs)
        rw [hq, Option.some.injEq] at hafter
        exact Or.inr ⟨ch, o, k, r, fs, rfl, hbefore.symm.trans hp, hx, hafter⟩
      · have hsame := startAll_mono hst ((Function.update_of_ne hqp _ _).trans hbefore)
        exact Or.inl (hsame.symm.trans hq)
    · exact Or.inl ((startAll_mono hst hbefore).symm.trans hq)

end Semantics

/-! ## Assertions about answers -/

section Answers

variable {World α ε : Type}

/-- What is known of an optional answer. -/
def ifSome (none : World → Prop) (some : α → World → Prop) : Option α → World → Prop
  | .none => none
  | .some a => some a

/-- What is known of an answer that may be an exception. -/
def ifOk (ok : α → World → Prop) (error : ε → World → Prop) : Except ε α → World → Prop
  | .ok a => ok a
  | .error e => error e

end Answers

/-! ## Rely and guarantee -/

/-- The obligations of a rely/guarantee argument. -/
structure Discipline (World Op : Type) (Res : Op → Type) (ε α : Type) where
  inv : World → Prop
  other : Nat → World → World → Prop
  task : Nat → Prog Op Res ε α → World → Prop
  post : Nat → Except ε α → World → Prop

namespace Discipline

variable {World Op : Type} {Res : Op → Type} {ε α β γ Choice Env : Type}

/-- Any number of steps of others, through worlds satisfying the invariant. -/
def rely (D : Discipline World Op Res ε α) (p : Nat) : World → World → Prop :=
  ReflTransGen fun w w' => D.inv w ∧ D.inv w' ∧ D.other p w w'

/-- `m`, run by `p` from `w`, is safe, changes the world by `G` and ends in `Q`. -/
def Safe (M : Machine World Op Res ε α Choice Env) (D : Discipline World Op Res ε α) (p : Nat)
    (G : World → World → Prop) (Q : Except ε β → World → Prop) : Prog Op Res ε β → World → Prop
  | .done r, w => ∀ w₁, D.rely p w w₁ → Q r w₁
  | .op o k, w => ∀ w₁, D.rely p w w₁ → D.inv w₁ → ∀ c r w₂ fs,
      M.exec p w₁ o c = some (r, w₂, fs) →
      D.inv w₂ ∧ (∀ q, q ≠ p → D.other q w₁ w₂) ∧ (∀ f ∈ fs, D.task f.1 f.2 w₂) ∧ G w₁ w₂ ∧
        Safe M D p G Q (k r) w₂

variable {M : Machine World Op Res ε α Choice Env} {D : Discipline World Op Res ε α} {p : Nat}
  {G : World → World → Prop}

/-- Steps of others do not endanger a safe program. -/
theorem Safe.rely {Q : Except ε β → World → Prop} {m : Prog Op Res ε β} {w w' : World}
    (h : D.Safe M p G Q m w) (hr : D.rely p w w') : D.Safe M p G Q m w' := by
  cases m with
  | done r => exact fun w₁ h₁ => h w₁ (ReflTransGen.trans hr h₁)
  | op o k => exact fun w₁ h₁ => h w₁ (ReflTransGen.trans hr h₁)

/-- Environment moves respect the discipline. -/
def EnvOk (M : Machine World Op Res ε α Choice Env) (D : Discipline World Op Res ε α)
    (allowed : Env → Prop) : Prop :=
  ∀ w e w' fs, allowed e → D.inv w → M.env w e = some (w', fs) →
    D.inv w' ∧ (∀ q, D.other q w w') ∧ ∀ f ∈ fs, D.task f.1 f.2 w'

/-- Everything that may be started is safe. -/
def TasksSafe (M : Machine World Op Res ε α Choice Env) (D : Discipline World Op Res ε α) : Prop :=
  ∀ p m w, D.inv w → D.task p m w → D.Safe M p (fun _ _ => True) (D.post p) m w

/-- What a move does, seen by everybody who did not make it. -/
def Seen (D : Discipline World Op Res ε α) (mv : Move Choice Env) (w w' : World) : Prop :=
  ∀ q, (∀ ch, mv ≠ .run q ch) → D.other q w w'

section Sound

variable {allowed : Env → Prop} {ok : Config World Op Res ε α → Move Choice Env → Prop}

/-- One move from a configuration where the invariant holds and every process is safe
leads to another, and everybody else sees only what their `other` allows. -/
theorem sound_step (henv : D.EnvOk M allowed) (htask : D.TasksSafe M)
    (hok : ∀ c e, ok c (.env e) → allowed e) {c c' : Config World Op Res ε α}
    {mv : Move Choice Env} (hmv : ok c mv) (hs : M.step c mv = some c') (hinv : D.inv c.world)
    (hsafe : ∀ p m, c.procs p = some m →
      D.Safe M p (fun _ _ => True) (D.post p) m c.world) :
    D.inv c'.world ∧ D.Seen mv c.world c'.world ∧
      ∀ p m, c'.procs p = some m → D.Safe M p (fun _ _ => True) (D.post p) m c'.world := by
  rcases Machine.step_cases hs with ⟨p, ch, o, k, r, fs, rfl, hp, hx, hst⟩ | ⟨e, fs, rfl, hx, hst⟩
  · -- process `p` performed `o`
    obtain ⟨hinv', hother, hforks, -, hk⟩ :=
      hsafe p _ hp c.world ReflTransGen.refl hinv ch r c'.world fs hx
    refine ⟨hinv', fun q hq => hother q fun h => hq ch (by rw [h]), fun q m hq => ?_⟩
    rcases startAll_cases hst hq with hold | hnew
    · by_cases hqp : q = p
      · subst hqp
        rw [Function.update_self, Option.some.injEq] at hold
        exact hold ▸ hk
      · rw [Function.update_of_ne hqp] at hold
        exact (hsafe q m hold).rely (ReflTransGen.single ⟨hinv, hinv', hother q hqp⟩)
    · exact htask q m c'.world hinv' (hforks (q, m) hnew)
  · -- the environment moved
    obtain ⟨hinv', hother, hforks⟩ := henv c.world e c'.world fs (hok c e hmv) hinv hx
    refine ⟨hinv', fun q _ => hother q, fun q m hq => ?_⟩
    rcases startAll_cases hst hq with hold | hnew
    · exact (hsafe q m hold).rely (ReflTransGen.single ⟨hinv, hinv', hother q⟩)
    · exact htask q m c'.world hinv' (hforks (q, m) hnew)

/-- What a move starts may be started. -/
theorem started (henv : D.EnvOk M allowed) (hok : ∀ c e, ok c (.env e) → allowed e)
    {c c' : Config World Op Res ε α} {mv : Move Choice Env} (hmv : ok c mv)
    (hs : M.step c mv = some c') (hinv : D.inv c.world)
    (hsafe : ∀ p m, c.procs p = some m → D.Safe M p (fun _ _ => True) (D.post p) m c.world)
    {q : Nat} {m : Prog Op Res ε α} (hbefore : c.procs q = none) (hafter : c'.procs q = some m) :
    D.task q m c'.world := by
  rcases Machine.step_cases hs with ⟨p, ch, o, k, r, fs, rfl, hp, hx, hst⟩ | ⟨e, fs, rfl, hx, hst⟩
  · have hforks := (hsafe p _ hp c.world ReflTransGen.refl hinv ch r c'.world fs hx).2.2.1
    have hqp : q ≠ p := fun h => absurd (hbefore.symm.trans (h ▸ hp)) (by simp)
    rcases startAll_cases hst hafter with hold | hnew
    · rw [Function.update_of_ne hqp, hbefore] at hold
      exact absurd hold (by simp)
    · exact hforks (q, m) hnew
  · have hforks := (henv c.world e c'.world fs (hok c e hmv) hinv hx).2.2
    rcases startAll_cases hst hafter with hold | hnew
    · exact absurd (hbefore.symm.trans hold) (by simp)
    · exact hforks (q, m) hnew

/-- **Soundness.** The invariant holds in every reachable configuration and
every process there is safe from there on. -/
theorem sound (henv : D.EnvOk M allowed) (htask : D.TasksSafe M)
    (hok : ∀ c e, ok c (.env e) → allowed e) {c₀ c : Config World Op Res ε α}
    (hinit : D.inv c₀.world) (hnone : ∀ p, c₀.procs p = none) (h : M.Reaches ok c₀ c) :
    D.inv c.world ∧
      ∀ p m, c.procs p = some m → D.Safe M p (fun _ _ => True) (D.post p) m c.world := by
  induction h with
  | refl =>
    refine ⟨hinit, fun p m hp => ?_⟩
    rw [hnone p] at hp
    exact absurd hp (by simp)
  | step _ hmv hs ih =>
    obtain ⟨hinv, hsafe⟩ := ih
    obtain ⟨hinv', -, hsafe'⟩ := sound_step henv htask hok hmv hs hinv hsafe
    exact ⟨hinv', hsafe'⟩

end Sound

/-! ## Triples -/

/-- An assertion no step of others invalidates. -/
def Stable (D : Discipline World Op Res ε α) (p : Nat) (A : World → Prop) : Prop :=
  ∀ w w', D.inv w → D.inv w' → D.other p w w' → A w → A w'

theorem Stable.rely {A : World → Prop} (hA : D.Stable p A) {w w' : World} (h : D.rely p w w')
    (hw : A w) : A w' := by
  induction h with
  | refl => exact hw
  | tail _ hs ih => exact hA _ _ hs.1 hs.2.1 hs.2.2 ih

/-- From a world with `A`, the program is safe, changes the world by `G` and ends in `Q`. -/
def Triple (M : Machine World Op Res ε α Choice Env) (D : Discipline World Op Res ε α) (p : Nat)
    (G : World → World → Prop) (A : World → Prop) (m : Prog Op Res ε β)
    (Q : Except ε β → World → Prop) : Prop :=
  ∀ w, D.inv w → A w → D.Safe M p G Q m w

theorem Safe.mono {G' : World → World → Prop} {Q Q' : Except ε β → World → Prop}
    (hG : ∀ w w', G w w' → G' w w') (hQ : ∀ r w, Q r w → Q' r w) {m : Prog Op Res ε β} {w : World}
    (h : D.Safe M p G Q m w) : D.Safe M p G' Q' m w := by
  induction m generalizing w with
  | done r => exact fun w₁ h₁ => hQ r w₁ (h w₁ h₁)
  | op o k ih =>
    intro w₁ h₁ hi c r w₂ fs hx
    obtain ⟨h2, h3, h4, h5, h6⟩ := h w₁ h₁ hi c r w₂ fs hx
    exact ⟨h2, h3, h4, hG w₁ w₂ h5, ih r h6⟩

theorem Safe.handle {R : Except ε β → World → Prop} {Q : Except ε γ → World → Prop}
    {m : Prog Op Res ε β} {f : Except ε β → Prog Op Res ε γ} {w : World}
    (hw : D.inv w) (h : D.Safe M p G R m w)
    (hf : ∀ r w, D.inv w → R r w → D.Safe M p G Q (f r) w) : D.Safe M p G Q (m.handle f) w := by
  induction m generalizing w with
  | done r => exact hf r w hw (h w ReflTransGen.refl)
  | op o k ih =>
    intro w₁ h₁ hi c r w₂ fs hx
    obtain ⟨h2, h3, h4, h5, h6⟩ := h w₁ h₁ hi c r w₂ fs hx
    exact ⟨h2, h3, h4, h5, ih r h2 h6⟩

/-- An assertion that others and `G` leave alone holds throughout. -/
theorem Safe.frame {F : World → Prop} {Q : Except ε β → World → Prop} {m : Prog Op Res ε β}
    {w : World} (hF : D.Stable p F)
    (hG : ∀ w w', D.inv w → D.inv w' → G w w' → F w → F w')
    (hw : F w) (h : D.Safe M p G Q m w) : D.Safe M p G (fun r w => Q r w ∧ F w) m w := by
  induction m generalizing w with
  | done r => exact fun w₁ h₁ => ⟨h w₁ h₁, hF.rely h₁ hw⟩
  | op o k ih =>
    intro w₁ h₁ hi c r w₂ fs hx
    obtain ⟨h2, h3, h4, h5, h6⟩ := h w₁ h₁ hi c r w₂ fs hx
    exact ⟨h2, h3, h4, h5, ih r (hG w₁ w₂ hi h2 h5 (hF.rely h₁ hw)) h6⟩

theorem Triple.conseq {A A' : World → Prop} {m : Prog Op Res ε β}
    {Q Q' : Except ε β → World → Prop} (h : D.Triple M p G A m Q)
    (hA : ∀ w, D.inv w → A' w → A w) (hQ : ∀ r w, Q r w → Q' r w) : D.Triple M p G A' m Q' :=
  fun w hw ha => (h w hw (hA w hw ha)).mono (fun _ _ h => h) hQ

theorem Triple.pre {A A' : World → Prop} {m : Prog Op Res ε β} {Q : Except ε β → World → Prop}
    (hA : ∀ w, D.inv w → A' w → A w) (h : D.Triple M p G A m Q) : D.Triple M p G A' m Q :=
  fun w hw ha => h w hw (hA w hw ha)

/-- A smaller change is a change. -/
theorem Triple.weaken {G' : World → World → Prop} {A : World → Prop} {m : Prog Op Res ε β}
    {Q : Except ε β → World → Prop} (hG : ∀ w w', G w w' → G' w w') (h : D.Triple M p G A m Q) :
    D.Triple M p G' A m Q :=
  fun w hw ha => (h w hw ha).mono hG fun _ _ h => h

theorem Triple.frame {A F : World → Prop} {m : Prog Op Res ε β} {Q : Except ε β → World → Prop}
    (hF : D.Stable p F) (hG : ∀ w w', D.inv w → D.inv w' → G w w' → F w → F w')
    (h : D.Triple M p G A m Q) :
    D.Triple M p G (fun w => A w ∧ F w) m fun r w => Q r w ∧ F w :=
  fun w hw ha => (h w hw ha.1).frame hF hG ha.2

/-- Others keep the invariant. -/
theorem rely_inv {w w' : World} (h : D.rely p w w') (hw : D.inv w) : D.inv w' := by
  induction h with
  | refl => exact hw
  | tail _ hs _ => exact hs.2.1

/-- A program that has already ended. -/
theorem Triple.done {A : World → Prop} {r : Except ε β} {Q : Except ε β → World → Prop}
    (hA : D.Stable p A) (hQ : ∀ w, D.inv w → A w → Q r w) : D.Triple M p G A (.done r) Q :=
  fun _ hw ha w₁ h₁ => hQ w₁ (rely_inv h₁ hw) (hA.rely h₁ ha)

/-- One operation. -/
theorem Triple.op {A : World → Prop} {o : Op} {k : Except ε (Res o) → Prog Op Res ε β}
    {B : Except ε (Res o) → World → Prop} {Q : Except ε β → World → Prop} (hA : D.Stable p A)
    (hop : ∀ w c r w' fs, D.inv w → A w → M.exec p w o c = some (r, w', fs) →
      D.inv w' ∧ (∀ q, q ≠ p → D.other q w w') ∧ (∀ f ∈ fs, D.task f.1 f.2 w') ∧ G w w' ∧ B r w')
    (hk : ∀ r, D.Triple M p G (B r) (k r) Q) : D.Triple M p G A (.op o k) Q := by
  intro w _ ha w₁ h₁ hi c r w₂ fs hx
  obtain ⟨h2, h3, h4, h5, h6⟩ := hop w₁ c r w₂ fs hi (hA.rely h₁ ha) hx
  exact ⟨h2, h3, h4, h5, hk r w₂ h2 h6⟩

/-- A program continued on its outcome. -/
theorem Triple.handle {A : World → Prop} {m : Prog Op Res ε β}
    {f : Except ε β → Prog Op Res ε γ} {R : Except ε β → World → Prop}
    {Q : Except ε γ → World → Prop} (hm : D.Triple M p G A m R)
    (hf : ∀ r, D.Triple M p G (R r) (f r) Q) : D.Triple M p G A (m.handle f) Q :=
  fun w hw ha => (hm w hw ha).handle hw fun r w' hw' hr => hf r w' hw' hr

/-- Sequencing: exceptions of the first part are exceptions of the whole. -/
theorem Triple.bind {A : World → Prop} {m : Prog Op Res ε β} {f : β → Prog Op Res ε γ}
    {R : Except ε β → World → Prop} {Q : Except ε γ → World → Prop} (hm : D.Triple M p G A m R)
    (hf : ∀ b, D.Triple M p G (R (.ok b)) (f b) Q)
    (herr : ∀ e, D.Stable p (R (.error e)) ∧ ∀ w, D.inv w → R (.error e) w → Q (.error e) w) :
    D.Triple M p G A (m >>= f) Q :=
  hm.handle fun
    | .ok b => hf b
    | .error e => Triple.done (herr e).1 (herr e).2

/-- A witness of an existential precondition may be fixed. -/
theorem Triple.exists {ι : Sort*} {A : ι → World → Prop} {m : Prog Op Res ε β}
    {Q : Except ε β → World → Prop} (h : ∀ i, D.Triple M p G (A i) m Q) :
    D.Triple M p G (fun w => ∃ i, A i w) m Q :=
  fun w hw ⟨i, hi⟩ => h i w hw hi

theorem Stable.and {A B : World → Prop} (hA : D.Stable p A) (hB : D.Stable p B) :
    D.Stable p fun w => A w ∧ B w :=
  fun w w' hi hi' ho h => ⟨hA w w' hi hi' ho h.1, hB w w' hi hi' ho h.2⟩

theorem Stable.or {A B : World → Prop} (hA : D.Stable p A) (hB : D.Stable p B) :
    D.Stable p fun w => A w ∨ B w :=
  fun w w' hi hi' ho h => h.imp (hA w w' hi hi' ho) (hB w w' hi hi' ho)

theorem Stable.exists {ι : Sort*} {A : ι → World → Prop} (h : ∀ i, D.Stable p (A i)) :
    D.Stable p fun w => ∃ i, A i w :=
  fun w w' hi hi' ho ⟨i, ha⟩ => ⟨i, h i w w' hi hi' ho ha⟩

theorem Stable.const (φ : Prop) : D.Stable p fun _ => φ :=
  fun _ _ _ _ _ h => h

end Discipline

end AgentRuntimeKit.Lib
