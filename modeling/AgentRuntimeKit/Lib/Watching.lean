import AgentRuntimeKit.Lib.Interleaving

/-!
# Watching one process

`Discipline.sound` says of all processes at once that they are safe. More can be said of one
process once that is known. A `Watch` restricts its choices (`may`), requires something of
each operation it is about to perform (`must`), and tells its operations apart (`good`); the
steps of others are those that a discipline allows.

`Watched p V Q φ m w` says that `m`, run by `p` from `w`, meets `must` before each operation,
and ends in `Q φ'`, where `φ'` adds to `φ` that each operation on the way was `good`.

## Results

* `Watched.step`, `Watched.run` — along a schedule, the process stays watched, and `φ'` is
  that the schedule had good operations only.
* `Watched.everywhere` — every process is watched in every configuration of a run, if each is
  watched when it starts.
* `Watches.op`, `Watches.branch`, `Watches.seen`, `Watches.handle`, `Watches.done` — one rule for
  each way to build a program.
-/

namespace AgentRuntimeKit.Lib

open Relation

section Along

variable {World Op : Type} {Res : Op → Type} {ε α Choice Env : Type}

/-- Each move of a schedule satisfies `P` in the configuration it starts from. -/
def Machine.Along (M : Machine World Op Res ε α Choice Env)
    (P : Config World Op Res ε α → Move Choice Env → Prop) :
    Config World Op Res ε α → List (Move Choice Env) → Prop
  | _, [] => True
  | c, mv :: rest => P c mv ∧ ∀ c', M.step c mv = some c' → M.Along P c' rest

/-- If the move is one of `p`, the operation it performs satisfies `P`. -/
def Performs (p : Nat) (P : World → Op → Choice → Prop) (c : Config World Op Res ε α)
    (mv : Move Choice Env) : Prop :=
  ∀ ch o k, mv = .run p ch → c.procs p = some (.op o k) → P c.world o ch

variable {M : Machine World Op Res ε α Choice Env}
  {P P' P'' : Config World Op Res ε α → Move Choice Env → Prop}

theorem Machine.Along.both {c : Config World Op Res ε α} {mvs : List (Move Choice Env)}
    (h : M.Along P c mvs) (h' : M.Along P' c mvs) (hP : ∀ c mv, P c mv → P' c mv → P'' c mv) :
    M.Along P'' c mvs := by
  induction mvs generalizing c with
  | nil => trivial
  | cons mv rest ih =>
    exact ⟨hP c mv h.1 h'.1, fun c' hs => ih (h.2 c' hs) (h'.2 c' hs)⟩

/-- A schedule and what its first move leads to. -/
theorem Machine.along_cons {c c' : Config World Op Res ε α} {mv : Move Choice Env}
    {rest : List (Move Choice Env)} (hs : M.step c mv = some c') :
    M.Along P c (mv :: rest) ↔ P c mv ∧ M.Along P c' rest := by
  refine and_congr_right fun _ => ⟨fun h => h c' hs, fun h c₂ hs₂ => ?_⟩
  rw [hs, Option.some.injEq] at hs₂
  exact hs₂ ▸ h

/-- Each move alone decides. -/
theorem Machine.along_of_forall {c : Config World Op Res ε α} {mvs : List (Move Choice Env)}
    (h : ∀ mv ∈ mvs, ∀ c, P c mv) : M.Along P c mvs := by
  induction mvs generalizing c with
  | nil => trivial
  | cons mv rest ih =>
    exact ⟨h mv List.mem_cons_self c, fun _ _ =>
      ih fun mv' hmv => h mv' (List.mem_cons_of_mem _ hmv)⟩

/-- A schedule that satisfies `P` leads where such moves lead. -/
theorem Machine.Along.reaches {c c' : Config World Op Res ε α} {mvs : List (Move Choice Env)}
    (h : M.Along P c mvs) (hrun : M.run c mvs = some c') : M.Reaches P c c' := by
  induction mvs generalizing c with
  | nil =>
    rw [Machine.run, Option.some.injEq] at hrun
    exact hrun ▸ .refl
  | cons mv rest ih =>
    rw [Machine.run] at hrun
    cases hs : M.step c mv with
    | none =>
      rw [hs] at hrun
      exact absurd hrun (by simp)
    | some c₁ =>
      rw [hs] at hrun
      exact (Machine.Reaches.refl.step h.1 hs).trans (ih (h.2 c₁ hs) hrun)

instance Performs.decidable {p : Nat} {P : World → Op → Choice → Prop}
    [∀ w o ch, Decidable (P w o ch)] (c : Config World Op Res ε α) :
    (mv : Move Choice Env) → Decidable (Performs p P c mv)
  | .env _ => .isTrue fun _ _ _ h => absurd h (by simp)
  | .run q ch =>
    if hq : q = p then
      match hp : c.procs p with
      | some (.op o k) =>
        decidable_of_iff (P c.world o ch) (by
          constructor
          · rintro h ch' o' k' hmv hp'
            injection hmv with _ hch
            rw [hp, Option.some.injEq, Prog.op.injEq] at hp'
            rw [← hch, ← hp'.1]
            exact h
          · intro h
            exact h ch o k (by rw [hq]) hp)
      | some (.done r) => .isTrue fun _ _ _ _ h => absurd (hp.symm.trans h) (by simp)
      | none => .isTrue fun _ _ _ _ h => absurd (hp.symm.trans h) (by simp)
    else .isTrue fun _ _ _ h => absurd (by injection h) hq

/-- Whether a schedule satisfies `P` can be found out by running it. -/
instance Machine.Along.decidable [∀ c mv, Decidable (P c mv)] :
    (c : Config World Op Res ε α) → (mvs : List (Move Choice Env)) → Decidable (M.Along P c mvs)
  | _, [] => .isTrue trivial
  | c, mv :: rest =>
    match hs : M.step c mv with
    | some c' =>
      have := Machine.Along.decidable c' rest
      decidable_of_iff (P c mv ∧ M.Along P c' rest) (Machine.along_cons hs).symm
    | none =>
      decidable_of_iff (P c mv) (by
        refine ⟨fun h => ⟨h, fun c' hs' => ?_⟩, fun h => h.1⟩
        exact absurd (hs.symm.trans hs') (by simp))

end Along

/-- What is asked of the operations of one process. -/
structure Watch (World Op Choice : Type) where
  may : World → Op → Choice → Prop
  must : World → Op → Prop
  good : World → Op → Prop

namespace Discipline

variable {World Op : Type} {Res : Op → Type} {ε α β γ Choice Env : Type}

def Watched (M : Machine World Op Res ε α Choice Env) (D : Discipline World Op Res ε α) (p : Nat)
    (V : Watch World Op Choice) (Q : Prop → Except ε β → World → Prop) :
    Prop → Prog Op Res ε β → World → Prop
  | φ, .done r, w => ∀ w₁, D.rely p w w₁ → Q φ r w₁
  | φ, .op o k, w => ∀ w₁, D.rely p w w₁ → D.inv w₁ → V.must w₁ o ∧
      ∀ c r w₂ fs, V.may w₁ o c → M.exec p w₁ o c = some (r, w₂, fs) → D.inv w₂ →
        (∀ q, q ≠ p → D.other q w₁ w₂) → Watched M D p V Q (φ ∧ V.good w₁ o) (k r) w₂

variable {M : Machine World Op Res ε α Choice Env} {D : Discipline World Op Res ε α} {p : Nat}
  {V : Watch World Op Choice} {φ : Prop}

/-- Steps of others keep a watched program watched. -/
theorem Watched.rely {Q : Prop → Except ε β → World → Prop} {m : Prog Op Res ε β} {w w' : World}
    (h : D.Watched M p V Q φ m w) (hr : D.rely p w w') : D.Watched M p V Q φ m w' := by
  cases m with
  | done r => exact fun w₁ h₁ => h w₁ (ReflTransGen.trans hr h₁)
  | op o k => exact fun w₁ h₁ => h w₁ (ReflTransGen.trans hr h₁)

/-- What holds before the next operation. -/
theorem Watched.next {Q : Prop → Except ε β → World → Prop} {o : Op}
    {k : Except ε (Res o) → Prog Op Res ε β} {w : World}
    (h : D.Watched M p V Q φ (.op o k) w) (hw : D.inv w) : V.must w o :=
  (h w .refl hw).1

theorem Watched.handle {R : Prop → Except ε β → World → Prop} {Q : Prop → Except ε γ → World → Prop}
    {m : Prog Op Res ε β} {f : Except ε β → Prog Op Res ε γ} {w : World} (hw : D.inv w)
    (h : D.Watched M p V R φ m w)
    (hf : ∀ φ' r w, D.inv w → R φ' r w → D.Watched M p V Q φ' (f r) w) :
    D.Watched M p V Q φ (m.handle f) w := by
  induction m generalizing φ w with
  | done r => exact hf φ r w hw (h w .refl)
  | op o k ih =>
    intro w₁ h₁ hi
    obtain ⟨hmust, hnext⟩ := h w₁ h₁ hi
    exact ⟨hmust, fun c r w₂ fs hmay hx hi₂ ho => ih r hi₂ (hnext c r w₂ fs hmay hx hi₂ ho)⟩

theorem Watched.map {f : β → γ} {Q : Prop → Except ε β → World → Prop}
    {Q' : Prop → Except ε γ → World → Prop} {m : Prog Op Res ε β} {w : World}
    (h : D.Watched M p V Q φ m w) (hQ : ∀ φ r w, Q φ r w → Q' φ (r.map f) w) :
    D.Watched M p V Q' φ (f <$> m) w := by
  induction m generalizing φ w with
  | done r => cases r with
    | ok a => exact fun w₁ h₁ => hQ φ (.ok a) w₁ (h w₁ h₁)
    | error e => exact fun w₁ h₁ => hQ φ (.error e) w₁ (h w₁ h₁)
  | op o k ih =>
    intro w₁ h₁ hi
    obtain ⟨hmust, hnext⟩ := h w₁ h₁ hi
    exact ⟨hmust, fun c r w₂ fs hmay hx hi₂ ho => ih r (hnext c r w₂ fs hmay hx hi₂ ho)⟩

theorem Watched.mono {Q Q' : Prop → Except ε β → World → Prop} {m : Prog Op Res ε β} {w : World}
    (h : D.Watched M p V Q φ m w) (hQ : ∀ φ r w, Q φ r w → Q' φ r w) :
    D.Watched M p V Q' φ m w := by
  induction m generalizing φ w with
  | done r => exact fun w₁ h₁ => hQ φ r w₁ (h w₁ h₁)
  | op o k ih =>
    intro w₁ h₁ hi
    obtain ⟨hmust, hnext⟩ := h w₁ h₁ hi
    exact ⟨hmust, fun c r w₂ fs hmay hx hi₂ ho => ih r (hnext c r w₂ fs hmay hx hi₂ ho)⟩

theorem Watched.and {Q Q' : Prop → Except ε β → World → Prop} {m : Prog Op Res ε β} {w : World}
    (h : D.Watched M p V Q φ m w) (h' : D.Watched M p V Q' φ m w) :
    D.Watched M p V (fun φ r w => Q φ r w ∧ Q' φ r w) φ m w := by
  induction m generalizing φ w with
  | done r => exact fun w₁ h₁ => ⟨h w₁ h₁, h' w₁ h₁⟩
  | op o k ih =>
    intro w₁ h₁ hi
    obtain ⟨hmust, hnext⟩ := h w₁ h₁ hi
    exact ⟨hmust, fun c r w₂ fs hmay hx hi₂ ho =>
      ih r (hnext c r w₂ fs hmay hx hi₂ ho) ((h' w₁ h₁ hi).2 c r w₂ fs hmay hx hi₂ ho)⟩

/-- A safe program is watched for what it ends in. -/
theorem Safe.watched {G : World → World → Prop} {Q : Except ε β → World → Prop}
    {m : Prog Op Res ε β} {w : World} (h : D.Safe M p G Q m w) (hmust : ∀ w o, V.must w o) :
    D.Watched M p V (fun _ => Q) φ m w := by
  induction m generalizing φ w with
  | done r => exact h
  | op o k ih =>
    refine fun w₁ h₁ hi => ⟨hmust w₁ o, fun c r w₂ fs _ hx _ _ => ih r ?_⟩
    exact (h w₁ h₁ hi c r w₂ fs hx).2.2.2.2

-- ---------------------------------------------------------------------------
-- Runs
-- ---------------------------------------------------------------------------

section Runs

variable {R : Config World Op Res ε α → Prop} {Q : Prop → Except ε α → World → Prop}
  {c c' : Config World Op Res ε α} {mv : Move Choice Env} {m : Prog Op Res ε α}

/-- One move, from a configuration that keeps to the discipline. -/
theorem Watched.step (hinv : D.inv c.world) (hinv' : D.inv c'.world)
    (hseen : D.Seen mv c.world c'.world) (hs : M.step c mv = some c') (hp : c.procs p = some m)
    (hm : D.Watched M p V Q φ m c.world) (hmay : Performs p V.may c mv) :
    ∃ m', c'.procs p = some m' ∧
      D.Watched M p V Q (φ ∧ Performs p (fun w o _ => V.good w o) c mv) m' c'.world := by
  -- a move of anybody else
  have hothers : (∀ ch, mv ≠ .run p ch) → c'.procs p = some m → ∃ m', c'.procs p = some m' ∧
      D.Watched M p V Q (φ ∧ Performs p (fun w o _ => V.good w o) c mv) m' c'.world := by
    intro hmv hp'
    have hgood : Performs p (fun w o _ => V.good w o) c mv := fun ch _ _ h => absurd h (hmv ch)
    have hφ : (φ ∧ Performs p (fun w o _ => V.good w o) c mv) = φ := propext (and_iff_left hgood)
    refine ⟨m, hp', ?_⟩
    rw [hφ]
    exact hm.rely (ReflTransGen.single ⟨hinv, hinv', hseen p hmv⟩)
  rcases Machine.step_cases hs with ⟨q, ch, o, k, r, fs, rfl, hq, hx, hst⟩ | ⟨e, fs, rfl, hx, hst⟩
  · by_cases hqp : q = p
    · subst hqp
      rw [hp, Option.some.injEq] at hq
      subst hq
      have hothers : ∀ x, x ≠ q → D.other x c.world c'.world := fun x hx =>
        hseen x fun ch' h => hx (by injection h with h; exact h.symm)
      have hnext := (hm c.world .refl hinv).2 ch r c'.world fs (hmay ch o k rfl hp) hx hinv' hothers
      have hφ : (φ ∧ Performs q (fun w o _ => V.good w o) c (Move.run q ch : Move Choice Env)) =
          (φ ∧ V.good c.world o) := by
        refine propext (and_congr_right fun _ => ⟨fun h => h ch o k rfl hp, ?_⟩)
        intro hgood ch' o' k' _ hp'
        rw [hp, Option.some.injEq, Prog.op.injEq] at hp'
        exact hp'.1 ▸ hgood
      refine ⟨k r, startAll_mono hst (Function.update_self _ _ _), ?_⟩
      rw [hφ]
      exact hnext
    · refine hothers (fun ch' h => hqp ?_) (startAll_mono hst ?_)
      · injection h
      · rw [Function.update_of_ne (fun h => hqp h.symm)]
        exact hp
  · exact hothers (fun ch h => absurd h (by simp)) (startAll_mono hst hp)

/-- Along a schedule, the process stays watched. -/
theorem Watched.run (hinv : ∀ c, R c → D.inv c.world)
    (hnext : ∀ c mv c', R c → M.step c mv = some c' → R c' ∧ D.Seen mv c.world c'.world)
    {mvs : List (Move Choice Env)} (h₀ : R c) (hp : c.procs p = some m)
    (hm : D.Watched M p V Q φ m c.world) (hmay : M.Along (Performs p V.may) c mvs)
    (hrun : M.run c mvs = some c') :
    ∃ m', c'.procs p = some m' ∧
      D.Watched M p V Q (φ ∧ M.Along (Performs p fun w o _ => V.good w o) c mvs) m' c'.world := by
  induction mvs generalizing c m φ with
  | nil =>
    rw [Machine.run, Option.some.injEq] at hrun
    subst hrun
    refine ⟨m, hp, ?_⟩
    rw [Machine.Along, and_true]
    exact hm
  | cons mv rest ih =>
    rw [Machine.run] at hrun
    cases hs : M.step c mv with
    | none => simp [hs] at hrun
    | some c₁ =>
      rw [hs] at hrun
      obtain ⟨h₁, hseen⟩ := hnext c mv c₁ h₀ hs
      obtain ⟨m₁, hp₁, hm₁⟩ := hm.step (hinv c h₀) (hinv c₁ h₁) hseen hs hp hmay.1
      obtain ⟨m', hp', hm'⟩ := ih h₁ hp₁ hm₁ (hmay.2 c₁ hs) hrun
      refine ⟨m', hp', ?_⟩
      rw [propext (Machine.along_cons hs), ← and_assoc]
      exact hm'

end Runs

/-- Every process is watched, if each is watched when it starts. That each operation is one that
`must` allows may be needed to see that a move keeps `R`. -/
theorem Watched.everywhere {R : Config World Op Res ε α → Prop} {V : Nat → Watch World Op Choice}
    {Q : Nat → Prop → Except ε α → World → Prop}
    {ok : Config World Op Res ε α → Move Choice Env → Prop}
    (hinv : ∀ c, R c → D.inv c.world)
    (hnext : ∀ c mv c', R c → ok c mv → M.step c mv = some c' →
      (∀ p, Performs p (fun w o _ => (V p).must w o) c mv) → R c' ∧ D.Seen mv c.world c'.world)
    (hmay : ∀ p w o ch, (V p).may w o ch)
    (hstart : ∀ c mv c' p m, R c → ok c mv → M.step c mv = some c' →
      (∀ q m, c.procs q = some m → ∃ φ, D.Watched M q (V q) (Q q) φ m c.world) →
      c.procs p = none → c'.procs p = some m → D.Watched M p (V p) (Q p) True m c'.world)
    {c₀ c : Config World Op Res ε α} (h₀ : R c₀) (hnone : ∀ p, c₀.procs p = none)
    (h : M.Reaches ok c₀ c) :
    R c ∧ ∀ p m, c.procs p = some m →
      ∃ φ, D.Watched M p (V p) (Q p) φ m c.world := by
  induction h with
  | refl =>
    refine ⟨h₀, fun p m hp => ?_⟩
    rw [hnone p] at hp
    exact absurd hp (by simp)
  | @step c c' mv _ hok hs ih =>
    obtain ⟨hc, hall⟩ := ih
    have hmust : ∀ p, Performs p (fun w o _ => (V p).must w o) c mv := by
      intro p ch o k _ hp
      obtain ⟨φ, hm⟩ := hall p _ hp
      exact hm.next (hinv c hc)
    obtain ⟨hc', hseen⟩ := hnext c mv c' hc hok hs hmust
    refine ⟨hc', fun p m hp => ?_⟩
    cases hbefore : c.procs p with
    | none => exact ⟨True, hstart c mv c' p m hc hok hs hall hbefore hp⟩
    | some m₀ =>
      obtain ⟨φ, hm₀⟩ := hall p m₀ hbefore
      obtain ⟨m', hp', hm'⟩ := hm₀.step (hinv c hc) (hinv c' hc') hseen hs hbefore
        fun ch o _ _ _ => hmay p c.world o ch
      rw [hp, Option.some.injEq] at hp'
      exact ⟨_, hp' ▸ hm'⟩

-- ---------------------------------------------------------------------------
-- Rules
-- ---------------------------------------------------------------------------

/-- From a world with `A`, the program is watched. -/
def Watches (M : Machine World Op Res ε α Choice Env) (D : Discipline World Op Res ε α) (p : Nat)
    (V : Watch World Op Choice) (φ : Prop) (A : World → Prop) (m : Prog Op Res ε β)
    (Q : Prop → Except ε β → World → Prop) : Prop :=
  ∀ w, D.inv w → A w → D.Watched M p V Q φ m w

variable {A : World → Prop} {Q : Prop → Except ε β → World → Prop}

theorem Watches.pre {A' : World → Prop} {m : Prog Op Res ε β} (hA : ∀ w, D.inv w → A' w → A w)
    (h : D.Watches M p V φ A m Q) : D.Watches M p V φ A' m Q :=
  fun w hw ha => h w hw (hA w hw ha)

theorem Watches.done {r : Except ε β} (hA : D.Stable p A) (hQ : ∀ w, D.inv w → A w → Q φ r w) :
    D.Watches M p V φ A (.done r) Q :=
  fun _ hw ha w₁ h₁ => hQ w₁ (rely_inv h₁ hw) (hA.rely h₁ ha)

/-- One operation that may be bad, with what others see of it. -/
theorem Watches.seen {o : Op} {k : Except ε (Res o) → Prog Op Res ε β}
    {B C : Except ε (Res o) → World → Prop} (hA : D.Stable p A)
    (hmust : ∀ w, D.inv w → A w → V.must w o)
    (hop : ∀ w c r w' fs, D.inv w → D.inv w' → A w → V.may w o c →
      (∀ q, q ≠ p → D.other q w w') → M.exec p w o c = some (r, w', fs) →
        (V.good w o → B r w') ∧ (¬V.good w o → C r w'))
    (hk : ∀ r, D.Watches M p V φ (B r) (k r) Q)
    (hk' : ∀ r, D.Watches M p V False (C r) (k r) Q) : D.Watches M p V φ A (.op o k) Q := by
  intro w _ ha w₁ h₁ hi
  have ha₁ := hA.rely h₁ ha
  refine ⟨hmust w₁ hi ha₁, fun c r w₂ fs hmay hx hi₂ ho => ?_⟩
  have hend := hop w₁ c r w₂ fs hi hi₂ ha₁ hmay ho hx
  by_cases hgood : V.good w₁ o
  · rw [propext (and_iff_left hgood)]
    exact hk r w₂ hi₂ (hend.1 hgood)
  · rw [show (φ ∧ V.good w₁ o) = False from propext (iff_false_intro fun h => hgood h.2)]
    exact hk' r w₂ hi₂ (hend.2 hgood)

/-- One operation that may be bad. -/
theorem Watches.branch {o : Op} {k : Except ε (Res o) → Prog Op Res ε β}
    {B C : Except ε (Res o) → World → Prop} (hA : D.Stable p A)
    (hmust : ∀ w, D.inv w → A w → V.must w o)
    (hop : ∀ w c r w' fs, D.inv w → D.inv w' → A w → V.may w o c →
      M.exec p w o c = some (r, w', fs) →
        (V.good w o → B r w') ∧ (¬V.good w o → C r w'))
    (hk : ∀ r, D.Watches M p V φ (B r) (k r) Q)
    (hk' : ∀ r, D.Watches M p V False (C r) (k r) Q) : D.Watches M p V φ A (.op o k) Q :=
  Watches.seen hA hmust (fun w c r w' fs hi hi' ha hmay _ => hop w c r w' fs hi hi' ha hmay) hk hk'

/-- One operation that is good. -/
theorem Watches.op {o : Op} {k : Except ε (Res o) → Prog Op Res ε β}
    {B : Except ε (Res o) → World → Prop} (hA : D.Stable p A)
    (hmust : ∀ w, D.inv w → A w → V.must w o) (hgood : ∀ w, V.good w o)
    (hop : ∀ w c r w' fs, D.inv w → D.inv w' → A w → V.may w o c →
      M.exec p w o c = some (r, w', fs) → B r w')
    (hk : ∀ r, D.Watches M p V φ (B r) (k r) Q) : D.Watches M p V φ A (.op o k) Q := by
  refine Watches.branch (C := fun _ _ => False) hA hmust ?_ hk fun _ _ _ h => h.elim
  intro w c r w' fs hi hi' ha hmay hx
  exact ⟨fun _ => hop w c r w' fs hi hi' ha hmay hx, fun h => absurd (hgood w) h⟩

theorem Watches.handle {m : Prog Op Res ε γ} {f : Except ε γ → Prog Op Res ε β}
    {R : Prop → Except ε γ → World → Prop} (hm : D.Watches M p V φ A m R)
    (hf : ∀ φ' r, D.Watches M p V φ' (R φ' r) (f r) Q) : D.Watches M p V φ A (m.handle f) Q :=
  fun w hw ha => (hm w hw ha).handle hw fun φ' r w' hw' hr => hf φ' r w' hw' hr

theorem Watches.exists {ι : Sort*} {A : ι → World → Prop} {m : Prog Op Res ε β}
    (h : ∀ i, D.Watches M p V φ (A i) m Q) : D.Watches M p V φ (fun w => ∃ i, A i w) m Q :=
  fun w hw ⟨i, hi⟩ => h i w hw hi

end Discipline

end AgentRuntimeKit.Lib
