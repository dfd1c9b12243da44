import AgentRuntimeKit.Lib.Interleaving

/-!
# Typestates

A typestate says which operations a process may perform where it stands, and where each answer
leaves it. `Follows` is that a program keeps to a typestate; it depends on the text of the program
and on the possible answers alone. `Tracks` connects it with a machine: the world knows where each
process stands, an operation moves nobody but the process that performs it, and answers only what is
possible there. Then every process of every run keeps to the typestate, from where the world says
that it stands.

## Results

* `Follows.handle` — what follows a program.
* `Tracks.follows` — every process, in every run.
-/

namespace AgentRuntimeKit.Lib

/-- Where processes may stand, and how operations move them. -/
structure Typestate (S Op : Type) (Res : Op → Type) (ε : Type) where
  allowed : S → Op → Prop
  possible : S → (o : Op) → Except ε (Res o) → Prop
  next : S → (o : Op) → Except ε (Res o) → S

namespace Typestate

variable {S World Op : Type} {Res : Op → Type} {ε α β Choice Env : Type}
  {T : Typestate S Op Res ε} {s : S}

/-- From `s`, the program performs allowed operations only, and its outcome is one with `Q` where
it ends. -/
def Follows (T : Typestate S Op Res ε) (Q : Except ε α → S → Prop) : S → Prog Op Res ε α → Prop
  | s, .done r => Q r s
  | s, .op o k => T.allowed s o ∧ ∀ r, T.possible s o r → T.Follows Q (T.next s o r) (k r)

section Rules

variable {Q : Except ε α → S → Prop} {R : Except ε β → S → Prop}

theorem Follows.mono {Q' : Except ε α → S → Prop} {m : Prog Op Res ε α} (h : T.Follows Q s m)
    (hQ : ∀ r s', Q r s' → Q' r s') : T.Follows Q' s m := by
  induction m generalizing s with
  | done r => exact hQ r s h
  | op o k ih => exact ⟨h.1, fun r hr => ih r (h.2 r hr)⟩

/-- What follows a program is checked from where the program ends. -/
theorem Follows.handle {m : Prog Op Res ε α} {f : Except ε α → Prog Op Res ε β}
    (h : T.Follows Q s m) (hf : ∀ r s', Q r s' → T.Follows R s' (f r)) :
    T.Follows R s (m.handle f) := by
  induction m generalizing s with
  | done r => exact hf r s h
  | op o k ih => exact ⟨h.1, fun r hr => ih r (h.2 r hr)⟩

end Rules

-- ---------------------------------------------------------------------------
-- Runs
-- ---------------------------------------------------------------------------

/-- The world knows where each process stands: `place p w`, as long as `inv` holds. -/
structure Tracks (T : Typestate S Op Res ε) (M : Machine World Op Res ε α Choice Env)
    (inv : World → Prop) (place : Nat → World → S) (Q : Except ε α → S → Prop) : Prop where
  exec : ∀ p w o ch r w' fs, inv w → M.exec p w o ch = some (r, w', fs) →
    T.allowed (place p w) o →
      inv w' ∧ T.possible (place p w) o r ∧ place p w' = T.next (place p w) o r
  others : ∀ p w o ch r w' fs, inv w → M.exec p w o ch = some (r, w', fs) →
    T.allowed (place p w) o → ∀ q, q ≠ p → q ∉ fs.map Prod.fst → place q w' = place q w
  forks : ∀ p w o ch r w' fs, inv w → M.exec p w o ch = some (r, w', fs) →
    T.allowed (place p w) o → ∀ f ∈ fs, T.Follows Q (place f.1 w') f.2
  env : ∀ w e w' fs, inv w → M.env w e = some (w', fs) →
    inv w' ∧ (∀ q, q ∉ fs.map Prod.fst → place q w' = place q w) ∧
      ∀ f ∈ fs, T.Follows Q (place f.1 w') f.2

/-- Whatever is started is new. -/
theorem startAll_fresh {procs procs' : Nat → Option (Prog Op Res ε α)}
    {fs : List (Nat × Prog Op Res ε α)} (h : startAll procs fs = some procs') {q : Nat}
    (hq : q ∈ fs.map Prod.fst) : procs q = none := by
  induction fs generalizing procs with
  | nil => exact absurd hq List.not_mem_nil
  | cons f rest ih =>
    obtain ⟨q₀, m₀⟩ := f
    rw [startAll] at h
    split at h
    · next hnone =>
      by_cases hqq : q = q₀
      · rw [hqq, hnone]
      · have hrest : q ∈ rest.map Prod.fst := by
          rcases List.mem_cons.mp hq with hhead | hrest
          · exact absurd hhead hqq
          · exact hrest
        have hnew := ih h hrest
        rwa [Function.update_of_ne hqq] at hnew
    · exact absurd h (by simp)

variable {M : Machine World Op Res ε α Choice Env} {place : Nat → World → S}
  {Q : Except ε α → S → Prop} {ok : Config World Op Res ε α → Move Choice Env → Prop}

/-- One move. -/
theorem Tracks.step {inv : World → Prop} (h : T.Tracks M inv place Q)
    {c c' : Config World Op Res ε α} {mv : Move Choice Env} (hs : M.step c mv = some c')
    (hinv : inv c.world) (hall : ∀ p m, c.procs p = some m → T.Follows Q (place p c.world) m) :
    inv c'.world ∧ ∀ p m, c'.procs p = some m → T.Follows Q (place p c'.world) m := by
  rcases Machine.step_cases hs with ⟨p, ch, o, k, r, fs, rfl, hp, hx, hst⟩ | ⟨e, fs, rfl, hx, hst⟩
  · have hprogram := hall p _ hp
    obtain ⟨hinv', hpossible, hplace⟩ := h.exec p _ o ch r _ fs hinv hx hprogram.1
    refine ⟨hinv', fun q m hq => ?_⟩
    rcases startAll_cases hst hq with hold | hnew
    · by_cases hqp : q = p
      · subst hqp
        rw [Function.update_self, Option.some.injEq] at hold
        rw [hplace, ← hold]
        exact hprogram.2 r hpossible
      · have hfresh : q ∉ fs.map Prod.fst := by
          intro hmem
          rw [startAll_fresh hst hmem] at hold
          exact absurd hold (by simp)
        rw [h.others p _ o ch r _ fs hinv hx hprogram.1 q hqp hfresh]
        rw [Function.update_of_ne hqp] at hold
        exact hall q m hold
    · exact h.forks p _ o ch r _ fs hinv hx hprogram.1 (q, m) hnew
  · obtain ⟨hinv', hsame, hforks⟩ := h.env _ e _ fs hinv hx
    refine ⟨hinv', fun q m hq => ?_⟩
    rcases startAll_cases hst hq with hold | hnew
    · have hfresh : q ∉ fs.map Prod.fst := by
        intro hmem
        rw [startAll_fresh hst hmem] at hold
        exact absurd hold (by simp)
      rw [hsame q hfresh]
      exact hall q m hold
    · exact hforks (q, m) hnew

/-- Every process keeps to the typestate, in every run. -/
theorem Tracks.follows {inv : World → Prop} (h : T.Tracks M inv place Q)
    {c₀ c : Config World Op Res ε α} (hinv : inv c₀.world) (hnone : ∀ p, c₀.procs p = none)
    (hr : M.Reaches ok c₀ c) :
    inv c.world ∧ ∀ p m, c.procs p = some m → T.Follows Q (place p c.world) m := by
  induction hr with
  | refl =>
    refine ⟨hinv, fun p m hp => ?_⟩
    rw [hnone p] at hp
    exact absurd hp (by simp)
  | step _ _ hs ih => exact h.step hs ih.1 ih.2

end Typestate

end AgentRuntimeKit.Lib
