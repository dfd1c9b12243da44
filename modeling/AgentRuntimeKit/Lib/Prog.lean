import Mathlib.Logic.Function.Basic

/-!
# Effectful programs with exceptions

A program is a tree of operations: each node names an operation and continues
with whatever that operation produced, a value or an exception. The tree says
nothing about what an operation does; `Lib/Interleaving.lean` runs several
programs against one shared world, one operation at a time, and gives the
rules to reason about them.

Every control structure is an instance of `Prog.handle`, which continues with
the whole outcome of a program:

* `bind` continues on values and lets exceptions through;
* `tryCatch` continues on exceptions and lets values through;
* `attempt` turns the outcome into a value;
* `finallyDo` runs a clean-up on both and then restores the outcome, unless
  the clean-up itself raises.

`Prog.Tame` says which operations a program performs and where its exceptions
come from, whatever the operations do.
-/

namespace AgentRuntimeKit.Lib

/-- A program over operations `Op`, where operation `o` answers in `Res o`,
exceptions are in `ε` and the program itself answers in `α`. -/
inductive Prog (Op : Type) (Res : Op → Type) (ε α : Type) : Type
  | done (r : Except ε α)
  | op (o : Op) (k : Except ε (Res o) → Prog Op Res ε α)

namespace Prog

variable {Op : Type} {Res : Op → Type} {ε α β γ : Type}

/-- Run a program and continue with its outcome. -/
def handle : Prog Op Res ε α → (Except ε α → Prog Op Res ε β) → Prog Op Res ε β
  | done r, f => f r
  | op o k, f => op o fun r => (k r).handle f

/-- Continue on a value, let an exception through. -/
def onOk (f : α → Prog Op Res ε β) : Except ε α → Prog Op Res ε β
  | .ok a => f a
  | .error e => done (.error e)

/-- Continue on an exception, let a value through. -/
def onError (h : ε → Prog Op Res ε α) : Except ε α → Prog Op Res ε α
  | .ok a => done (.ok a)
  | .error e => h e

instance : Monad (Prog Op Res ε) where
  pure a := done (.ok a)
  bind m f := m.handle (onOk f)

instance : MonadExceptOf ε (Prog Op Res ε) where
  throw e := done (.error e)
  tryCatch m h := m.handle (onError h)

/-- The single-operation program. -/
def perform (o : Op) : Prog Op Res ε (Res o) := op o done

/-- The outcome of a program, as a value. -/
def attempt (m : Prog Op Res ε α) : Prog Op Res ε (Except ε α) :=
  m.handle fun r => done (.ok r)

/-- `try m finally fin`: an exception of `fin` replaces the outcome of `m`. -/
def finallyDo (m : Prog Op Res ε α) (fin : Prog Op Res ε Unit) : Prog Op Res ε α :=
  m.handle fun r => fin.handle (onOk fun _ => done r)

/-- A pure computation that may raise. -/
def lift (r : Except ε α) : Prog Op Res ε α := done r

theorem pure_eq (a : α) : (pure a : Prog Op Res ε α) = done (.ok a) := rfl

theorem bind_eq (m : Prog Op Res ε α) (f : α → Prog Op Res ε β) :
    m >>= f = m.handle (onOk f) := rfl

theorem throw_eq (e : ε) : (throw e : Prog Op Res ε α) = done (.error e) := rfl

theorem tryCatch_eq (m : Prog Op Res ε α) (h : ε → Prog Op Res ε α) :
    tryCatch m h = m.handle (onError h) := rfl

@[simp] theorem handle_done (r : Except ε α) (f : Except ε α → Prog Op Res ε β) :
    (done r).handle f = f r := rfl

@[simp] theorem handle_op (o : Op) (k : Except ε (Res o) → Prog Op Res ε α)
    (f : Except ε α → Prog Op Res ε β) :
    (op o k).handle f = op o fun r => (k r).handle f := rfl

theorem handle_handle (m : Prog Op Res ε α) (f : Except ε α → Prog Op Res ε β)
    (g : Except ε β → Prog Op Res ε γ) :
    (m.handle f).handle g = m.handle fun r => (f r).handle g := by
  induction m with
  | done r => rfl
  | op o k ih => simp only [handle_op, ih]

theorem bind_bind (m : Prog Op Res ε α) (f : α → Prog Op Res ε β) (g : β → Prog Op Res ε γ) :
    m >>= f >>= g = m >>= fun a => f a >>= g := by
  rw [bind_eq, bind_eq, bind_eq, handle_handle]
  congr 1
  funext r
  cases r <;> rfl

theorem bind_pure (m : Prog Op Res ε α) : (m >>= fun a => pure a) = m := by
  rw [bind_eq]
  induction m with
  | done r => cases r <;> rfl
  | op o k ih =>
    rw [handle_op]
    congr 1
    funext r
    exact ih r

@[simp] theorem pure_bind (a : α) (f : α → Prog Op Res ε β) :
    ((pure a : Prog Op Res ε α) >>= f) = f a := rfl

@[simp] theorem throw_bind (e : ε) (f : α → Prog Op Res ε β) :
    ((throw e : Prog Op Res ε α) >>= f) = throw e := rfl

@[simp] theorem lift_ok_bind (a : α) (f : α → Prog Op Res ε β) :
    (lift (.ok a) : Prog Op Res ε α) >>= f = f a := rfl

@[simp] theorem lift_error_bind (e : ε) (f : α → Prog Op Res ε β) :
    (lift (.error e) : Prog Op Res ε α) >>= f = throw e := rfl

/-- Continuing on an outcome taken as a value. -/
theorem attempt_bind (m : Prog Op Res ε α) (f : Except ε α → Prog Op Res ε β) :
    m.attempt >>= f = m.handle f := by
  rw [attempt, bind_eq, handle_handle]
  rfl

/-! ## What the operations of a program are -/

section Tame

variable {allowed : Op → Prop} {possible : (o : Op) → Except ε (Res o) → Prop}
  {seen seen' : ε → Prop} {Q : α → Prop} {R : β → Prop}

/-- While each operation answers what is `possible`, the program performs only `allowed`
operations, its value satisfies `Q`, and an exception it ends in is one of `seen` or one that
an operation answered. -/
def Tame (allowed : Op → Prop) (possible : (o : Op) → Except ε (Res o) → Prop) (Q : α → Prop) :
    (ε → Prop) → Prog Op Res ε α → Prop
  | _, done (.ok a) => Q a
  | seen, done (.error e) => seen e
  | seen, op o k => allowed o ∧
      ∀ r, possible o r → Tame allowed possible Q (fun e => seen e ∨ r = .error e) (k r)

theorem Tame.mono {m : Prog Op Res ε α} (h : Tame allowed possible Q seen m)
    (hseen : ∀ e, seen e → seen' e) : Tame allowed possible Q seen' m := by
  induction m generalizing seen seen' with
  | done r =>
    cases r with
    | ok a => exact h
    | error e => exact hseen e h
  | op o k ih =>
    exact ⟨h.1, fun r hr => ih r (h.2 r hr) fun e he => he.imp (hseen e) id⟩

theorem Tame.handle {m : Prog Op Res ε α} {f : Except ε α → Prog Op Res ε β}
    (h : Tame allowed possible Q seen m)
    (hok : ∀ a seen', (∀ e, seen e → seen' e) → Q a → Tame allowed possible R seen' (f (.ok a)))
    (herr : ∀ e seen', (∀ e, seen e → seen' e) → seen' e →
      Tame allowed possible R seen' (f (.error e))) :
    Tame allowed possible R seen (m.handle f) := by
  induction m generalizing seen with
  | done r =>
    cases r with
    | ok a => exact hok a seen (fun _ he => he) h
    | error e => exact herr e seen (fun _ he => he) h
  | op o k ih =>
    refine ⟨h.1, fun r hr => ih r (h.2 r hr) ?_ ?_⟩
    · exact fun a seen' hseen ha => hok a seen' (fun e he => hseen e (Or.inl he)) ha
    · exact fun e seen' hseen he => herr e seen' (fun e he => hseen e (Or.inl he)) he

theorem Tame.bind {m : Prog Op Res ε α} {f : α → Prog Op Res ε β}
    (h : Tame allowed possible Q seen m) (hf : ∀ a, Q a → Tame allowed possible R seen (f a)) :
    Tame allowed possible R seen (m >>= f) :=
  h.handle (fun a _ hseen ha => (hf a ha).mono hseen) fun _ _ _ he => he

/-- An operation, then a program that depends on what it answers. -/
theorem Tame.performBind {o : Op} {f : Res o → Prog Op Res ε α} (ho : allowed o)
    (hf : ∀ a, possible o (.ok a) → Tame allowed possible Q seen (f a)) :
    Tame allowed possible Q seen (Prog.perform o >>= f) := by
  refine ⟨ho, fun r hr => ?_⟩
  cases r with
  | ok a => exact (hf a hr).mono fun e he => Or.inl he
  | error e => exact Or.inr rfl

theorem Tame.perform {o : Op} (ho : allowed o) :
    Tame allowed possible (fun _ => True) seen (Prog.perform o : Prog Op Res ε (Res o)) := by
  refine ⟨ho, fun r _ => ?_⟩
  cases r with
  | ok a => trivial
  | error e => exact Or.inr rfl

theorem Tame.weaken {m : Prog Op Res ε α} {Q' : α → Prop} (h : Tame allowed possible Q seen m)
    (hQ : ∀ a, Q a → Q' a) : Tame allowed possible Q' seen m := by
  induction m generalizing seen with
  | done r =>
    cases r with
    | ok a => exact hQ a h
    | error e => exact h
  | op o k ih => exact ⟨h.1, fun r hr => ih r (h.2 r hr)⟩

theorem Tame.allow {allowed' : Op → Prop} {m : Prog Op Res ε α}
    (h : Tame allowed possible Q seen m) (ho : ∀ o, allowed o → allowed' o) :
    Tame allowed' possible Q seen m := by
  induction m generalizing seen with
  | done r =>
    cases r with
    | ok a => exact h
    | error e => exact h
  | op o k ih => exact ⟨ho o h.1, fun r hr => ih r (h.2 r hr)⟩

theorem Tame.finallyDo {m : Prog Op Res ε α} {fin : Prog Op Res ε Unit}
    (h : Tame allowed possible Q seen m)
    (hfin : Tame allowed possible (fun _ => True) seen fin) :
    Tame allowed possible Q seen (m.finallyDo fin) := by
  refine h.handle (fun a seen' hseen ha => ?_) fun e seen' hseen he => ?_
  · exact (hfin.mono hseen).bind (R := Q) fun _ _ => ha
  · exact (hfin.mono hseen).handle (fun _ seen'' hseen' _ => hseen' e he) fun _ _ _ he' => he'

end Tame

end Prog

end AgentRuntimeKit.Lib
