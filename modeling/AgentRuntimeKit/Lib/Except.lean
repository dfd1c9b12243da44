import Mathlib.Data.List.Forall2

/-!
# Computations that may raise

Inversion of `Except` programs, and `Raises`: every exception of a computation satisfies a
predicate. `Raises` has a rule for each way in which such a program is put together.
-/

namespace AgentRuntimeKit.Lib

variable {ε α β : Type}

theorem bind_eq_ok {x : Except ε α} {f : α → Except ε β} {b : β} :
    (x >>= f) = .ok b ↔ ∃ a, x = .ok a ∧ f a = .ok b := by
  cases x with
  | error e =>
    constructor
    · intro h
      cases h
    · rintro ⟨a, h, -⟩
      cases h
  | ok a =>
    constructor
    · intro h
      exact ⟨a, rfl, h⟩
    · rintro ⟨a', h, hf⟩
      rw [Except.ok.inj h]
      exact hf

/-- A step that succeeds. -/
theorem bind_of_ok {x : Except ε α} {a : α} (h : x = .ok a) (f : α → Except ε β) :
    (x >>= f) = f a := by
  rw [h]
  rfl

/-- A step that raises. -/
theorem bind_of_error {x : Except ε α} {e : ε} (h : x = .error e) (f : α → Except ε β) :
    (x >>= f) = .error e := by
  rw [h]
  rfl

theorem mapError_eq_ok {x : Except ε α} {f : ε → ε} {a : α} :
    x.mapError f = .ok a ↔ x = .ok a := by
  cases x with
  | error e =>
    constructor
    · intro h
      cases h
    · intro h
      cases h
  | ok a' => exact Iff.rfl

/-- A handler around each step is a handler around the loop: nothing runs after an exception. -/
theorem mapM_mapError {f : α → Except ε β} {g : ε → ε} (xs : List α) :
    (xs.mapM fun x => (f x).mapError g) = (xs.mapM f).mapError g := by
  induction xs with
  | nil => rfl
  | cons x xs ih =>
    rw [List.mapM_cons, List.mapM_cons, ih]
    cases f x with
    | error e => rfl
    | ok b =>
      cases xs.mapM f with
      | error e => rfl
      | ok bs => rfl

theorem mapM_congr_of_forall₂ {γ : Type} {R : α → γ → Prop} {f : α → Except ε β}
    {g : γ → Except ε β} {xs : List α} {ys : List γ} (h : List.Forall₂ R xs ys)
    (hfg : ∀ x y, R x y → f x = g y) : xs.mapM f = ys.mapM g := by
  induction h with
  | nil => rfl
  | cons hxy _ ih => rw [List.mapM_cons, List.mapM_cons, hfg _ _ hxy, ih]

theorem mapM_congr_of_mem {f g : α → Except ε β} {xs : List α} (h : ∀ x ∈ xs, f x = g x) :
    xs.mapM f = xs.mapM g := by
  induction xs with
  | nil => rfl
  | cons x xs ih =>
    rw [List.mapM_cons, List.mapM_cons, h x List.mem_cons_self,
      ih fun y hy => h y (List.mem_cons_of_mem _ hy)]

/-- Loops whose steps differ only where the first raises `e` differ only in raising `e`. -/
theorem mapM_eq_or_error {f g : α → Except ε β} {e : ε} {xs : List α}
    (h : ∀ x ∈ xs, f x = g x ∨ f x = .error e) : xs.mapM f = xs.mapM g ∨ xs.mapM f = .error e := by
  induction xs with
  | nil => exact Or.inl rfl
  | cons x xs ih =>
    rw [List.mapM_cons, List.mapM_cons]
    rcases h x List.mem_cons_self with hx | hx
    · rw [hx]
      cases g x with
      | error e' => exact Or.inl rfl
      | ok b =>
        rcases ih fun y hy => h y (List.mem_cons_of_mem _ hy) with hxs | hxs
        · rw [hxs]
          exact Or.inl rfl
        · rw [hxs]
          exact Or.inr rfl
    · rw [hx]
      exact Or.inr rfl

/-- A loop that ends has raised nowhere. -/
theorem ok_of_mapM {f : α → Except ε β} {xs : List α} {bs : List β} (h : xs.mapM f = .ok bs)
    {x : α} (hx : x ∈ xs) : ∃ b, f x = .ok b := by
  induction xs generalizing bs with
  | nil => exact absurd hx List.not_mem_nil
  | cons y xs ih =>
    rw [List.mapM_cons] at h
    obtain ⟨b, hb, h⟩ := bind_eq_ok.mp h
    obtain ⟨bs', hbs, -⟩ := bind_eq_ok.mp h
    rcases List.mem_cons.mp hx with rfl | hx
    · exact ⟨b, hb⟩
    · exact ih hbs hx

/-- The results of a loop, one for each element. -/
theorem forall₂_of_mapM {f : α → Except ε β} {xs : List α} {ys : List β} (h : xs.mapM f = .ok ys) :
    List.Forall₂ (fun x y => f x = .ok y) xs ys := by
  induction xs generalizing ys with
  | nil =>
    cases h
    exact .nil
  | cons x xs ih =>
    rw [List.mapM_cons] at h
    obtain ⟨y, hy, h⟩ := bind_eq_ok.mp h
    obtain ⟨ys', hys, h⟩ := bind_eq_ok.mp h
    cases h
    exact .cons hy (ih hys)

/-- A loop whose steps all succeed ends. -/
theorem exists_mapM {f : α → Except ε β} {xs : List α} (h : ∀ x ∈ xs, ∃ y, f x = .ok y) :
    ∃ ys, xs.mapM f = .ok ys := by
  induction xs with
  | nil => exact ⟨[], rfl⟩
  | cons x xs ih =>
    obtain ⟨y, hy⟩ := h x List.mem_cons_self
    obtain ⟨ys, hys⟩ := ih fun z hz => h z (List.mem_cons_of_mem x hz)
    refine ⟨y :: ys, ?_⟩
    rw [List.mapM_cons, bind_of_ok hy, bind_of_ok hys]
    rfl

/-- What is read off each result can be read off the elements. -/
theorem flatMap_of_mapM {γ : Type} {f : α → Except ε β} {g : β → List γ} {g' : α → List γ}
    {xs : List α} {ys : List β} (h : xs.mapM f = .ok ys)
    (hread : ∀ x ∈ xs, ∀ y, f x = .ok y → g y = g' x) : ys.flatMap g = xs.flatMap g' := by
  induction forall₂_of_mapM h with
  | nil => rfl
  | @cons x y xs ys hxy _ ih =>
    rw [List.mapM_cons] at h
    obtain ⟨_, -, h⟩ := bind_eq_ok.mp h
    obtain ⟨ys', hys, h⟩ := bind_eq_ok.mp h
    cases h
    rw [List.flatMap_cons, List.flatMap_cons, hread x List.mem_cons_self y hxy,
      ih hys fun z hz => hread z (List.mem_cons_of_mem x hz)]

theorem filterMap_of_mapM {γ : Type} {f : α → Except ε β} {g : β → Option γ} {g' : α → Option γ}
    {xs : List α} {ys : List β} (h : xs.mapM f = .ok ys)
    (hread : ∀ x ∈ xs, ∀ y, f x = .ok y → g y = g' x) : ys.filterMap g = xs.filterMap g' := by
  rw [List.filterMap_eq_flatMap_toList, List.filterMap_eq_flatMap_toList]
  exact flatMap_of_mapM h fun x hx y hxy => congrArg Option.toList (hread x hx y hxy)

/-- What a loop raises is what its first failing step raises. -/
theorem mapM_eq_error {f : α → Except ε β} {xs : List α} {e : ε} :
    xs.mapM f = .error e ↔ ∃ before x after, xs = before ++ x :: after ∧
      (∀ y ∈ before, ∃ b, f y = .ok b) ∧ f x = .error e := by
  induction xs with
  | nil =>
    constructor
    · intro h
      cases h
    · rintro ⟨before, x, after, h, -⟩
      exact absurd h.symm (by simp)
  | cons y xs ih =>
    rw [List.mapM_cons]
    cases hy : f y with
    | error e' =>
      show (.error e' : Except ε (List β)) = .error e ↔ _
      constructor
      · intro h
        rw [Except.error.inj h] at hy
        exact ⟨[], y, xs, rfl, fun _ hmem => absurd hmem List.not_mem_nil, hy⟩
      · rintro ⟨before, x, after, h, hbefore, hx⟩
        cases before with
        | nil =>
          obtain ⟨rfl, -⟩ := List.cons.inj h
          rw [hy] at hx
          rw [Except.error.inj hx]
        | cons z before =>
          obtain ⟨rfl, -⟩ := List.cons.inj h
          obtain ⟨b, hb⟩ := hbefore y List.mem_cons_self
          rw [hy] at hb
          cases hb
    | ok b =>
      have hrest : ((.ok b : Except ε β) >>= fun b => xs.mapM f >>= fun bs => Pure.pure (b :: bs)) =
          .error e ↔ xs.mapM f = .error e := by
        show (xs.mapM f >>= fun bs => Pure.pure (b :: bs)) = .error e ↔ _
        cases xs.mapM f with
        | error e' => exact Iff.of_eq (by simp [Except.error.injEq, bind, Except.bind])
        | ok bs => exact iff_of_false (fun h => by cases h) fun h => by cases h
      rw [hrest, ih]
      constructor
      · rintro ⟨before, x, after, rfl, hbefore, hx⟩
        refine ⟨y :: before, x, after, rfl, fun z hz => ?_, hx⟩
        rcases List.mem_cons.mp hz with rfl | hz
        · exact ⟨b, hy⟩
        · exact hbefore z hz
      · rintro ⟨before, x, after, h, hbefore, hx⟩
        cases before with
        | nil =>
          obtain ⟨rfl, -⟩ := List.cons.inj h
          rw [hy] at hx
          cases hx
        | cons z before =>
          obtain ⟨rfl, rfl⟩ := List.cons.inj h
          exact ⟨before, x, after, rfl, fun w hw => hbefore w (List.mem_cons_of_mem _ hw), hx⟩

/-- Every exception of the computation satisfies `P`. -/
def Raises (P : ε → Prop) (x : Except ε α) : Prop := ∀ e, x = .error e → P e

namespace Raises

variable {P Q : ε → Prop}

theorem ok (a : α) : Raises P (.ok a : Except ε α) := fun e h => by cases h

theorem pure (a : α) : Raises P (Pure.pure a : Except ε α) := fun e h => by cases h

theorem error {e : ε} (h : P e) : Raises P (.error e : Except ε α) := fun e' he => by
  cases he
  exact h

theorem mono {x : Except ε α} (h : Raises P x) (hPQ : ∀ e, P e → Q e) : Raises Q x :=
  fun e he => hPQ e (h e he)

theorem bind {x : Except ε α} {f : α → Except ε β} (hx : Raises P x)
    (hf : ∀ a, x = .ok a → Raises P (f a)) : Raises P (x >>= f) := by
  intro e he
  cases x with
  | error e' => exact hx e (Except.error.inj he ▸ rfl)
  | ok a => exact hf a rfl e he

/-- Exceptions that a handler replaces. -/
theorem mapError {x : Except ε α} {f : ε → ε} (h : Raises (fun e => P (f e)) x) :
    Raises P (x.mapError f) := by
  intro e he
  cases x with
  | error e' =>
    cases he
    exact h e' rfl
  | ok a => cases he

theorem mapM {f : α → Except ε β} {xs : List α} (h : ∀ x ∈ xs, Raises P (f x)) :
    Raises P (xs.mapM f) := by
  induction xs with
  | nil => exact pure _
  | cons x xs ih =>
    rw [List.mapM_cons]
    refine (h x List.mem_cons_self).bind fun b _ => ?_
    exact (ih fun y hy => h y (List.mem_cons_of_mem _ hy)).bind fun bs _ => pure _

theorem foldlM {f : β → α → Except ε β} {xs : List α} (h : ∀ b, ∀ x ∈ xs, Raises P (f b x))
    (b : β) : Raises P (xs.foldlM f b) := by
  induction xs generalizing b with
  | nil => exact pure _
  | cons x xs ih =>
    rw [List.foldlM_cons]
    refine (h b x List.mem_cons_self).bind fun b' _ => ?_
    exact ih (fun b y hy => h b y (List.mem_cons_of_mem _ hy)) b'

end Raises

/-- Inversion, where a state is kept beside the exception. -/
theorem bind_run_cases {σ : Type} {m : ExceptT ε (StateM σ) α} {f : α → ExceptT ε (StateM σ) β}
    {s s' : σ} {r : Except ε β} (h : (m >>= f).run s = (r, s')) :
    (∃ e, m.run s = (.error e, s') ∧ r = .error e) ∨
      ∃ a s₁, m.run s = (.ok a, s₁) ∧ (f a).run s₁ = (r, s') := by
  cases hm : m.run s with
  | mk x s₁ =>
    have hbind : (m >>= f).run s = (ExceptT.bindCont f x) s₁ := by
      show (match m.run s with | (a, s) => ExceptT.bindCont f a s) = _
      rw [hm]
    rw [hbind] at h
    cases x with
    | error e =>
      have hpair := Prod.mk.inj h
      exact Or.inl ⟨e, by rw [hpair.2], hpair.1.symm⟩
    | ok a => exact Or.inr ⟨a, s₁, rfl, h⟩

end AgentRuntimeKit.Lib
