import AgentRuntimeKit.Lib.Except

/-!
# Asynchronous generators

What an asynchronous generator does, from its first item to its end: the items it yields, in
order, and the value or the exception it ends with. A `for` loop over its input is
`List.foldlM`, whose laws apply because `Gen` is a lawful monad.
-/

namespace AgentRuntimeKit.Lib

/-- A generator of items `α` that ends with a value of `β` or raises an exception of `ε`. -/
structure Gen (ε α β : Type) where
  yields : List α
  ending : Except ε β

namespace Gen

variable {ε α β γ : Type}

/-- `raise e`. -/
def raise (e : ε) : Gen ε α β := ⟨[], .error e⟩

/-- `yield a`. -/
def yield (a : α) : Gen ε α Unit := ⟨[a], .ok ()⟩

/-- A computation that may raise. -/
def ofExcept (r : Except ε β) : Gen ε α β := ⟨[], r⟩

/-- Go on after a value; an exception ends the generator. -/
def andThen (m : Gen ε α β) (f : β → Gen ε α γ) : Gen ε α γ :=
  match m.ending with
  | .ok b => ⟨m.yields ++ (f b).yields, (f b).ending⟩
  | .error e => ⟨m.yields, .error e⟩

instance : Monad (Gen ε α) where
  pure b := ⟨[], .ok b⟩
  bind := andThen

theorem bind_def (m : Gen ε α β) (f : β → Gen ε α γ) : m >>= f = m.andThen f := rfl

theorem pure_def (b : β) : (pure b : Gen ε α β) = ⟨[], .ok b⟩ := rfl

theorem andThen_ok {ys : List α} {b : β} (f : β → Gen ε α γ) :
    andThen ⟨ys, .ok b⟩ f = ⟨ys ++ (f b).yields, (f b).ending⟩ := rfl

theorem andThen_pure (m : Gen ε α β) : m.andThen pure = m := by
  obtain ⟨ys, r⟩ := m
  cases r with
  | error e => rfl
  | ok b =>
    rw [andThen_ok, pure_def, List.append_nil]

theorem andThen_assoc {δ : Type} (m : Gen ε α β) (f : β → Gen ε α γ) (g : γ → Gen ε α δ) :
    (m.andThen f).andThen g = m.andThen fun b => (f b).andThen g := by
  obtain ⟨ys, r⟩ := m
  cases r with
  | error e => rfl
  | ok b =>
    rw [andThen_ok, andThen_ok]
    cases h : (f b).ending with
    | error e => simp only [andThen, h]
    | ok c => simp only [andThen, h, List.append_assoc]

instance : LawfulMonad (Gen ε α) :=
  LawfulMonad.mk' (Gen ε α) andThen_pure (fun _ _ => rfl) andThen_assoc

/-- What raises does not go on. -/
@[simp] theorem raise_bind (e : ε) (f : β → Gen ε α γ) :
    (raise e : Gen ε α β) >>= f = raise e := rfl

theorem ok_bind (ys : List α) (b : β) (f : β → Gen ε α γ) :
    (⟨ys, .ok b⟩ : Gen ε α β) >>= f = ⟨ys ++ (f b).yields, (f b).ending⟩ := rfl

theorem yield_bind (a : α) (f : Unit → Gen ε α β) :
    yield a >>= f = ⟨a :: (f ()).yields, (f ()).ending⟩ := rfl

/-- An exception of the first part is the end. -/
theorem ending_bind_error {m : Gen ε α β} {e : ε} (h : m.ending = .error e) (f : β → Gen ε α γ) :
    (m >>= f).ending = .error e := by
  show (m.andThen f).ending = .error e
  rw [andThen, h]

theorem bind_of_ok {m : Gen ε α β} {ys : List α} {b : β} (h : m = ⟨ys, .ok b⟩)
    (f : β → Gen ε α γ) : m >>= f = ⟨ys ++ (f b).yields, (f b).ending⟩ := by
  rw [h, ok_bind]

/-! ### What a generator may raise -/

theorem raises_bind {P : ε → Prop} {m : Gen ε α β} {f : β → Gen ε α γ}
    (hm : Raises P m.ending) (hf : ∀ b, m.ending = .ok b → Raises P (f b).ending) :
    Raises P (m >>= f).ending := by
  obtain ⟨ys, r⟩ := m
  cases r with
  | error e => exact Raises.error (hm e rfl)
  | ok b => exact hf b rfl

theorem raises_forM {P : ε → Prop} {δ : Type} {f : δ → Gen ε α PUnit} {xs : List δ}
    (h : ∀ x ∈ xs, Raises P (f x).ending) : Raises P (xs.forM f).ending := by
  induction xs with
  | nil => exact Raises.ok _
  | cons x xs ih =>
    exact raises_bind (h x List.mem_cons_self) fun _ _ =>
      ih fun y hy => h y (List.mem_cons_of_mem _ hy)

theorem raises_foldlM {P : ε → Prop} {σ δ : Type} {f : σ → δ → Gen ε α σ} {xs : List δ}
    (h : ∀ s, ∀ x ∈ xs, Raises P (f s x).ending) (s : σ) : Raises P (xs.foldlM f s).ending := by
  induction xs generalizing s with
  | nil => exact Raises.ok _
  | cons x xs ih =>
    rw [List.foldlM_cons]
    exact raises_bind (h s x List.mem_cons_self) fun s' _ =>
      ih (fun s y hy => h s y (List.mem_cons_of_mem _ hy)) s'

end Gen

end AgentRuntimeKit.Lib
