import AgentRuntimeKit.Lib.Gen

/-!
# Loops over the items of another generator

`async for` over the items of a source that ends or raises. Each item changes a state, may yield,
and may break the loop. `Consumes` says that the loop goes through some items; `consume_cases`
tells the three ways in which it ends.
-/

namespace AgentRuntimeKit.Lib

namespace Gen

variable {ε α σ δ : Type}

/-- The loop, and whether one of the items ended it. -/
def consume (step : σ → δ → Gen ε α (σ × Bool)) (ending : Except ε Unit) :
    List δ → σ → Gen ε α (σ × Bool)
  | [], s => do
    ofExcept ending
    pure (s, false)
  | d :: ds, s => do
    let next ← step s d
    if next.2 then pure next else consume step ending ds next.1

variable {step : σ → δ → Gen ε α (σ × Bool)} {ending : Except ε Unit}

/-- The loop goes through the items. -/
inductive Consumes (step : σ → δ → Gen ε α (σ × Bool)) : σ → List δ → σ → Prop
  | nil (s : σ) : Consumes step s [] s
  | cons {s s' s'' : σ} {d : δ} {ds : List δ} :
    (step s d).ending = .ok (s', false) → Consumes step s' ds s'' → Consumes step s (d :: ds) s''

theorem ending_bind_ok {β γ : Type} {m : Gen ε α β} {b : β} (h : m.ending = .ok b)
    (f : β → Gen ε α γ) : (m >>= f).ending = (f b).ending := by
  show (m.andThen f).ending = _
  rw [andThen, h]

theorem ending_bind_eq_ok {β γ : Type} {m : Gen ε α β} {f : β → Gen ε α γ} {c : γ}
    (h : (m >>= f).ending = .ok c) : ∃ b, m.ending = .ok b ∧ (f b).ending = .ok c := by
  cases hm : m.ending with
  | error e =>
    rw [ending_bind_error hm] at h
    cases h
  | ok b => exact ⟨b, rfl, (ending_bind_ok hm f).symm.trans h⟩

theorem consume_of_consumes {s s' : σ} {before : List δ} (h : Consumes step s before s')
    (rest : List δ) :
    (consume step ending (before ++ rest) s).ending = (consume step ending rest s').ending := by
  induction h with
  | nil s => rfl
  | @cons s s' s'' d ds hstep _ ih =>
    rw [List.cons_append, consume, ending_bind_ok hstep, if_neg Bool.false_ne_true]
    exact ih

/-- An item that breaks the loop. -/
theorem consume_of_stop {s s₁ s₂ : σ} {before after : List δ} {d : δ}
    (h : Consumes step s before s₁) (hd : (step s₁ d).ending = .ok (s₂, true)) :
    (consume step ending (before ++ d :: after) s).ending = .ok (s₂, true) := by
  rw [consume_of_consumes h, consume, ending_bind_ok hd, if_pos rfl]
  rfl

/-- An item at which the loop raises. -/
theorem consume_of_error {s s₁ : σ} {before after : List δ} {d : δ} {e : ε}
    (h : Consumes step s before s₁) (hd : (step s₁ d).ending = .error e) :
    (consume step ending (before ++ d :: after) s).ending = .error e := by
  rw [consume_of_consumes h, consume]
  exact ending_bind_error hd _

/-- The loop goes through everything, or it meets an item that breaks it or that raises. -/
theorem consume_cases (step : σ → δ → Gen ε α (σ × Bool)) (datas : List δ) (s : σ) :
    (∃ s', Consumes step s datas s') ∨
      ∃ before d after s₁, datas = before ++ d :: after ∧ Consumes step s before s₁ ∧
        ((∃ s₂, (step s₁ d).ending = .ok (s₂, true)) ∨ ∃ e, (step s₁ d).ending = .error e) := by
  induction datas generalizing s with
  | nil => exact Or.inl ⟨s, .nil s⟩
  | cons d ds ih =>
    cases hd : (step s d).ending with
    | error e => exact Or.inr ⟨[], d, ds, s, rfl, .nil s, Or.inr ⟨e, hd⟩⟩
    | ok next =>
      obtain ⟨s', stop⟩ := next
      cases stop with
      | true => exact Or.inr ⟨[], d, ds, s, rfl, .nil s, Or.inl ⟨s', hd⟩⟩
      | false =>
        rcases ih s' with ⟨s'', h⟩ | ⟨before, d', after, s₁, rfl, h, hend⟩
        · exact Or.inl ⟨s'', .cons hd h⟩
        · exact Or.inr ⟨d :: before, d', after, s₁, rfl, .cons hd h, hend⟩

/-- A loop that goes through everything ends as its source does. -/
theorem consume_of_all {s s' : σ} {datas : List δ} (h : Consumes step s datas s') :
    (consume step ending datas s).ending = ending.map fun _ => (s', false) := by
  have hend : (consume step ending (datas ++ []) s).ending = _ := consume_of_consumes h []
  rw [List.append_nil] at hend
  rw [hend]
  cases ending with
  | ok u => rfl
  | error e => rfl

theorem consume_stop_iff {datas : List δ} {s s₂ : σ} :
    (consume step ending datas s).ending = .ok (s₂, true) ↔
      ∃ before d after s₁, datas = before ++ d :: after ∧ Consumes step s before s₁ ∧
        (step s₁ d).ending = .ok (s₂, true) := by
  constructor
  · intro h
    rcases consume_cases step datas s with
      ⟨s', hall⟩ | ⟨before, d, after, s₁, rfl, hbefore, ⟨s₂', hd⟩ | ⟨e, hd⟩⟩
    · rw [consume_of_all hall] at h
      cases ending with
      | ok u => cases h
      | error e => cases h
    · rw [consume_of_stop hbefore hd] at h
      exact ⟨before, d, after, s₁, rfl, hbefore, hd.trans h⟩
    · rw [consume_of_error hbefore hd] at h
      cases h
  · rintro ⟨before, d, after, s₁, rfl, hbefore, hd⟩
    exact consume_of_stop hbefore hd

theorem consume_error_iff {datas : List δ} {s : σ} {e : ε} :
    (consume step ending datas s).ending = .error e ↔
      (∃ before d after s₁, datas = before ++ d :: after ∧ Consumes step s before s₁ ∧
        (step s₁ d).ending = .error e) ∨
      ((∃ s', Consumes step s datas s') ∧ ending = .error e) := by
  constructor
  · intro h
    rcases consume_cases step datas s with
      ⟨s', hall⟩ | ⟨before, d, after, s₁, rfl, hbefore, ⟨s₂, hd⟩ | ⟨e', hd⟩⟩
    · rw [consume_of_all hall] at h
      cases ending with
      | ok u => cases h
      | error e' =>
        rw [Except.error.inj h]
        exact Or.inr ⟨⟨s', hall⟩, rfl⟩
    · rw [consume_of_stop hbefore hd] at h
      cases h
    · rw [consume_of_error hbefore hd] at h
      rw [Except.error.inj h] at hd
      exact Or.inl ⟨before, d, after, s₁, rfl, hbefore, hd⟩
  · rintro (⟨before, d, after, s₁, rfl, hbefore, hd⟩ | ⟨⟨s', hall⟩, rfl⟩)
    · exact consume_of_error hbefore hd
    · exact consume_of_all hall

/-! ### What is yielded -/

/-- Every item that is yielded satisfies `P`. -/
def Yields {β : Type} (P : α → Prop) (g : Gen ε α β) : Prop := ∀ a ∈ g.yields, P a

theorem Yields.ofExcept {β : Type} {P : α → Prop} (x : Except ε β) : Yields P (ofExcept x) :=
  fun _ h => absurd h List.not_mem_nil

theorem Yields.pure {β : Type} {P : α → Prop} (b : β) : Yields P (Pure.pure b : Gen ε α β) :=
  fun _ h => absurd h List.not_mem_nil

theorem Yields.raise {β : Type} {P : α → Prop} (e : ε) : Yields P (raise e : Gen ε α β) :=
  fun _ h => absurd h List.not_mem_nil

theorem Yields.bind {β γ : Type} {P : α → Prop} {m : Gen ε α β} {f : β → Gen ε α γ}
    (hm : Yields P m) (hf : ∀ b, Yields P (f b)) : Yields P (m >>= f) := by
  intro a ha
  obtain ⟨ys, r⟩ := m
  cases r with
  | error e => exact hm a ha
  | ok b =>
    rcases List.mem_append.mp ha with ha | ha
    · exact hm a ha
    · exact hf b a ha

theorem Yields.forM {P : α → Prop} {f : δ → Gen ε α PUnit} {xs : List δ}
    (h : ∀ x, Yields P (f x)) : Yields P (xs.forM f) := by
  induction xs with
  | nil => exact Yields.pure _
  | cons x xs ih => exact Yields.bind (h x) fun _ => ih

theorem Yields.foldlM {P : α → Prop} {f : σ → δ → Gen ε α σ} {xs : List δ}
    (h : ∀ s x, Yields P (f s x)) (s : σ) : Yields P (xs.foldlM f s) := by
  induction xs generalizing s with
  | nil => exact Yields.pure _
  | cons x xs ih =>
    rw [List.foldlM_cons]
    exact Yields.bind (h s x) fun s' => ih s'

theorem Yields.consume {P : α → Prop} (h : ∀ s d, Yields P (step s d)) (datas : List δ) (s : σ) :
    Yields P (consume step ending datas s) := by
  induction datas generalizing s with
  | nil => exact (Yields.ofExcept _).bind fun _ => .pure _
  | cons d ds ih =>
    refine (h s d).bind fun next => ?_
    split
    · exact .pure _
    · exact ih next.1

end Gen

end AgentRuntimeKit.Lib
