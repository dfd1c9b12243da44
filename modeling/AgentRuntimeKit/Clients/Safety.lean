import AgentRuntimeKit.Clients.Streaming
import AgentRuntimeKit.Lib.GenLoop

/-!
# Valid results and safe failures

What every answer of a provider should become, and when it does not: every handler of the adapters
lets a `RecursionError` through, so that a call is safe exactly if no text or value that it reaches
nests too deeply. `TooDeep` has a rule for each way in which such a call is put together.
-/

namespace AgentRuntimeKit

open Lib

-- ---------------------------------------------------------------------------
-- What an answer becomes
-- ---------------------------------------------------------------------------

/-- A valid canonical result; its counts are natural numbers by their type. -/
structure ModelResult.Canonical (r : ModelResult) : Prop where
  role : r.message.role = .assistant
  parts : callsMatch r.message.toolCalls r.toolCalls = true
  ids : (r.toolCalls.map ToolCall.id).Nodup
  json : ∀ call ∈ r.toolCalls, (PyValue.dict call.arguments).isJson = true

/-- What the validators of a result amount to. -/
theorem ModelResult.canonical (r : ModelResult) : r.Canonical where
  role := r.assistant
  parts := by
    have h := r.valid
    rw [validToolCalls, Bool.and_eq_true] at h
    exact h.2
  ids := r.nodup_ids
  json call _ := call.validArguments

/-- A plain call ends with a valid result or with a `ProviderError`. -/
def SafeAnswer (x : Except Exn ModelResult) : Prop := (∃ r, x = .ok r ∧ r.Canonical) ∨ Rejects x

/-- A stream yields deltas and ends with a `ProviderError`, or with one valid result as its last
event, and that only when the provider has told its success. -/
def SafeStream (told : Prop) (g : Gen Exn ModelStreamEvent Unit) : Prop :=
  (told ∧ ∃ (deltas : List PyStr) (r : ModelResult), r.Canonical ∧
    g = ⟨deltas.map .textDelta ++ [.completed r.object], .ok ()⟩) ∨
  ∃ (deltas : List PyStr) (e : Exn), g = ⟨deltas.map .textDelta, .error e⟩ ∧ e.isProvider = true

-- ---------------------------------------------------------------------------
-- Too deep
-- ---------------------------------------------------------------------------

section TooDeep

variable {α β : Type} {x : Except Exn α}

/-- What raises only exceptions that are caught does not raise a `RecursionError`. -/
theorem not_tooDeep_of_raises {classes : List PyClass}
    (hclasses : ∀ message, (Exn.py .recursionError message).isOneOf classes = false)
    (h : Raises (PyJson.silent.Caught classes) x) : ¬TooDeep x := by
  rintro ⟨e, he, hr⟩
  rcases h e he with (hp | hdeep) | hcaught
  · rw [not_recursion_of_provider hp] at hr
    cases hr
  · exact not_deep_silent e hdeep
  · cases e with
    | py cls message =>
      cases cls with
      | recursionError =>
        rw [hclasses message] at hcaught
        cases hcaught
      | _ => cases hr
    | _ => cases hr

theorem not_tooDeep_of_provider (h : RaisesProvider x) : ¬TooDeep x := by
  rintro ⟨e, he, hr⟩
  rw [not_recursion_of_provider (h e he)] at hr
  cases hr

theorem tooDeep_bind {f : α → Except Exn β} :
    TooDeep (x >>= f) ↔ TooDeep x ∨ ∃ a, x = .ok a ∧ TooDeep (f a) := by
  cases x with
  | error e =>
    show TooDeep (.error e : Except Exn β) ↔ _
    rw [tooDeep_error, tooDeep_error]
    constructor
    · exact Or.inl
    · rintro (h | ⟨a, ha, -⟩)
      · exact h
      · cases ha
  | ok a =>
    constructor
    · intro h
      exact Or.inr ⟨a, rfl, h⟩
    · rintro (h | ⟨a', ha, h⟩)
      · exact absurd h (not_tooDeep_ok a)
      · rw [Except.ok.inj ha]
        exact h

/-- A first step that cannot be the reason. -/
theorem tooDeep_bind_of_not {f : α → Except Exn β} (h : ¬TooDeep x) :
    TooDeep (x >>= f) ↔ ∃ a, x = .ok a ∧ TooDeep (f a) := by
  rw [tooDeep_bind]
  exact or_iff_right h

/-- A last step that cannot be the reason. -/
theorem tooDeep_bind_of_forall_not {f : α → Except Exn β} (h : ∀ a, ¬TooDeep (f a)) :
    TooDeep (x >>= f) ↔ TooDeep x := by
  rw [tooDeep_bind]
  refine or_iff_left ?_
  rintro ⟨a, -, hdeep⟩
  exact h a hdeep

/-- The first step of a loop that raises. -/
theorem tooDeep_mapM {f : α → Except Exn β} {xs : List α} :
    TooDeep (xs.mapM f) ↔ ∃ before x after, xs = before ++ x :: after ∧
      (∀ y ∈ before, ∃ b, f y = .ok b) ∧ TooDeep (f x) := by
  constructor
  · rintro ⟨e, he, hr⟩
    obtain ⟨before, x, after, hxs, hbefore, hx⟩ := mapM_eq_error.mp he
    exact ⟨before, x, after, hxs, hbefore, e, hx, hr⟩
  · rintro ⟨before, x, after, hxs, hbefore, e, hx, hr⟩
    exact ⟨e, mapM_eq_error.mpr ⟨before, x, after, hxs, hbefore, hx⟩, hr⟩

end TooDeep

/-! ## Generators -/

section Gen

variable {α β σ δ : Type}

theorem tooDeep_gen_bind {m : Gen Exn α β} {γ : Type} {f : β → Gen Exn α γ} :
    TooDeep (m >>= f).ending ↔
      TooDeep m.ending ∨ ∃ b, m.ending = .ok b ∧ TooDeep (f b).ending := by
  obtain ⟨ys, r⟩ := m
  cases r with
  | error e =>
    show TooDeep (.error e : Except Exn γ) ↔ TooDeep (.error e : Except Exn β) ∨ _
    rw [tooDeep_error, tooDeep_error]
    constructor
    · exact Or.inl
    · rintro (h | ⟨b, hb, -⟩)
      · exact h
      · cases hb
  | ok b =>
    constructor
    · intro h
      exact Or.inr ⟨b, rfl, h⟩
    · rintro (h | ⟨b', hb, h⟩)
      · exact absurd h (not_tooDeep_ok b)
      · rw [Except.ok.inj hb]
        exact h

theorem tooDeep_concluded (x : Except Exn ModelResult) :
    TooDeep (concluded x).ending ↔ TooDeep x := by
  cases x with
  | ok r => exact iff_of_false (not_tooDeep_ok ()) (not_tooDeep_ok r)
  | error e =>
    show TooDeep (.error e : Except Exn Unit) ↔ _
    rw [tooDeep_error, tooDeep_error]

/-- The item at which a loop over a source that ends raises. -/
theorem tooDeep_consume {step : σ → δ → Gen Exn α (σ × Bool)} {datas : List δ} {s : σ} :
    TooDeep (Gen.consume step (.ok ()) datas s).ending ↔
      ∃ before d after s₁, datas = before ++ d :: after ∧ Gen.Consumes step s before s₁ ∧
        TooDeep (step s₁ d).ending := by
  constructor
  · rintro ⟨e, he, hr⟩
    rcases Gen.consume_error_iff.mp he with ⟨before, d, after, s₁, hdatas, hbefore, hd⟩ | ⟨-, hend⟩
    · exact ⟨before, d, after, s₁, hdatas, hbefore, e, hd, hr⟩
    · cases hend
  · rintro ⟨before, d, after, s₁, hdatas, hbefore, e, hd, hr⟩
    exact ⟨e, Gen.consume_error_iff.mpr (Or.inl ⟨before, d, after, s₁, hdatas, hbefore, hd⟩), hr⟩

end Gen

-- ---------------------------------------------------------------------------
-- Safety
-- ---------------------------------------------------------------------------

variable {json : PyJson}

/-- A call that raises nothing else is safe unless something nests too deeply. -/
theorem safeAnswer_iff {x : Except Exn ModelResult} (h : Raises json.Safe x) :
    SafeAnswer x ↔ ¬TooDeep x := by
  cases x with
  | ok r => exact iff_of_true (Or.inl ⟨r, rfl, r.canonical⟩) (not_tooDeep_ok r)
  | error e =>
    rw [tooDeep_error]
    constructor
    · rintro (⟨r, hr, -⟩ | ⟨e', he, hp⟩)
      · cases hr
      · cases he
        rw [not_recursion_of_provider hp]
        exact Bool.false_ne_true
    · intro hno
      rcases h e rfl with hp | hdeep
      · exact Or.inr ⟨e, rfl, hp⟩
      · exact absurd hdeep.recursion hno

/-- Only deltas are yielded. -/
def OnlyDeltas {β : Type} (g : Gen Exn ModelStreamEvent β) : Prop :=
  g.Yields fun event => ∃ delta, event = .textDelta delta

theorem deltas_of_only {β : Type} {g : Gen Exn ModelStreamEvent β} (h : OnlyDeltas g) :
    ∃ deltas : List PyStr, g.yields = deltas.map .textDelta := by
  obtain ⟨ys, r⟩ := g
  induction ys with
  | nil => exact ⟨[], rfl⟩
  | cons y ys ih =>
    obtain ⟨delta, rfl⟩ := h y List.mem_cons_self
    obtain ⟨deltas, hdeltas⟩ := ih fun a ha => h a (List.mem_cons_of_mem _ ha)
    exact ⟨delta :: deltas, congrArg (ModelStreamEvent.textDelta delta :: ·) hdeltas⟩

theorem onlyDeltas_yieldText (delta : PyStr) : OnlyDeltas (yieldText delta) := by
  rw [yieldText]
  split
  · intro event hevent
    exact ⟨delta, List.mem_singleton.mp hevent⟩
  · exact Gen.Yields.raise _

/-- A stream whose loop yields deltas, and that ends with what is made of the state of the loop. -/
theorem safeStream_iff {σ : Type} {loop : Gen Exn ModelStreamEvent σ}
    {finish : σ → Except Exn ModelResult} {told : Prop} (hloop : OnlyDeltas loop)
    (hsafe : Raises json.Safe (loop >>= fun s => concluded (finish s)).ending)
    (htold : ∀ s r, loop.ending = .ok s → finish s = .ok r → told) :
    SafeStream told (loop >>= fun s => concluded (finish s)) ↔
      ¬TooDeep (loop >>= fun s => concluded (finish s)).ending := by
  obtain ⟨deltas, hdeltas⟩ := deltas_of_only hloop
  have herror {e : Exn} {g : Gen Exn ModelStreamEvent Unit}
      (hg : g = ⟨deltas.map .textDelta, .error e⟩) (hsafe : Raises json.Safe g.ending) :
      SafeStream told g ↔ ¬TooDeep g.ending := by
    rw [hg] at hsafe ⊢
    rw [tooDeep_error]
    constructor
    · rintro (⟨-, ds, r, -, h⟩ | ⟨ds, e', h, hp⟩)
      · have hending := congrArg Gen.ending h
        cases hending
      · have hending : Except.error e = Except.error e' := congrArg Gen.ending h
        rw [Except.error.inj hending, not_recursion_of_provider hp]
        exact Bool.false_ne_true
    · intro hno
      rcases hsafe e rfl with hp | hdeep
      · exact Or.inr ⟨deltas, e, rfl, hp⟩
      · exact absurd hdeep.recursion hno
  obtain ⟨ys, ending⟩ := loop
  have hys : ys = deltas.map .textDelta := hdeltas
  cases ending with
  | error e =>
    have hend : (Gen.mk ys (.error e) >>= fun s => concluded (finish s)) =
        ⟨deltas.map .textDelta, .error e⟩ := by
      rw [hys]
      rfl
    exact herror hend hsafe
  | ok s =>
    cases hfinish : finish s with
    | error e =>
      have hend : (Gen.mk ys (.ok s) >>= fun s => concluded (finish s)) =
          ⟨deltas.map .textDelta, .error e⟩ := by
        rw [Gen.ok_bind, hfinish, hys]
        show Gen.mk (_ ++ []) _ = _
        rw [List.append_nil]
        rfl
      exact herror hend hsafe
    | ok r =>
      rw [Gen.ok_bind, hfinish, concluded_ok, hys]
      exact iff_of_true (Or.inl ⟨htold s r rfl hfinish, deltas, r, r.canonical, rfl⟩)
        (not_tooDeep_ok ())

end AgentRuntimeKit
