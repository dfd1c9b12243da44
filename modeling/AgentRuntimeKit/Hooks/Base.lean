import AgentRuntimeKit.Model.Messages

/-!
# Lifecycle hooks

`hooks/base.py`. A hook is code of the host with a state of its own, and it may raise anything.

## Results

* `HookManager.run_ok`     — a run that ends normally has run every hook, and each of them passed.
* `HookManager.run_raises` — a run that raises has stopped at the hook that raised.
-/

namespace AgentRuntimeKit

open Lib

/-- `HookPhase` of `hooks/base.py`. -/
inductive LifecyclePhase
  | beforeModel
  | afterModel
  | beforeTool
  | afterTool
deriving DecidableEq, Repr

structure HookEvent where
  phase : LifecyclePhase
  context : RuntimeContext
  messages : List Message
  toolName : Option PyStr
  toolCallId : Option PyStr
  toolArguments : Option (List (PyKey × PyValue))
  toolResult : Option ToolResult

/-- A hook with states `σ`. -/
structure LifecycleHook (σ : Type) where
  name : String
  handle : HookEvent → σ → Except Exn Unit × σ

structure HookManager (σ : Type) where
  hooks : List (LifecycleHook σ)

namespace HookManager

variable {σ : Type}

/-- `register`. -/
def register (manager : HookManager σ) (hook : LifecycleHook σ) : HookManager σ :=
  ⟨manager.hooks ++ [hook]⟩

/-- `for hook in self._hooks`. -/
def runEach (event : HookEvent) : List (LifecycleHook σ) → σ → Except Exn Unit × σ
  | [], s => (.ok (), s)
  | hook :: rest, s =>
    match hook.handle event s with
    | (.ok (), s') => runEach event rest s'
    | (.error e, s') => (.error e, s')

/-- `run`. -/
def run (manager : HookManager σ) (event : HookEvent) (s : σ) : Except Exn Unit × σ :=
  runEach event manager.hooks s

/-- The hooks pass, one after the other, from `s` to `s'`. -/
inductive Pass (event : HookEvent) : List (LifecycleHook σ) → σ → σ → Prop
  | nil (s : σ) : Pass event [] s s
  | cons {hook : LifecycleHook σ} {rest : List (LifecycleHook σ)} {s s₁ s' : σ}
      (hpass : hook.handle event s = (.ok (), s₁)) (hrest : Pass event rest s₁ s') :
      Pass event (hook :: rest) s s'

variable {event : HookEvent} {hooks : List (LifecycleHook σ)} {s s' : σ}

theorem runEach_ok (h : runEach event hooks s = (.ok (), s')) : Pass event hooks s s' := by
  induction hooks generalizing s with
  | nil =>
    rw [runEach, Prod.mk.injEq] at h
    rw [h.2]
    exact .nil s'
  | cons hook rest ih =>
    rw [runEach] at h
    split at h
    · next hhook => exact .cons hhook (ih h)
    · exact absurd h (by simp)

theorem run_ok {manager : HookManager σ} (h : manager.run event s = (.ok (), s')) :
    Pass event manager.hooks s s' := runEach_ok h

/-- The hooks before the one that raises have passed, and those after it do not run. -/
theorem run_raises {manager : HookManager σ} {e : Exn}
    (h : manager.run event s = (.error e, s')) :
    ∃ before hook after s₁, manager.hooks = before ++ hook :: after ∧
      Pass event before s s₁ ∧ hook.handle event s₁ = (.error e, s') := by
  obtain ⟨hooks, hhooks⟩ : ∃ hooks, hooks = manager.hooks := ⟨_, rfl⟩
  unfold run at h
  rw [← hhooks] at h ⊢
  clear hhooks
  induction hooks generalizing s with
  | nil => exact absurd h (by simp [runEach])
  | cons hook rest ih =>
    rw [runEach] at h
    split at h
    · next s₀ hhook =>
      obtain ⟨before, hook', after, s₁, hrest, hpass, hraises⟩ := ih h
      exact ⟨hook :: before, hook', after, s₁, by rw [hrest]; rfl, .cons hhook hpass, hraises⟩
    · next e₀ s₀ hhook =>
      rw [Prod.mk.injEq] at h
      refine ⟨[], hook, rest, s, rfl, .nil s, ?_⟩
      rw [hhook, Prod.mk.injEq]
      exact h

/-- Each of the hooks has passed in some state. -/
theorem Pass.each (h : Pass event hooks s s') {hook : LifecycleHook σ} (hmem : hook ∈ hooks) :
    ∃ s₁ s₂, hook.handle event s₁ = (.ok (), s₂) := by
  induction h with
  | nil => exact absurd hmem List.not_mem_nil
  | cons hpass _ ih =>
    rcases List.mem_cons.mp hmem with rfl | hrest
    · exact ⟨_, _, hpass⟩
    · exact ih hrest

end HookManager

end AgentRuntimeKit
