import AgentRuntimeKit.Clients.Payloads
import AgentRuntimeKit.Hooks.Base
import Mathlib.Algebra.Order.BigOperators.Group.List

/-!
# Guardrails

`hooks/guardrails.py`. `casefold` stands for `str.casefold`, whatever it does. The spans of a
guardrail and the decision that its exception carries are left out.

## Results

* `GuardrailHook.admits`                — what a hook manager with a guardrail lets through.
* `PhraseBlockGuardrail.enforces`       — no text has a blocked phrase.
* `MessageLengthGuardrail.enforces`     — no message has too many characters.
-/

namespace AgentRuntimeKit

open Lib

structure GuardrailDecision where
  allowed : Bool
  reasonCode : Option String
  publicMessage : Option String
  metadata : List (PyKey × PyValue)

def GuardrailDecision.allow : GuardrailDecision := ⟨true, none, none, []⟩

/-- `GuardrailBlockedError(decision)`. -/
def guardrailBlocked (decision : GuardrailDecision) : Exn :=
  .kit .guardrailBlocked (decision.publicMessage.getD "Request blocked by runtime policy")

/-- A guardrail with states `σ`. -/
structure Guardrail (σ : Type) where
  name : String
  evaluate : List Message → RuntimeContext → σ → Except Exn GuardrailDecision × σ

structure GuardrailHook (σ : Type) where
  guardrail : Guardrail σ
  phases : List LifecyclePhase
  /-- `Message guardrails only support before_model and after_model`. -/
  supported : ∀ phase ∈ phases, phase = .beforeModel ∨ phase = .afterModel

variable {σ : Type}

/-- `GuardrailHook.handle`. -/
def GuardrailHook.handle (hook : GuardrailHook σ) (event : HookEvent) (s : σ) :
    Except Exn Unit × σ :=
  if event.phase ∈ hook.phases then
    match hook.guardrail.evaluate event.messages event.context s with
    | (.ok decision, s') =>
      if decision.allowed then (.ok (), s') else (.error (guardrailBlocked decision), s')
    | (.error e, s') => (.error e, s')
  else (.ok (), s)

/-- A guardrail as a lifecycle hook. -/
def GuardrailHook.toLifecycleHook (hook : GuardrailHook σ) : LifecycleHook σ :=
  ⟨"guardrail:" ++ hook.guardrail.name, hook.handle⟩

/-! ## The guardrails of the kit -/

/-- The characters that `str.strip` removes. -/
def isSpace (c : CodePoint) : Bool :=
  (9 ≤ c.val && c.val ≤ 13) || (28 ≤ c.val && c.val ≤ 32) || (0x2000 ≤ c.val && c.val ≤ 0x200A) ||
    c.val ∈ [0x85, 0xA0, 0x1680, 0x2028, 0x2029, 0x202F, 0x205F, 0x3000]

/-- `str.strip`. -/
def strip (s : PyStr) : PyStr := (s.dropWhile isSpace).rdropWhile isSpace

structure PhraseBlockGuardrail where
  casefold : PyStr → PyStr
  phrases : List PyStr
  /-- `At least one non-empty blocked phrase is required`. -/
  nonempty : phrases ≠ []

/-- `PhraseBlockGuardrail.__init__`. -/
def PhraseBlockGuardrail.new (casefold : PyStr → PyStr) (phrases : List PyStr) :
    Except Exn PhraseBlockGuardrail :=
  let normalized := (phrases.filter fun phrase => strip phrase ≠ []).map fun phrase =>
    casefold (strip phrase)
  if h : normalized = [] then
    .error (.py .valueError "At least one non-empty blocked phrase is required")
  else .ok ⟨casefold, normalized, h⟩

/-- A text part has one of the phrases. -/
def PhraseBlockGuardrail.blocks (g : PhraseBlockGuardrail) (message : Message) : Bool :=
  message.texts.any fun text => g.phrases.any fun phrase => phrase <:+: g.casefold text

/-- `PhraseBlockGuardrail.evaluate`. -/
def PhraseBlockGuardrail.guardrail (g : PhraseBlockGuardrail) : Guardrail σ where
  name := "demo_phrase_block"
  evaluate messages _ s :=
    if messages.any g.blocks then
      (.ok ⟨false, some "configured_phrase",
        some "The message was blocked by configured policy.", []⟩, s)
    else (.ok .allow, s)

structure MessageLengthGuardrail where
  maxCharacters : Nat
  /-- `max_characters must be positive`. -/
  positive : 1 ≤ maxCharacters

/-- The characters of the text parts. -/
def Message.characters (message : Message) : Nat := (message.texts.map List.length).sum

/-- `MessageLengthGuardrail.evaluate`. -/
def MessageLengthGuardrail.guardrail (g : MessageLengthGuardrail) : Guardrail σ where
  name := "demo_message_length"
  evaluate messages _ s :=
    if g.maxCharacters < (messages.map Message.characters).sum then
      (.ok ⟨false, some "message_too_long",
        some "The message exceeds the configured length limit.",
        [(.str (PyStr.ofString "max_characters"), .int g.maxCharacters)]⟩, s)
    else (.ok .allow, s)

-- ---------------------------------------------------------------------------
-- What passes
-- ---------------------------------------------------------------------------

/-- The guardrail allows only messages whose texts are good, one by one. -/
def Guardrail.Enforces (g : Guardrail σ) (good : List PyStr → Prop) : Prop :=
  ∀ messages context s decision s', g.evaluate messages context s = (.ok decision, s') →
    decision.allowed = true → ∀ m ∈ messages, good m.texts

/-- The guardrail is among the hooks, in the phases of the model. -/
def HookManager.Guards (manager : HookManager σ) (g : Guardrail σ) : Prop :=
  ∃ hook : GuardrailHook σ, hook.guardrail = g ∧ hook.toLifecycleHook ∈ manager.hooks ∧
    LifecyclePhase.beforeModel ∈ hook.phases ∧ LifecyclePhase.afterModel ∈ hook.phases

section Passes

variable {g : Guardrail σ} {good : List PyStr → Prop} {event : HookEvent} {s s' : σ}

theorem GuardrailHook.handle_ok {hook : GuardrailHook σ} (hg : hook.guardrail.Enforces good)
    (hphase : event.phase ∈ hook.phases) (h : hook.handle event s = (.ok (), s')) :
    ∀ m ∈ event.messages, good m.texts := by
  unfold GuardrailHook.handle at h
  rw [if_pos hphase] at h
  split at h
  · next decision s₁ hevaluate =>
    split at h
    · next hallowed => exact hg _ _ _ _ _ hevaluate hallowed
    · exact absurd h (by simp)
  · exact absurd h (by simp)

/-- What a hook manager with the guardrail lets through, around the model. -/
theorem GuardrailHook.admits {manager : HookManager σ} (hg : g.Enforces good)
    (hguards : manager.Guards g)
    (hphase : event.phase = .beforeModel ∨ event.phase = .afterModel)
    (h : manager.run event s = (.ok (), s')) : ∀ m ∈ event.messages, good m.texts := by
  obtain ⟨hook, rfl, hmem, hbefore, hafter⟩ := hguards
  obtain ⟨s₁, s₂, hhandle⟩ := (HookManager.run_ok h).each hmem
  refine hook.handle_ok hg ?_ hhandle
  rcases hphase with hp | hp
  · rw [hp]
    exact hbefore
  · rw [hp]
    exact hafter

theorem PhraseBlockGuardrail.enforces (g : PhraseBlockGuardrail) :
    (g.guardrail : Guardrail σ).Enforces
      fun texts => ∀ text ∈ texts, ∀ phrase ∈ g.phrases, ¬ phrase <:+: g.casefold text := by
  intro messages context s decision s' h hallowed m hm text htext phrase hphrase hinfix
  have hblocks : messages.any g.blocks = true := by
    refine List.any_eq_true.mpr ⟨m, hm, List.any_eq_true.mpr ⟨text, htext, ?_⟩⟩
    exact List.any_eq_true.mpr ⟨phrase, hphrase, decide_eq_true hinfix⟩
  have hdecision : (if messages.any g.blocks then
      (Except.ok ⟨false, some "configured_phrase",
        some "The message was blocked by configured policy.", []⟩, s)
    else (Except.ok GuardrailDecision.allow, s)) =
      ((.ok decision, s') : Except Exn GuardrailDecision × σ) := h
  rw [if_pos hblocks, Prod.mk.injEq, Except.ok.injEq] at hdecision
  rw [← hdecision.1] at hallowed
  exact absurd hallowed Bool.false_ne_true

theorem MessageLengthGuardrail.enforces (g : MessageLengthGuardrail) :
    (g.guardrail : Guardrail σ).Enforces
      fun texts => (texts.map List.length).sum ≤ g.maxCharacters := by
  intro messages context s decision s' h hallowed m hm
  show m.characters ≤ g.maxCharacters
  by_contra hlong
  have htotal : m.characters ≤ (messages.map Message.characters).sum :=
    List.single_le_sum (fun _ _ => Nat.zero_le _) _ (List.mem_map_of_mem hm)
  have hdecision : (if g.maxCharacters < (messages.map Message.characters).sum then
      (Except.ok ⟨false, some "message_too_long",
        some "The message exceeds the configured length limit.",
        [(.str (PyStr.ofString "max_characters"), .int g.maxCharacters)]⟩, s)
    else (Except.ok GuardrailDecision.allow, s)) =
      ((.ok decision, s') : Except Exn GuardrailDecision × σ) := h
  rw [if_pos (by omega), Prod.mk.injEq, Except.ok.injEq] at hdecision
  rw [← hdecision.1] at hallowed
  exact absurd hallowed Bool.false_ne_true

end Passes

end AgentRuntimeKit
