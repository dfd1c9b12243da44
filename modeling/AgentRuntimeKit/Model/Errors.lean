import Mathlib.Logic.Basic

/-!
# Exceptions

The stable error taxonomy of `errors.py` (with `GuardrailBlockedError` of
`hooks/guardrails.py`) and the exceptions of Python and its libraries that the
modelled code meets. `Exn.isException` separates what `except Exception`
catches from `asyncio.CancelledError`, which it lets through.
-/

namespace AgentRuntimeKit

/-- The classes of `errors.py` and `GuardrailBlockedError`. -/
inductive KitClass
  | duplicateRegistration
  | unknownAgent
  | toolNotFound
  | toolValidation
  | toolExecution
  | toolTimeout
  /-- `ProviderError` carries its own retry hint. -/
  | provider (retryable : Bool)
  | agentInvocation
  | contextSelection
  | contextBudgetExceeded
  | maxToolIterations
  | idempotencyConflict
  | invalidRunTransition
  | runNotFound
  | invalidFeedbackTarget
  | invocationTimeout
  | runInProgress
  | idempotentRunUnavailable
  | threadNotFound
  | threadBusy
  | runtimeClosing
  | runtimeShutdownTimeout
  | runOwnershipLost
  | guardrailBlocked
deriving DecidableEq, Repr

/-- `RuntimeKitError.code`. -/
def KitClass.code : KitClass → String
  | duplicateRegistration => "duplicate_registration"
  | unknownAgent => "unknown_agent"
  | toolNotFound => "tool_not_found"
  | toolValidation => "invalid_tool_arguments"
  | toolExecution => "tool_execution_failed"
  | toolTimeout => "tool_timeout"
  | provider _ => "provider_failure"
  | agentInvocation => "agent_invocation_failed"
  | contextSelection => "context_selection_failed"
  | contextBudgetExceeded => "context_budget_exceeded"
  | maxToolIterations => "max_tool_iterations_exceeded"
  | idempotencyConflict => "idempotency_conflict"
  | invalidRunTransition => "invalid_run_transition"
  | runNotFound => "run_not_found"
  | invalidFeedbackTarget => "invalid_feedback_target"
  | invocationTimeout => "invocation_timeout"
  | runInProgress => "run_in_progress"
  | idempotentRunUnavailable => "idempotent_run_unavailable"
  | threadNotFound => "thread_not_found"
  | threadBusy => "thread_busy"
  | runtimeClosing => "runtime_closing"
  | runtimeShutdownTimeout => "runtime_shutdown_timeout"
  | runOwnershipLost => "run_ownership_lost"
  | guardrailBlocked => "guardrail_blocked"

/-- `RuntimeKitError.retryable`. -/
def KitClass.retryable : KitClass → Bool
  | toolTimeout | invocationTimeout | runInProgress | threadBusy | runtimeClosing => true
  | provider retryable => retryable
  | _ => false

/-- The exceptions of the language and of libraries, by class. -/
inductive PyClass
  | valueError
  | unicodeDecodeError
  | keyError
  | indexError
  | recursionError
  | typeError
  | validationError
  | runtimeError
  | noResultFound
  | multipleResultsFound
  | integrityError
  | operationalError
  | other
deriving DecidableEq, Repr

/-- `issubclass`. -/
def PyClass.isSubclass (cls base : PyClass) : Bool :=
  cls = base || (base = valueError && (cls = unicodeDecodeError || cls = validationError))

/-- A raised exception. A cancellation remembers whether the deadline of
`asyncio.timeout` or somebody outside requested it, which the code inside
cannot see. -/
inductive Exn
  | kit (cls : KitClass) (message : String)
  | py (cls : PyClass) (message : String)
  | timeout
  | cancelled (byDeadline : Bool)
deriving DecidableEq, Repr

/-- Caught by `except Exception`. -/
def Exn.isException : Exn → Bool
  | cancelled _ => false
  | _ => true

/-- Caught by `except` with a tuple of classes of the language and of libraries. -/
def Exn.isOneOf (classes : List PyClass) : Exn → Bool
  | py cls _ => classes.any cls.isSubclass
  | _ => false

/-- Not raised by this package: what a driver or the event loop may raise. -/
def Exn.isForeign : Exn → Bool
  | kit _ _ => false
  | _ => true

/-- `error.code if isinstance(error, RuntimeKitError) else "internal_error"`. -/
def Exn.errorCode : Exn → String
  | kit cls _ => cls.code
  | _ => "internal_error"

end AgentRuntimeKit
