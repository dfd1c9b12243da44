import AgentRuntimeKit.Lib.Gen
import AgentRuntimeKit.Lib.JsonObject
import AgentRuntimeKit.Lib.JsonText
import AgentRuntimeKit.Lib.Utf8
import AgentRuntimeKit.Model.Errors

/-!
# Decoding provider answers

What the HTTP adapters share when they take a JSON answer apart: the `json` module, the access to
fields, the checks of `_mapping`, and the `except` clauses around them. `json` stands for any
reader and writer that return, or raise as documented.

How deeply a value may nest depends on the frames that are on the stack when it is decoded, walked
through or encoded. So there is one function for each place of the source: `json.loads` and
`json.dumps` in the adapters, `validate_json_value` where a `ToolCall` is made, and
`validate_json_value` with `json.dumps` where a `ModelResult` compares its calls. What one of them
bears another may not.
-/

namespace AgentRuntimeKit

open Lib Utf8

/-- `json.loads` raises `ValueError` or one of its subclasses on a malformed text, and
`RecursionError` on one that nests too deeply; `json.dumps` raises the same on a value with a number
that is too long, or that nests too deeply. -/
def Exn.isJsonError : Exn → Bool
  | .py cls _ => cls.isSubclass .valueError || cls = .recursionError
  | _ => false

/-- `json.loads`, of text and of bytes, and `json.dumps`, where the source calls them. -/
structure PyJson where
  loads : PyStr → Except Exn PyValue
  loadsBytes : List Byte → Except Exn PyValue
  dumps : PyValue → Except Exn PyStr
  /-- `validate_json_value` gets to the bottom of the arguments of a new `ToolCall`. Where it does
  not, it raises `ValueError`. -/
  walks : PyValue → Bool
  /-- The text that `validate_tool_calls` compares: `validate_json_value` once more, and then
  `json.dumps(…, sort_keys=True, allow_nan=False)`. -/
  dumpsSorted : PyValue → Except Exn PyStr
  raises : ∀ t e, loads t = .error e → e.isJsonError = true
  raisesBytes : ∀ b e, loadsBytes b = .error e → e.isJsonError = true
  raisesDumps : ∀ v e, dumps v = .error e → e.isJsonError = true
  raisesSorted : ∀ v e, dumpsSorted v = .error e → e.isJsonError = true
  text_of_sorted : ∀ v t, dumpsSorted v = .ok t → v.dumps? .sorted = some t

/-- `json.dumps(…, sort_keys=True)`, for an interpreter without a limit of its own. -/
def sortedText (v : PyValue) : Except Exn PyStr :=
  match v.dumps? .sorted with
  | some t => .ok t
  | none => .error (.py .valueError "Exceeds the limit (4300 digits) for integer string conversion")

theorem sortedText_eq_ok (v : PyValue) (t : PyStr) (h : sortedText v = .ok t) :
    v.dumps? .sorted = some t := by
  rw [sortedText] at h
  split at h
  · next heq => rw [heq, Except.ok.inj h]
  · cases h

theorem sortedText_eq_error {v : PyValue} {e : Exn} (h : sortedText v = .error e) :
    ∃ message, e = .py .valueError message := by
  rw [sortedText] at h
  split at h
  · cases h
  · exact ⟨_, (Except.error.inj h).symm⟩

theorem isJsonError_sortedText (v : PyValue) (e : Exn) (h : sortedText v = .error e) :
    e.isJsonError = true := by
  obtain ⟨message, rfl⟩ := sortedText_eq_error h
  rfl

/-- `json.dumps`, for an interpreter that follows a value `limit` levels down. -/
def dumpsWithin (o : DumpOptions) (limit : Nat) (v : PyValue) : Except Exn PyStr :=
  if v.printable = true ∧ v.depth ≤ limit then .ok (v.dumps o)
  else .error (.py .recursionError "maximum recursion depth exceeded")

theorem exists_dumpsWithin {o : DumpOptions} {limit : Nat} {v : PyValue} :
    (∃ t, dumpsWithin o limit v = .ok t) ↔ v.printable = true ∧ v.depth ≤ limit := by
  rw [dumpsWithin]
  by_cases hwithin : v.printable = true ∧ v.depth ≤ limit
  · rw [if_pos hwithin]
    exact iff_of_true ⟨_, rfl⟩ hwithin
  · rw [if_neg hwithin]
    refine iff_of_false ?_ hwithin
    rintro ⟨t, ht⟩
    cases ht

theorem text_of_dumpsWithin {o : DumpOptions} {limit : Nat} {v : PyValue} {t : PyStr}
    (h : dumpsWithin o limit v = .ok t) : t = v.dumps o := by
  rw [dumpsWithin] at h
  split at h
  · exact (Except.ok.inj h).symm
  · cases h

theorem isJsonError_dumpsWithin {o : DumpOptions} {limit : Nat} (v : PyValue) (e : Exn)
    (h : dumpsWithin o limit v = .error e) : e.isJsonError = true := by
  rw [dumpsWithin] at h
  split at h
  · cases h
  · rw [← Except.error.inj h]
    rfl

/-- A JSON object, as its entries. -/
abbrev JsonObject := List (PyKey × PyValue)

namespace JsonObject

/-- `object.get(name)`. -/
def get (o : JsonObject) (name : String) : PyValue := (PyValue.field name o).getD .none

/-- `object.get(name, default)`. -/
def getD (o : JsonObject) (name : String) (default : PyValue) : PyValue :=
  (PyValue.field name o).getD default

/-- `name in object`. -/
def contains (o : JsonObject) (name : String) : Bool := (PyValue.field name o).isSome

/-- `object[name]`. -/
def item (o : JsonObject) (name : String) : Except Exn PyValue :=
  match PyValue.field name o with
  | some v => .ok v
  | none => .error (.py .keyError name)

end JsonObject

theorem field_of_get {o : JsonObject} {name : String} {v : PyValue} (h : o.get name = v)
    (hv : v ≠ .none) : PyValue.field name o = some v := by
  rw [JsonObject.get] at h
  cases hfield : PyValue.field name o with
  | some w =>
    rw [hfield, Option.getD_some] at h
    rw [h]
  | none =>
    rw [hfield, Option.getD_none] at h
    exact absurd h.symm hv

theorem item_of_get {o : JsonObject} {name : String} {s : PyStr} (h : o.get name = .str s) :
    o.item name = .ok (.str s) := by
  rw [JsonObject.item, field_of_get h (by simp)]

/-- `_mapping`; the adapters differ in the text of the exception, which nobody sees. -/
def mapping (label : String) : PyValue → Except Exn JsonObject
  | .dict kvs => .ok kvs
  | _ => .error (.py .typeError s!"{label} must be an object")

theorem mapping_eq_ok {label : String} {v : PyValue} {o : JsonObject} :
    mapping label v = .ok o ↔ v = .dict o := by
  cases v with
  | dict kvs => exact ⟨fun h => congrArg PyValue.dict (Except.ok.inj h), fun h => by cases h; rfl⟩
  | _ => exact iff_of_false (fun h => by cases h) fun h => by cases h

/-- `value not in (None, *allowed)`, negated. -/
def isNoneOr (allowed : List String) : PyValue → Bool
  | .none => true
  | .str s => allowed.any fun a => s = PyStr.ofString a
  | _ => false

/-- `request_failure` of an exception that is not of `httpx`. -/
def requestFailure (message : String) : Exn := .kit (.provider false) message

/-- `ProviderError(message, retryable=False)`. -/
def rejected (message : String) : Exn := .kit (.provider false) message

/-- `except (…) as exc: raise failure from exc`. -/
def translate (classes : List PyClass) (failure : Exn) (e : Exn) : Exn :=
  if e.isOneOf classes then failure else e

/-- The same around a generator. -/
def translated {α β : Type} (classes : List PyClass) (failure : Exn) (g : Gen Exn α β) :
    Gen Exn α β := ⟨g.yields, g.ending.mapError (translate classes failure)⟩

-- ---------------------------------------------------------------------------
-- Safe exceptions
-- ---------------------------------------------------------------------------

/-- A `ProviderError`. -/
def Exn.isProvider : Exn → Bool
  | .kit (.provider _) _ => true
  | _ => false

/-- A `RecursionError`. -/
def Exn.isRecursion : Exn → Bool
  | .py .recursionError _ => true
  | _ => false

/-- A `RecursionError` of `json`. -/
structure PyJson.Deep (json : PyJson) (e : Exn) : Prop where
  recursion : e.isRecursion = true
  raised : (∃ t, json.loads t = .error e) ∨ (∃ b, json.loadsBytes b = .error e) ∨
    ∃ v, json.dumps v = .error e ∨ json.dumpsSorted v = .error e

/-- A text or a value nests too deeply, and nothing was wrong before it. -/
def TooDeep {α : Type} (x : Except Exn α) : Prop := ∃ e, x = .error e ∧ e.isRecursion = true

theorem tooDeep_error {α : Type} (e : Exn) :
    TooDeep (.error e : Except Exn α) ↔ e.isRecursion = true := by
  constructor
  · rintro ⟨e', he, hr⟩
    cases he
    exact hr
  · intro hr
    exact ⟨e, rfl, hr⟩

theorem not_recursion_of_provider {e : Exn} (h : e.isProvider = true) : e.isRecursion = false := by
  cases e with
  | py cls message => cases h
  | _ => rfl

theorem not_tooDeep_ok {α : Type} (a : α) : ¬TooDeep (.ok a : Except Exn α) := by
  rintro ⟨e, he, -⟩
  cases he

/-- A handler catches no `RecursionError`, and raises none. -/
theorem isRecursion_translate {classes : List PyClass} {failure : Exn}
    (hclasses : ∀ message, (Exn.py .recursionError message).isOneOf classes = false)
    (hfailure : failure.isProvider = true) (e : Exn) :
    (translate classes failure e).isRecursion = e.isRecursion := by
  rw [translate]
  by_cases hcaught : e.isOneOf classes = true
  · rw [if_pos hcaught, not_recursion_of_provider hfailure]
    cases e with
    | py cls message =>
      cases cls with
      | recursionError =>
        rw [hclasses message] at hcaught
        cases hcaught
      | _ => rfl
    | _ => rfl
  · rw [if_neg hcaught]

theorem tooDeep_translate {α : Type} {x : Except Exn α} {classes : List PyClass} {failure : Exn}
    (hclasses : ∀ message, (Exn.py .recursionError message).isOneOf classes = false)
    (hfailure : failure.isProvider = true) :
    TooDeep (x.mapError (translate classes failure)) ↔ TooDeep x := by
  cases x with
  | ok a => exact iff_of_false (not_tooDeep_ok a) (not_tooDeep_ok a)
  | error e =>
    show TooDeep (.error (translate classes failure e) : Except Exn α) ↔ _
    rw [tooDeep_error, tooDeep_error, isRecursion_translate hclasses hfailure]

/-- What an adapter may let through: a `ProviderError`, or the `RecursionError` of a text. -/
def PyJson.Safe (json : PyJson) (e : Exn) : Prop := e.isProvider = true ∨ json.Deep e

/-- What the body of a `try` may raise, when a tuple of classes is caught. -/
def PyJson.Caught (json : PyJson) (classes : List PyClass) (e : Exn) : Prop :=
  json.Safe e ∨ e.isOneOf classes = true

section Safe

variable {json : PyJson} {classes : List PyClass}

theorem safe_rejected (message : String) : json.Safe (rejected message) := Or.inl rfl

theorem caught_rejected (message : String) : json.Caught classes (rejected message) :=
  Or.inl (safe_rejected message)

/-- The handler turns what is caught into a `ProviderError`. -/
theorem PyJson.Caught.translate {e failure : Exn} (h : json.Caught classes e)
    (hfailure : failure.isProvider = true) :
    json.Safe (AgentRuntimeKit.translate classes failure e) := by
  rw [AgentRuntimeKit.translate]
  split
  · exact Or.inl hfailure
  · next hno =>
    rcases h with h | h
    · exact h
    · exact absurd h hno

/-- What `json` raises in the body of a `try` that catches `ValueError`. -/
theorem caught_json (hclasses : PyClass.valueError ∈ classes) {e : Exn}
    (he : e.isJsonError = true)
    (hraised : (∃ t, json.loads t = .error e) ∨ (∃ b, json.loadsBytes b = .error e) ∨
      ∃ v, json.dumps v = .error e ∨ json.dumpsSorted v = .error e) : json.Caught classes e := by
  cases e with
  | py cls message =>
    rw [Exn.isJsonError, Bool.or_eq_true] at he
    rcases he with h | h
    · exact Or.inr (List.any_eq_true.mpr ⟨_, hclasses, h⟩)
    · rw [of_decide_eq_true h] at hraised ⊢
      exact Or.inl (Or.inr ⟨rfl, hraised⟩)
  | _ => exact absurd he (by simp [Exn.isJsonError])

theorem raises_loads (hclasses : PyClass.valueError ∈ classes) (t : PyStr) :
    Raises (json.Caught classes) (json.loads t) :=
  fun e he => caught_json hclasses (json.raises t e he) (Or.inl ⟨t, he⟩)

theorem raises_loadsBytes (hclasses : PyClass.valueError ∈ classes) (b : List Byte) :
    Raises (json.Caught classes) (json.loadsBytes b) :=
  fun e he => caught_json hclasses (json.raisesBytes b e he) (Or.inr (Or.inl ⟨b, he⟩))

theorem raises_dumps (hclasses : PyClass.valueError ∈ classes) (v : PyValue) :
    Raises (json.Caught classes) (json.dumps v) :=
  fun e he => caught_json hclasses (json.raisesDumps v e he) (Or.inr (Or.inr ⟨v, Or.inl he⟩))

theorem raises_dumpsSorted (hclasses : PyClass.valueError ∈ classes) (v : PyValue) :
    Raises (json.Caught classes) (json.dumpsSorted v) :=
  fun e he => caught_json hclasses (json.raisesSorted v e he) (Or.inr (Or.inr ⟨v, Or.inr he⟩))

theorem caught_py {cls : PyClass} (h : cls ∈ classes) (message : String) :
    json.Caught classes (.py cls message) := by
  refine Or.inr (List.any_eq_true.mpr ⟨cls, h, ?_⟩)
  simp [PyClass.isSubclass]

theorem caught_invalid (h : PyClass.valueError ∈ classes) (message : String) :
    json.Caught classes (.py .validationError message) :=
  Or.inr (List.any_eq_true.mpr ⟨_, h, rfl⟩)

theorem raises_mapping (hclasses : PyClass.typeError ∈ classes) (label : String) (v : PyValue) :
    Raises (json.Caught classes) (mapping label v) := by
  cases v with
  | dict kvs => exact .ok _
  | _ => exact .error (caught_py hclasses _)

theorem raises_item (hclasses : PyClass.keyError ∈ classes) (o : JsonObject) (name : String) :
    Raises (json.Caught classes) (o.item name) := by
  rw [JsonObject.item]
  cases PyValue.field name o with
  | some v => exact .ok _
  | none => exact .error (caught_py hclasses _)

end Safe

end AgentRuntimeKit
