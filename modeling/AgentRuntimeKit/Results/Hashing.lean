import AgentRuntimeKit.Runtime.Hashing

/-!
# Request hashing is equality of requests

An idempotency key names one request. Whether a second request under the key is that request again
is decided by the digests of the two: SHA-256 of the canonical JSON of the request, without its
identifiers.

The theorem assumes:

* `hsha`      — no two inputs of SHA-256 collide, which is what a digest is for;
* `ha`, `hb`  — the metadata and payloads of the requests are JSON, as the checks of the models
  ensure (`IsJson`).

Equality is that of JSON (`same`): objects do not remember the order of their keys, an integer is
not a float, and `-0.0` is not `0.0`. Some requests that pass all checks get no digest, as
`json.dumps` fails on them (`Encodable`): an integer with more than 4300 digits, half of a surrogate
pair, or a nesting beyond what the interpreter can follow at that moment. That last bound differs
from call to call, so each of the two requests has its own.

Digests are equal iff the texts are, since UTF-8 can be decoded. Texts are equal iff the values are
the same, since canonical JSON is uniquely readable (`Lib/JsonReadable`): from a text and what
follows it, the first value can be read off.

## Results

* `requestHash_eq_iff`   — two requests get one digest iff both can be encoded and they are the
  same JSON, identifiers left out.
* `requestHash_raises`   — a valid request that gets no digest.
-/

namespace AgentRuntimeKit

open Lib

/-- **Two requests have one digest iff they are the same JSON** and both can be encoded, each at the
depth that its call can follow. -/
theorem requestHash_eq_iff {sha256 : List Byte → String} (hsha : Function.Injective sha256)
    {a b : RuntimeRequest} (ha : a.IsJson) (hb : b.IsJson) (maxDepth maxDepth' : Nat) :
    (∃ digest, a.requestHash sha256 maxDepth = some digest ∧
        b.requestHash sha256 maxDepth' = some digest) ↔
      a.payload.same b.payload = true ∧ a.Encodable maxDepth ∧ b.Encodable maxDepth' := by
  simp only [RuntimeRequest.requestHash_eq_some]
  rw [← PyValue.dumps_canonical_eq_iff ha.clean hb.clean]
  constructor
  · rintro ⟨digest, ⟨hencodable, hdigest⟩, hencodable', hdigest'⟩
    have hbytes := hsha (hdigest.trans hdigest'.symm)
    have htext := congrArg Utf8.decode hbytes
    rw [decode_payload, decode_payload] at htext
    exact ⟨Except.ok.inj htext, hencodable, hencodable'⟩
  · rintro ⟨htext, hencodable, hencodable'⟩
    exact ⟨_, ⟨hencodable, rfl⟩, hencodable', by rw [htext]⟩

namespace Sample

/-- A function of bytes that is injective. -/
def bytesText (bytes : List Byte) : String := String.ofList (bytes.map fun b => Char.ofNat b.toNat)

theorem bytesText_injective : Function.Injective bytesText := by
  intro s t h
  have hchars := congrArg String.toList h
  rw [bytesText, bytesText, String.toList_ofList, String.toList_ofList] at hchars
  refine List.map_injective_iff.mpr (fun a b hab => ?_) hchars
  have hvalid : ∀ b : Byte, (Char.ofNat b.toNat).toNat = b.toNat := by
    intro b
    have hlt := b.toNat_lt
    rw [Char.ofNat, dif_pos (.inl (by omega))]
    rfl
  have hnat := congrArg Char.toNat hab
  rw [hvalid, hvalid] at hnat
  exact UInt8.toNat_inj.mp hnat

/-- A question, with metadata in one of two orders. -/
def retry (requestId messageId : Uuid) (metadata : Metadata) : RuntimeRequest :=
  ⟨requestId, none, none, [.user messageId default], metadata⟩

def retryMetadata : Metadata := [(PyStr.ofString "a", .int 1), (PyStr.ofString "b", .bool true)]

theorem isJson_retry (requestId messageId : Uuid) {m : Metadata} (h : m.dict.Clean) :
    (retry requestId messageId m).IsJson := by
  refine ⟨h, fun message hmessage p hp => ?_⟩
  rw [List.mem_singleton.mp hmessage] at hp
  rw [List.mem_singleton.mp hp]
  exact clean_none

def longInt : Int := 10 ^ 4300

/-- A power of ten has one digit more than its exponent says. -/
theorem intPrintable_pow (n : Nat) :
    PyValue.intPrintable (10 ^ n) = decide (n < PyValue.maxIntDigits) := by
  have habs : ((10 : Int) ^ n).natAbs = 10 ^ n := Int.natAbs_pow 10 n
  have hpos : 0 < PyValue.maxIntDigits := by decide
  rw [PyValue.intPrintable, habs, decimalNat, List.length_map, decide_eq_decide,
    Nat.length_toDigits_le_iff (by omega) hpos, Nat.pow_lt_pow_iff_right (by omega)]

theorem not_intPrintable_long : PyValue.intPrintable longInt = false :=
  (intPrintable_pow 4300).trans (by decide)

theorem isJson_long : (PyValue.dict [(.str [97], .int longInt)]).isJson = true := rfl

/-- An answer in the history of a request that calls a tool with a number of 4,301 digits. -/
def callingLong : Message where
  id := 2
  role := .assistant
  content := [.toolCall ⟨[97], [97], [(.str [97], .int longInt)], isStrField_a, isToolName_a,
    isJson_long⟩]
  size := one_part
  validContent := rfl

/-- The message in the text that is hashed. -/
theorem pop_callingLong : callingLong.modelDump.pop "id" =
    PyValue.object [("role", PyValue.text "assistant"), ("content", .list [PyValue.object
      [("type", PyValue.text "tool_call"), ("tool_call", PyValue.object [("id", .str [97]),
        ("name", .str [97]), ("arguments", .dict [(.str [97], .int longInt)])])]])] := by
  rfl

def unhashed : RuntimeRequest := ⟨1, none, none, [callingLong], []⟩

end Sample

/-- Two retries of one question, with identifiers of their own and metadata in another order. -/
theorem Sample.requestHash_reordered :
    ∃ digest, (retry 1 2 retryMetadata).requestHash Sample.bytesText 255 = some digest ∧
      (retry 3 4 retryMetadata.reverse).requestHash Sample.bytesText 255 = some digest :=
  (requestHash_eq_iff bytesText_injective (isJson_retry 1 2 ⟨rfl, rfl⟩)
    (isJson_retry 3 4 ⟨rfl, rfl⟩) 255 255).mpr
      ⟨by rfl, ⟨by rfl, by rfl, by decide⟩, ⟨by rfl, by rfl, by decide⟩⟩

/-- **A valid request that gets no digest.** It is the same JSON as itself. -/
theorem requestHash_raises :
    Sample.unhashed.isValid = true ∧ Sample.unhashed.IsJson ∧
      Sample.unhashed.payload.same Sample.unhashed.payload = true ∧
      ∀ (sha256 : List Byte → String) (maxDepth : Nat),
        Sample.unhashed.requestHash sha256 maxDepth = none := by
  have hjson : Sample.unhashed.IsJson := by
    refine ⟨⟨rfl, rfl⟩, fun message hmessage p hp => ?_⟩
    rw [List.mem_singleton.mp hmessage] at hp
    rw [List.mem_singleton.mp hp]
    exact ⟨Sample.isJson_long, rfl⟩
  have hprintable : Sample.unhashed.payload.printable = false := by
    simp [RuntimeRequest.payload, Sample.unhashed, Sample.pop_callingLong, PyValue.object,
      PyValue.key, PyValue.printable, PyValue.printableDict, PyValue.printableList,
      Sample.not_intPrintable_long]
  refine ⟨by rfl, hjson, (PyValue.sorted_eq_iff hjson.clean hjson.clean).mp rfl,
    fun sha256 maxDepth => ?_⟩
  rw [Option.eq_none_iff_forall_ne_some]
  intro digest hdigest
  have hencodable := (RuntimeRequest.requestHash_eq_some.mp hdigest).1.printable
  rw [hprintable] at hencodable
  exact absurd hencodable Bool.false_ne_true

end AgentRuntimeKit
