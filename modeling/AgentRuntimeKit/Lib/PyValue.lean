import Mathlib.Data.Rat.Defs
import Mathlib.Algebra.Field.Rat
import Mathlib.Tactic.Linarith

/-!
# Python values of JSON shape

The values `json.dumps` accepts: the JSON scalars, non-finite floats, lists,
tuples and dictionaries whose keys are scalars. Strings are sequences of code
points, surrogates included, as a Python `str` is.

* `PyValue.isJson` — lossless JSON: no tuple, no non-finite float, all keys
  strings and no key twice;
* `PyValue.eq` — Python's `==`, where `1 == 1.0 == True` and dictionaries
  compare without order;
* `PyValue.jsonForm` — the JSON value a value serializes to: tuples become
  lists, non-finite floats `null`, keys become strings, and of two keys with
  one spelling the last value stays. It is idempotent
  (`PyValue.jsonForm_jsonForm`).

A finite float is written as its shortest decimal: sign, significant digits
without leading or trailing zeros, and the position of the decimal point. Its
value is the binary64 number nearest to that decimal, which is why `1e23` is
not `10 ** 23`.
-/

namespace AgentRuntimeKit.Lib

/-! ## Strings -/

/-- A Unicode code point; the surrogates U+D800..U+DFFF are among them. -/
abbrev CodePoint := Fin 0x110000

instance CodePoint.instNeZero : NeZero 0x110000 := ⟨by decide⟩

/-- A Python string. -/
abbrev PyStr := List CodePoint

def CodePoint.ofChar (c : Char) : CodePoint :=
  Fin.ofNat 0x110000 c.toNat

def PyStr.ofString (s : String) : PyStr := s.toList.map CodePoint.ofChar

def CodePoint.isSurrogate (c : CodePoint) : Bool := 0xD800 ≤ c.val && c.val ≤ 0xDFFF

/-- The string encodes to UTF-8. -/
def PyStr.encodable (s : PyStr) : Bool := s.all fun c => !c.isSurrogate

/-- The ASCII digit for a decimal or hexadecimal digit. -/
def digitChar (d : Nat) : CodePoint :=
  if d < 10 then Fin.ofNat 0x110000 (48 + d) else Fin.ofNat 0x110000 (87 + d)

/-- Decimal digits, most significant first. -/
def decimalNat (n : Nat) : PyStr := (Nat.toDigits 10 n).map CodePoint.ofChar

/-- `str(int)`. -/
def decimalInt : Int → PyStr
  | .ofNat n => decimalNat n
  | .negSucc n => CodePoint.ofChar '-' :: decimalNat (n + 1)

/-! ## Floats -/

/-- A finite float, `± 0.d₁…dₙ × 10 ^ point`; zero has no digits. -/
structure PyFloat where
  neg : Bool
  digits : List (Fin 10)
  point : Int
  noLeading : digits.head? ≠ some 0
  noTrailing : digits.getLast? ≠ some 0
  zeroPoint : digits = [] → point = 0
deriving DecidableEq

/-- The decimal number that the digits write, without the sign. -/
def PyFloat.decimal (f : PyFloat) : ℚ :=
  (f.digits.foldl (fun n d => 10 * n + d.val) 0 : Nat) * (10 : ℚ) ^ (f.point - f.digits.length)

/-- The exponent of the last of the 53 binary digits of a positive number, or that of the
subnormal numbers. -/
def lastExponent (q : ℚ) : Int :=
  let e : Int := (Nat.log2 q.num.natAbs : Int) - Nat.log2 q.den
  max (-1074) (if (2 : ℚ) ^ e ≤ q then e - 52 else e - 53)

/-- The nearest integer; of two, the even one. -/
def roundHalfEven (q : ℚ) : Int :=
  let n := q.floor
  if q - n < 1 / 2 ∨ q - n = 1 / 2 ∧ n % 2 = 0 then n else n + 1

/-- The exact value: the binary64 number nearest to the decimal. -/
def PyFloat.toRat (f : PyFloat) : ℚ :=
  let unit := (2 : ℚ) ^ lastExponent f.decimal
  (if f.neg then -1 else 1) * (roundHalfEven (f.decimal / unit) * unit)

/-- `1e23` is 99999999999999991611392. -/
example : PyFloat.toRat ⟨false, [1], 24, by decide, by decide, by decide⟩ =
    99999999999999991611392 := by decide +kernel

/-- The non-finite floats. -/
inductive NonFinite
  | nan
  | inf
  | negInf
deriving DecidableEq

/-! ## Values -/

/-- A dictionary key. -/
inductive PyKey
  | str (s : PyStr)
  | int (i : Int)
  | float (f : PyFloat)
  | bool (b : Bool)
  | none
deriving DecidableEq

inductive PyValue
  | none
  | bool (b : Bool)
  | int (i : Int)
  | float (f : PyFloat)
  | nonFinite (x : NonFinite)
  | str (s : PyStr)
  | list (xs : List PyValue)
  | tuple (xs : List PyValue)
  | dict (kvs : List (PyKey × PyValue))

namespace PyValue

/-- `d[k]` on the entries of a dictionary. -/
def lookup (k : PyKey) : List (PyKey × PyValue) → Option PyValue
  | [] => Option.none
  | (k', v) :: kvs => if k = k' then some v else lookup k kvs

/-- `d[k] = v` on the entries of a dictionary: a present key keeps its place. -/
def insert (k : PyKey) (v : PyValue) : List (PyKey × PyValue) → List (PyKey × PyValue)
  | [] => [(k, v)]
  | (k', v') :: kvs => if k = k' then (k', v) :: kvs else (k', v') :: insert k v kvs

mutual
/-- Lossless JSON. -/
def isJson : PyValue → Bool
  | none | bool _ | int _ | float _ | str _ => true
  | nonFinite _ | tuple _ => false
  | list xs => isJsonList xs
  | dict kvs => isJsonDict kvs
def isJsonList : List PyValue → Bool
  | [] => true
  | x :: xs => x.isJson && isJsonList xs
def isJsonDict : List (PyKey × PyValue) → Bool
  | [] => true
  | (.str s, v) :: kvs => v.isJson && !(kvs.any fun kv => kv.1 = .str s) && isJsonDict kvs
  | _ :: _ => false
end

/-! ### Nesting -/

mutual
/-- The longest path into the value, on which a scalar counts `leaf`. -/
def nesting (leaf : Nat) : PyValue → Nat
  | list xs | tuple xs => nestingList leaf xs + 1
  | dict kvs => nestingDict leaf kvs + 1
  | _ => leaf
def nestingList (leaf : Nat) : List PyValue → Nat
  | [] => 0
  | x :: xs => max (x.nesting leaf) (nestingList leaf xs)
def nestingDict (leaf : Nat) : List (PyKey × PyValue) → Nat
  | [] => 0
  | (_, v) :: kvs => max (v.nesting leaf) (nestingDict leaf kvs)
end

/-- How deeply lists, tuples and dictionaries nest: what `json.dumps` recurs into. -/
def depth (v : PyValue) : Nat := v.nesting 0

/-- How deeply `model_dump(mode="json")` goes into a value of type `Any`. -/
def maxLevels : Nat := 255

/-- `model_dump(mode="json")` writes a value of type `Any`: no path has more values than that,
scalars included. -/
def dumpable (v : PyValue) : Bool := v.nesting 1 ≤ maxLevels

/-- A number in 254 lists can be dumped, one in 255 lists cannot. -/
example : ([254, 255].map fun n => (Nat.repeat (fun v => list [v]) n (int 0)).dumpable) =
    [true, false] := by decide +kernel

/-! ### Equality -/

/-- The number a scalar compares as. -/
def number : PyValue → Option ℚ
  | bool b => some (if b then 1 else 0)
  | int i => some i
  | float f => some f.toRat
  | _ => Option.none

/-- The scalar a key is. -/
def ofKey : PyKey → PyValue
  | .str s => str s
  | .int i => int i
  | .float f => float f
  | .bool b => bool b
  | .none => none

/-- `==` on scalars. -/
def scalarEq : PyValue → PyValue → Bool
  | none, none => true
  | str s, str s' => s = s'
  | nonFinite x, nonFinite y => x = y && x ≠ .nan
  | v, v' =>
    match v.number, v'.number with
    | some a, some b => a = b
    | _, _ => false

/-- `==` on dictionary keys. -/
def keyEq (k k' : PyKey) : Bool := scalarEq (ofKey k) (ofKey k')

/-- The value under a key equal to `k`. -/
def lookupEq (k : PyKey) : List (PyKey × PyValue) → Option PyValue
  | [] => Option.none
  | (k', v) :: kvs => if keyEq k k' then some v else lookupEq k kvs

mutual
/-- Python's `==`. -/
def eq : PyValue → PyValue → Bool
  | list xs, list ys => eqList xs ys
  | tuple xs, tuple ys => eqList xs ys
  | dict kvs, dict kvs' => kvs.length = kvs'.length && eqDict kvs kvs'
  | v, v' => scalarEq v v'
def eqList : List PyValue → List PyValue → Bool
  | [], [] => true
  | x :: xs, y :: ys => x.eq y && eqList xs ys
  | _, _ => false
/-- Every entry has an equal one on the right. -/
def eqDict : List (PyKey × PyValue) → List (PyKey × PyValue) → Bool
  | [], _ => true
  | (k, v) :: kvs, kvs' =>
    (match lookupEq k kvs' with
      | some v' => v.eq v'
      | Option.none => false) && eqDict kvs kvs'
end

/-! ### Serialized form -/

/-- The digits of a float, as characters. -/
def floatDigits (ds : List (Fin 10)) : PyStr := ds.map fun d => digitChar d.val

/-- `float.__repr__`: fixed notation for exponents from -4 to 15, scientific
notation with a two-digit exponent otherwise. -/
def floatRepr (f : PyFloat) : PyStr :=
  let sign : PyStr := if f.neg then PyStr.ofString "-" else []
  let n : Int := f.digits.length
  sign ++
    match f.digits with
    | [] => PyStr.ofString "0.0"
    | d :: ds =>
      if -4 < f.point ∧ f.point ≤ 16 then
        if f.point ≤ 0 then
          PyStr.ofString "0." ++ List.replicate (-f.point).toNat (digitChar 0) ++
            floatDigits (d :: ds)
        else if n ≤ f.point then
          floatDigits (d :: ds) ++ List.replicate (f.point - n).toNat (digitChar 0) ++
            PyStr.ofString ".0"
        else
          floatDigits ((d :: ds).take f.point.toNat) ++ PyStr.ofString "." ++
            floatDigits ((d :: ds).drop f.point.toNat)
      else
        let e := f.point - 1
        let exponent := decimalNat e.natAbs
        digitChar d.val :: (if ds = [] then [] else PyStr.ofString "." ++ floatDigits ds) ++
          PyStr.ofString (if e < 0 then "e-" else "e+") ++
          (if exponent.length < 2 then digitChar 0 :: exponent else exponent)

/-- The string a key serializes to. -/
def keyForm : PyKey → PyStr
  | .str s => s
  | .int i => decimalInt i
  | .float f => floatRepr f
  | .bool true => PyStr.ofString "true"
  | .bool false => PyStr.ofString "false"
  | .none => PyStr.ofString "None"

mutual
/-- What `model_dump(mode="json")` makes of the value. -/
def jsonForm : PyValue → PyValue
  | list xs => list (jsonFormList xs)
  | tuple xs => list (jsonFormList xs)
  | dict kvs => dict (jsonFormDict kvs [])
  | nonFinite _ => none
  | v => v
def jsonFormList : List PyValue → List PyValue
  | [] => []
  | x :: xs => x.jsonForm :: jsonFormList xs
/-- The entries in turn, on top of those already written. -/
def jsonFormDict : List (PyKey × PyValue) → List (PyKey × PyValue) → List (PyKey × PyValue)
  | [], acc => acc
  | (k, v) :: kvs, acc => jsonFormDict kvs (insert (.str (keyForm k)) v.jsonForm acc)
end

/-! ### The serialized form is stable -/

theorem keys_insert (k : PyKey) (v : PyValue) (kvs : List (PyKey × PyValue)) :
    (insert k v kvs).map Prod.fst =
      if k ∈ kvs.map Prod.fst then kvs.map Prod.fst else kvs.map Prod.fst ++ [k] := by
  induction kvs with
  | nil => simp [insert]
  | cons kv kvs ih =>
    obtain ⟨k', v'⟩ := kv
    rw [insert]
    by_cases h : k = k'
    · subst h
      simp
    · simp only [if_neg h, List.map_cons, ih, List.mem_cons]
      by_cases hm : k ∈ kvs.map Prod.fst
      · simp [hm]
      · simp [hm, h]

theorem insert_of_notMem {k : PyKey} {v : PyValue} {kvs : List (PyKey × PyValue)}
    (h : k ∉ kvs.map Prod.fst) : insert k v kvs = kvs ++ [(k, v)] := by
  induction kvs with
  | nil => rfl
  | cons kv kvs ih =>
    obtain ⟨k', v'⟩ := kv
    simp only [List.map_cons, List.mem_cons, not_or] at h
    rw [insert, if_neg h.1, ih h.2]
    rfl

/-- Entries in serialized form: distinct string keys, serialized values. -/
structure Serialized (kvs : List (PyKey × PyValue)) : Prop where
  nodup : (kvs.map Prod.fst).Nodup
  keys : ∀ kv ∈ kvs, ∃ s, kv.1 = PyKey.str s
  values : ∀ kv ∈ kvs, kv.2.jsonForm = kv.2

theorem mem_insert {k : PyKey} {v : PyValue} {kvs : List (PyKey × PyValue)}
    {kv : PyKey × PyValue} (h : kv ∈ insert k v kvs) : kv = (k, v) ∨ kv ∈ kvs := by
  induction kvs with
  | nil => exact .inl (by simpa [insert] using h)
  | cons kv' kvs ih =>
    obtain ⟨k', v'⟩ := kv'
    rw [insert] at h
    split at h
    · next heq =>
      subst heq
      rcases List.mem_cons.mp h with rfl | hm
      · exact .inl rfl
      · exact .inr (List.mem_cons_of_mem _ hm)
    · rcases List.mem_cons.mp h with rfl | hm
      · exact .inr (by simp)
      · rcases ih hm with heq | hmem
        · exact .inl heq
        · exact .inr (List.mem_cons_of_mem _ hmem)

theorem Serialized.insert {kvs : List (PyKey × PyValue)} (h : Serialized kvs) (s : PyStr)
    {v : PyValue} (hv : v.jsonForm = v) : Serialized (PyValue.insert (.str s) v kvs) := by
  constructor
  · rw [keys_insert]
    split
    · exact h.nodup
    · next hm =>
      exact List.nodup_append.mpr ⟨h.nodup, by simp, by
        intro a ha b hb
        rw [List.mem_singleton] at hb
        subst hb
        rintro rfl
        exact hm ha⟩
  · intro kv hkv
    rcases mem_insert hkv with rfl | hm
    · exact ⟨s, rfl⟩
    · exact h.keys kv hm
  · intro kv hkv
    rcases mem_insert hkv with rfl | hm
    · exact hv
    · exact h.values kv hm

/-- Serializing serialized entries on top of others appends them. -/
theorem jsonFormDict_append {kvs acc : List (PyKey × PyValue)} (h : Serialized (acc ++ kvs)) :
    jsonFormDict kvs acc = acc ++ kvs := by
  induction kvs generalizing acc with
  | nil => simp [jsonFormDict]
  | cons kv kvs ih =>
    obtain ⟨k, v⟩ := kv
    obtain ⟨s, rfl⟩ := h.keys (k, v) (by simp)
    have hv : v.jsonForm = v := h.values (.str s, v) (by simp)
    have hnotin : PyKey.str s ∉ acc.map Prod.fst := by
      have hnd := h.nodup
      rw [List.map_append, List.map_cons, List.nodup_append] at hnd
      intro hm
      exact hnd.2.2 _ hm _ (by simp) rfl
    rw [jsonFormDict, keyForm, hv, insert_of_notMem hnotin, ih (by simpa using h)]
    simp

mutual
theorem jsonForm_jsonForm : ∀ v : PyValue, v.jsonForm.jsonForm = v.jsonForm
  | list xs => by rw [jsonForm, jsonForm, jsonFormList_idem xs]
  | tuple xs => by rw [jsonForm, jsonForm, jsonFormList_idem xs]
  | dict kvs => by
    have h := jsonFormDict_serialized kvs [] ⟨by simp, by simp, by simp⟩
    rw [jsonForm, jsonForm, @jsonFormDict_append _ [] (by simpa using h)]
    rfl
  | none => rfl
  | bool _ => rfl
  | int _ => rfl
  | float _ => rfl
  | nonFinite _ => rfl
  | str _ => rfl
theorem jsonFormList_idem : ∀ xs : List PyValue,
    jsonFormList (jsonFormList xs) = jsonFormList xs
  | [] => rfl
  | x :: xs => by rw [jsonFormList, jsonFormList, jsonForm_jsonForm x, jsonFormList_idem xs]
theorem jsonFormDict_serialized : ∀ kvs acc : List (PyKey × PyValue), Serialized acc →
    Serialized (jsonFormDict kvs acc)
  | [], acc, h => by rwa [jsonFormDict]
  | (k, v) :: kvs, acc, h => by
    rw [jsonFormDict]
    exact jsonFormDict_serialized kvs _ (h.insert (keyForm k) (jsonForm_jsonForm v))
end

end PyValue

end AgentRuntimeKit.Lib
