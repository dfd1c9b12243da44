import AgentRuntimeKit.Lib.PyValue
import Mathlib.Data.List.Lex
import Mathlib.Data.List.Sort
import Mathlib.Order.Fin.Basic

/-!
# JSON texts

`json.dumps`: the text of a Python value, with the options this development meets. Texts are
strings of code points; with `ensure_ascii` off they keep every character, surrogates
included, that need not be escaped.

Converting an integer of more than 4,300 digits raises `ValueError`; `PyValue.printable` says
that a value has none.
-/

namespace AgentRuntimeKit.Lib

/-! ## Strings -/

/-- Four hexadecimal digits. -/
def hexFour (n : Nat) : PyStr :=
  [digitChar (n / 4096 % 16), digitChar (n / 256 % 16), digitChar (n / 16 % 16),
    digitChar (n % 16)]

/-- `\uXXXX`. -/
def unicodeEscape (n : Nat) : PyStr := PyStr.ofString "\\u" ++ hexFour n

/-- A character inside a JSON string. -/
def escapeChar (ensureAscii : Bool) (c : CodePoint) : PyStr :=
  if c.val = 34 then PyStr.ofString "\\\""
  else if c.val = 92 then PyStr.ofString "\\\\"
  else if c.val = 8 then PyStr.ofString "\\b"
  else if c.val = 9 then PyStr.ofString "\\t"
  else if c.val = 10 then PyStr.ofString "\\n"
  else if c.val = 12 then PyStr.ofString "\\f"
  else if c.val = 13 then PyStr.ofString "\\r"
  else if c.val < 32 then unicodeEscape c.val
  else if ensureAscii = false ∨ c.val < 127 then [c]
  else if c.val < 0x10000 then unicodeEscape c.val
  else
    -- a surrogate pair
    unicodeEscape (0xD800 + (c.val - 0x10000) / 1024) ++
      unicodeEscape (0xDC00 + (c.val - 0x10000) % 1024)

/-- A JSON string. -/
def quote (ensureAscii : Bool) (s : PyStr) : PyStr :=
  PyStr.ofString "\"" ++ s.flatMap (escapeChar ensureAscii) ++ PyStr.ofString "\""

/-! ## Values -/

/-- The options of `json.dumps`. -/
structure DumpOptions where
  ensureAscii : Bool
  sortKeys : Bool
  itemSeparator : PyStr
  keySeparator : PyStr

/-- `json.dumps(value, ensure_ascii=…)` with the default separators. -/
def DumpOptions.plain (ensureAscii : Bool) : DumpOptions :=
  ⟨ensureAscii, false, PyStr.ofString ", ", PyStr.ofString ": "⟩

/-- `sort_keys=True`. -/
def DumpOptions.sorted : DumpOptions := { DumpOptions.plain true with sortKeys := true }

/-- `separators=(",", ":"), ensure_ascii=False`. -/
def DumpOptions.compact : DumpOptions :=
  ⟨false, false, PyStr.ofString ",", PyStr.ofString ":"⟩

namespace PyValue

/-- The string a key is written as; `json.dumps` writes `None` as `null`. -/
def keyText : PyKey → PyStr
  | .none => PyStr.ofString "null"
  | k => keyForm k

/-- The entries of a dictionary in the order they are written. -/
def orderEntries (o : DumpOptions) (entries : List (PyStr × PyStr)) : List (PyStr × PyStr) :=
  if o.sortKeys then entries.insertionSort fun a b => a.1 ≤ b.1 else entries

/-- `"key": value`. -/
def entryText (o : DumpOptions) (entry : PyStr × PyStr) : PyStr :=
  quote o.ensureAscii entry.1 ++ o.keySeparator ++ entry.2

mutual
/-- `json.dumps`. -/
def dumps (o : DumpOptions) : PyValue → PyStr
  | none => PyStr.ofString "null"
  | bool true => PyStr.ofString "true"
  | bool false => PyStr.ofString "false"
  | int i => decimalInt i
  | float f => floatRepr f
  | nonFinite .nan => PyStr.ofString "NaN"
  | nonFinite .inf => PyStr.ofString "Infinity"
  | nonFinite .negInf => PyStr.ofString "-Infinity"
  | str s => quote o.ensureAscii s
  | list xs => PyStr.ofString "[" ++ o.itemSeparator.intercalate (dumpsList o xs) ++
      PyStr.ofString "]"
  | tuple xs => PyStr.ofString "[" ++ o.itemSeparator.intercalate (dumpsList o xs) ++
      PyStr.ofString "]"
  | dict kvs => PyStr.ofString "\x7b" ++
      o.itemSeparator.intercalate ((orderEntries o (dumpsDict o kvs)).map (entryText o)) ++
      PyStr.ofString "\x7d"
def dumpsList (o : DumpOptions) : List PyValue → List PyStr
  | [] => []
  | x :: xs => x.dumps o :: dumpsList o xs
def dumpsDict (o : DumpOptions) : List (PyKey × PyValue) → List (PyStr × PyStr)
  | [] => []
  | (k, v) :: kvs => (keyText k, v.dumps o) :: dumpsDict o kvs
end

/-- `sys.int_info.default_max_str_digits`. -/
def maxIntDigits : Nat := 4300

/-- `str(i)` does not raise. -/
def intPrintable (i : Int) : Bool := (decimalNat i.natAbs).length ≤ maxIntDigits

mutual
/-- No integer is too long to convert. -/
def printable : PyValue → Bool
  | int i => intPrintable i
  | list xs => printableList xs
  | tuple xs => printableList xs
  | dict kvs => printableDict kvs
  | _ => true
def printableList : List PyValue → Bool
  | [] => true
  | x :: xs => x.printable && printableList xs
def printableDict : List (PyKey × PyValue) → Bool
  | [] => true
  | (.int i, v) :: kvs => intPrintable i && v.printable && printableDict kvs
  | (_, v) :: kvs => v.printable && printableDict kvs
end

/-- The text, unless `json.dumps` raises `ValueError`. -/
def dumps? (o : DumpOptions) (v : PyValue) : Option PyStr :=
  if v.printable then some (v.dumps o) else Option.none

end PyValue

end AgentRuntimeKit.Lib
