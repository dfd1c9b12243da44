import AgentRuntimeKit.Lib.PyValue

/-!
# UTF-8

`str.encode("utf-8")` and the strict `bytes.decode("utf-8")` of Python, which reports the
first malformed byte with the position and the reason that CPython gives.

## Results

* `decode_encode` — decoding what was encoded.
* `mem_encode`    — an ASCII byte of encoded text is an ASCII character of it.
-/

namespace AgentRuntimeKit.Lib

abbrev Byte := UInt8

namespace Utf8

inductive Reason
  | invalidStartByte
  | invalidContinuationByte
  | unexpectedEnd
deriving DecidableEq, Repr

/-- A `UnicodeDecodeError`: the first malformed byte, and the range `start..<stop` it reports. -/
structure DecodeError where
  byte : Byte
  start : Nat
  stop : Nat
  reason : Reason
deriving DecidableEq, Repr

def Reason.text : Reason → String
  | invalidStartByte => "invalid start byte"
  | invalidContinuationByte => "invalid continuation byte"
  | unexpectedEnd => "unexpected end of data"

/-- `str(UnicodeDecodeError)`. -/
def DecodeError.message (e : DecodeError) : String :=
  if e.stop = e.start + 1 then
    let hex := String.ofList (Nat.toDigits 16 e.byte.toNat)
    s!"'utf-8' codec can't decode byte 0x{hex} in position {e.start}: {e.reason.text}"
  else s!"'utf-8' codec can't decode bytes in position {e.start}-{e.stop - 1}: {e.reason.text}"

def isContinuation (b : Byte) : Bool := 0x80 ≤ b.toNat && b.toNat < 0xC0

/-- The second byte of a sequence that starts with `b`: no overlong form, no surrogate, nothing
above U+10FFFF. -/
def isSecond (b c : Byte) : Bool :=
  isContinuation c && (b.toNat ≠ 0xE0 || 0xA0 ≤ c.toNat) && (b.toNat ≠ 0xED || c.toNat < 0xA0) &&
    (b.toNat ≠ 0xF0 || 0x90 ≤ c.toNat) && (b.toNat ≠ 0xF4 || c.toNat < 0x90)

/-- The code point of a sequence of bytes. -/
def codePoint (n : Nat) : CodePoint := Fin.ofNat 0x110000 n

/-- `bytes.decode("utf-8")` of what is left at position `pos`. -/
def decodeFrom (pos : Nat) : List Byte → Except DecodeError PyStr
  | [] => .ok []
  | b :: rest =>
    if b.toNat < 0x80 then (decodeFrom (pos + 1) rest).map (codePoint b.toNat :: ·)
    else if b.toNat < 0xC2 then .error ⟨b, pos, pos + 1, .invalidStartByte⟩
    else if b.toNat < 0xE0 then
      match rest with
      | [] => .error ⟨b, pos, pos + 1, .unexpectedEnd⟩
      | c :: rest =>
        if isContinuation c then
          (decodeFrom (pos + 2) rest).map
            (codePoint ((b.toNat - 0xC0) * 64 + (c.toNat - 0x80)) :: ·)
        else .error ⟨b, pos, pos + 1, .invalidContinuationByte⟩
    else if b.toNat < 0xF0 then
      match rest with
      | [] => .error ⟨b, pos, pos + 1, .unexpectedEnd⟩
      | c :: rest =>
        if isSecond b c then
          match rest with
          | [] => .error ⟨b, pos, pos + 2, .unexpectedEnd⟩
          | d :: rest =>
            if isContinuation d then
              (decodeFrom (pos + 3) rest).map (codePoint
                ((b.toNat - 0xE0) * 4096 + (c.toNat - 0x80) * 64 + (d.toNat - 0x80)) :: ·)
            else .error ⟨b, pos, pos + 2, .invalidContinuationByte⟩
        else .error ⟨b, pos, pos + 1, .invalidContinuationByte⟩
    else if b.toNat < 0xF5 then
      match rest with
      | [] => .error ⟨b, pos, pos + 1, .unexpectedEnd⟩
      | c :: rest =>
        if isSecond b c then
          match rest with
          | [] => .error ⟨b, pos, pos + 2, .unexpectedEnd⟩
          | d :: rest =>
            if isContinuation d then
              match rest with
              | [] => .error ⟨b, pos, pos + 3, .unexpectedEnd⟩
              | e :: rest =>
                if isContinuation e then
                  (decodeFrom (pos + 4) rest).map (codePoint ((b.toNat - 0xF0) * 262144 +
                    (c.toNat - 0x80) * 4096 + (d.toNat - 0x80) * 64 + (e.toNat - 0x80)) :: ·)
                else .error ⟨b, pos, pos + 3, .invalidContinuationByte⟩
            else .error ⟨b, pos, pos + 2, .invalidContinuationByte⟩
        else .error ⟨b, pos, pos + 1, .invalidContinuationByte⟩
    else .error ⟨b, pos, pos + 1, .invalidStartByte⟩

/-- `bytes.decode("utf-8")`. -/
def decode (bytes : List Byte) : Except DecodeError PyStr := decodeFrom 0 bytes

/-- The bytes of one code point. -/
def encodeChar (c : CodePoint) : List Byte :=
  if c.val < 0x80 then [.ofNat c.val]
  else if c.val < 0x800 then [.ofNat (0xC0 + c.val / 64), .ofNat (0x80 + c.val % 64)]
  else if c.val < 0x10000 then
    [.ofNat (0xE0 + c.val / 4096), .ofNat (0x80 + c.val / 64 % 64), .ofNat (0x80 + c.val % 64)]
  else
    [.ofNat (0xF0 + c.val / 262144), .ofNat (0x80 + c.val / 4096 % 64),
      .ofNat (0x80 + c.val / 64 % 64), .ofNat (0x80 + c.val % 64)]

/-- `str.encode("utf-8")` of a string that encodes. -/
def encode (s : PyStr) : List Byte := s.flatMap encodeChar

@[simp] theorem encode_nil : encode [] = [] := rfl

@[simp] theorem encode_cons (c : CodePoint) (s : PyStr) :
    encode (c :: s) = encodeChar c ++ encode s := List.flatMap_cons

@[simp] theorem encode_append (s t : PyStr) : encode (s ++ t) = encode s ++ encode t :=
  List.flatMap_append

theorem toNat_ofNat {n : Nat} (h : n < 256) : (UInt8.ofNat n).toNat = n := by
  rw [UInt8.toNat_ofNat']
  exact Nat.mod_eq_of_lt h

theorem codePoint_val (c : CodePoint) {n : Nat} (h : n = c.val) : codePoint n = c := by
  subst h
  exact Fin.ext (Nat.mod_eq_of_lt c.isLt)

/-- A continuation byte for six bits. -/
theorem isContinuation_ofNat {n : Nat} (h : n < 64) :
    isContinuation (.ofNat (0x80 + n)) = true := by
  have hn : (UInt8.ofNat (0x80 + n)).toNat = 0x80 + n := toNat_ofNat (by omega)
  simp only [isContinuation, hn, Bool.and_eq_true, decide_eq_true_eq]
  omega

section Forms

variable {b c d e : Byte} (pos : Nat) (rest : List Byte)

theorem decodeFrom_one (h : b.toNat < 0x80) : decodeFrom pos (b :: rest) =
    (decodeFrom (pos + 1) rest).map (codePoint b.toNat :: ·) := by
  rw [decodeFrom.eq_def]
  simp only [if_pos h]

theorem decodeFrom_two (hlow : 0xC2 ≤ b.toNat) (hhigh : b.toNat < 0xE0)
    (hc : isContinuation c = true) : decodeFrom pos (b :: c :: rest) =
      (decodeFrom (pos + 2) rest).map
        (codePoint ((b.toNat - 0xC0) * 64 + (c.toNat - 0x80)) :: ·) := by
  have h80 : ¬ b.toNat < 0x80 := by omega
  have hC2 : ¬ b.toNat < 0xC2 := by omega
  rw [decodeFrom.eq_def]
  simp only [if_neg h80, if_neg hC2, if_pos hhigh, if_pos hc]

theorem decodeFrom_three (hlow : 0xE0 ≤ b.toNat) (hhigh : b.toNat < 0xF0)
    (hc : isSecond b c = true) (hd : isContinuation d = true) :
    decodeFrom pos (b :: c :: d :: rest) = (decodeFrom (pos + 3) rest).map (codePoint
      ((b.toNat - 0xE0) * 4096 + (c.toNat - 0x80) * 64 + (d.toNat - 0x80)) :: ·) := by
  have h80 : ¬ b.toNat < 0x80 := by omega
  have hC2 : ¬ b.toNat < 0xC2 := by omega
  have hE0 : ¬ b.toNat < 0xE0 := by omega
  rw [decodeFrom.eq_def]
  simp only [if_neg h80, if_neg hC2, if_neg hE0, if_pos hhigh, if_pos hc, if_pos hd]

theorem decodeFrom_four (hlow : 0xF0 ≤ b.toNat) (hhigh : b.toNat < 0xF5)
    (hc : isSecond b c = true) (hd : isContinuation d = true) (he : isContinuation e = true) :
    decodeFrom pos (b :: c :: d :: e :: rest) = (decodeFrom (pos + 4) rest).map (codePoint
      ((b.toNat - 0xF0) * 262144 + (c.toNat - 0x80) * 4096 + (d.toNat - 0x80) * 64 +
        (e.toNat - 0x80)) :: ·) := by
  have h80 : ¬ b.toNat < 0x80 := by omega
  have hC2 : ¬ b.toNat < 0xC2 := by omega
  have hE0 : ¬ b.toNat < 0xE0 := by omega
  have hF0 : ¬ b.toNat < 0xF0 := by omega
  rw [decodeFrom.eq_def]
  simp only [if_neg h80, if_neg hC2, if_neg hE0, if_neg hF0, if_pos hhigh, if_pos hc, if_pos hd,
    if_pos he]

end Forms

/-- Decoding one encoded character. -/
theorem decodeFrom_encodeChar {c : CodePoint} (hc : c.isSurrogate = false) (pos : Nat)
    (rest : List Byte) : decodeFrom pos (encodeChar c ++ rest) =
      (decodeFrom (pos + (encodeChar c).length) rest).map (c :: ·) := by
  have hlt := c.isLt
  simp only [CodePoint.isSurrogate, Bool.and_eq_false_iff, decide_eq_false_iff_not] at hc
  have hlast : (UInt8.ofNat (0x80 + c.val % 64)).toNat = 0x80 + c.val % 64 := toNat_ofNat (by omega)
  have hmiddle : (UInt8.ofNat (0x80 + c.val / 64 % 64)).toNat = 0x80 + c.val / 64 % 64 :=
    toNat_ofNat (by omega)
  unfold encodeChar
  by_cases h1 : c.val < 0x80
  · have hb : (UInt8.ofNat c.val).toNat = c.val := toNat_ofNat (by omega)
    rw [if_pos h1]
    show decodeFrom pos (_ :: rest) = _
    rw [decodeFrom_one pos rest (by rw [hb]; exact h1), hb, codePoint_val c rfl]
    rfl
  rw [if_neg h1]
  by_cases h2 : c.val < 0x800
  · have hb : (UInt8.ofNat (0xC0 + c.val / 64)).toNat = 0xC0 + c.val / 64 := toNat_ofNat (by omega)
    rw [if_pos h2]
    show decodeFrom pos (_ :: _ :: rest) = _
    rw [decodeFrom_two pos rest (by rw [hb]; omega) (by rw [hb]; omega)
      (isContinuation_ofNat (by omega)), hb, hlast, codePoint_val c (by omega)]
    rfl
  rw [if_neg h2]
  by_cases h3 : c.val < 0x10000
  · have hb : (UInt8.ofNat (0xE0 + c.val / 4096)).toNat = 0xE0 + c.val / 4096 :=
      toNat_ofNat (by omega)
    have hsecond : isSecond (.ofNat (0xE0 + c.val / 4096)) (.ofNat (0x80 + c.val / 64 % 64)) =
        true := by
      simp only [isSecond, isContinuation_ofNat (show c.val / 64 % 64 < 64 by omega), hb, hmiddle,
        Bool.and_eq_true, Bool.or_eq_true, decide_eq_true_eq, true_and]
      omega
    rw [if_pos h3]
    show decodeFrom pos (_ :: _ :: _ :: rest) = _
    rw [decodeFrom_three pos rest (by rw [hb]; omega) (by rw [hb]; omega) hsecond
      (isContinuation_ofNat (by omega)), hb, hmiddle, hlast, codePoint_val c (by omega)]
    rfl
  · have hb : (UInt8.ofNat (0xF0 + c.val / 262144)).toNat = 0xF0 + c.val / 262144 :=
      toNat_ofNat (by omega)
    have hnext : (UInt8.ofNat (0x80 + c.val / 4096 % 64)).toNat = 0x80 + c.val / 4096 % 64 :=
      toNat_ofNat (by omega)
    have hsecond : isSecond (.ofNat (0xF0 + c.val / 262144)) (.ofNat (0x80 + c.val / 4096 % 64)) =
        true := by
      simp only [isSecond, isContinuation_ofNat (show c.val / 4096 % 64 < 64 by omega), hb, hnext,
        Bool.and_eq_true, Bool.or_eq_true, decide_eq_true_eq, true_and]
      omega
    rw [if_neg h3]
    show decodeFrom pos (_ :: _ :: _ :: _ :: rest) = _
    rw [decodeFrom_four pos rest (by rw [hb]; omega) (by rw [hb]; omega) hsecond
      (isContinuation_ofNat (by omega)) (isContinuation_ofNat (by omega)), hb, hnext, hmiddle,
      hlast, codePoint_val c (by omega)]
    rfl

theorem decodeFrom_encode {s : PyStr} (hs : s.encodable = true) (pos : Nat) :
    decodeFrom pos (encode s) = .ok s := by
  induction s generalizing pos with
  | nil => rfl
  | cons c s ih =>
    simp only [PyStr.encodable, List.all_cons, Bool.and_eq_true, Bool.not_eq_true'] at hs
    rw [encode_cons, decodeFrom_encodeChar hs.1, ih hs.2]
    rfl

/-- Decoding what was encoded. -/
theorem decode_encode {s : PyStr} (hs : s.encodable = true) : decode (encode s) = .ok s :=
  decodeFrom_encode hs 0

theorem high_ofNat {n : Nat} (hlow : 0x80 ≤ n) (hhigh : n < 256) :
    0x80 ≤ (UInt8.ofNat n).toNat := by
  rw [toNat_ofNat hhigh]
  exact hlow

/-- Beyond ASCII no byte is an ASCII one. -/
theorem encodeChar_high {c : CodePoint} (hc : 0x80 ≤ c.val) {b : Byte} (hb : b ∈ encodeChar c) :
    0x80 ≤ b.toNat := by
  have hlt := c.isLt
  unfold encodeChar at hb
  rw [if_neg (by omega)] at hb
  split at hb
  · simp only [List.mem_cons, List.not_mem_nil, or_false] at hb
    rcases hb with rfl | rfl <;> exact high_ofNat (by omega) (by omega)
  · split at hb
    · simp only [List.mem_cons, List.not_mem_nil, or_false] at hb
      rcases hb with rfl | rfl | rfl <;> exact high_ofNat (by omega) (by omega)
    · simp only [List.mem_cons, List.not_mem_nil, or_false] at hb
      rcases hb with rfl | rfl | rfl | rfl <;> exact high_ofNat (by omega) (by omega)

/-- An ASCII byte of encoded text is an ASCII character of it. -/
theorem mem_encode {s : PyStr} {b : Byte} (hb : b.toNat < 0x80) (h : b ∈ encode s) :
    codePoint b.toNat ∈ s := by
  obtain ⟨c, hc, hmem⟩ := List.mem_flatMap.mp h
  have hascii : c.val < 0x80 := by
    by_contra hhigh
    have := encodeChar_high (by omega) hmem
    omega
  unfold encodeChar at hmem
  rw [if_pos hascii, List.mem_singleton] at hmem
  rw [hmem, codePoint_val c (toNat_ofNat (by omega))]
  exact hc

end Utf8

end AgentRuntimeKit.Lib
