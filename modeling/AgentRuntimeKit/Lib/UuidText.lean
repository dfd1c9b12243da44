import AgentRuntimeKit.Lib.PyValue
import Mathlib.Data.List.DropRight

/-!
# UUID texts

`str(uuid)`, 32 hexadecimal digits in groups of 8, 4, 4, 4 and 12, and the reading of such a
text. `readUuid_uuidText` is the round trip, `parseUuid_uuidText` the one of the constructor, which
accepts other spellings too.
-/

namespace AgentRuntimeKit.Lib

/-- The lowest `k` hexadecimal digits, most significant first. -/
def hexDigits : Nat → Nat → PyStr
  | 0, _ => []
  | k + 1, n => hexDigits k (n / 16) ++ [digitChar (n % 16)]

/-- The value of a hexadecimal digit. -/
def hexValue (c : CodePoint) : Option Nat :=
  if 48 ≤ c.val ∧ c.val ≤ 57 then some (c.val - 48)
  else if 97 ≤ c.val ∧ c.val ≤ 102 then some (c.val - 87)
  else if 65 ≤ c.val ∧ c.val ≤ 70 then some (c.val - 55)
  else none

/-- The number some hexadecimal digits denote. -/
def readHex (digits : PyStr) : Option Nat :=
  digits.foldlM (fun n c => (hexValue c).map fun d => 16 * n + d) 0

/-- `-`. -/
def hyphen : CodePoint := CodePoint.ofChar '-'

/-- Hyphens after 8, 12, 16 and 20 digits. -/
def groupDigits (h : PyStr) : PyStr :=
  h.take 8 ++ hyphen :: ((h.drop 8).take 4 ++ hyphen :: ((h.drop 12).take 4 ++
    hyphen :: ((h.drop 16).take 4 ++ hyphen :: h.drop 20)))

/-- The digits of a text with hyphens in their places. -/
def ungroupDigits (s : PyStr) : Option PyStr :=
  if s[8]? = some hyphen ∧ s[13]? = some hyphen ∧ s[18]? = some hyphen ∧ s[23]? = some hyphen then
    some (s.take 8 ++ ((s.drop 9).take 4 ++ ((s.drop 14).take 4 ++ ((s.drop 19).take 4 ++
      s.drop 24))))
  else none

/-- `str(uuid)`. -/
def uuidText (u : BitVec 128) : PyStr := groupDigits (hexDigits 32 u.toNat)

/-- The UUID that 32 hexadecimal digits denote. -/
def readDigits (h : PyStr) : Option (BitVec 128) :=
  if h.length = 32 then (readHex h).map (BitVec.ofNat 128) else none

/-- A text of a UUID, with or without its hyphens. -/
def readUuid (s : PyStr) : Option (BitVec 128) :=
  if s.length = 32 then readDigits s else (ungroupDigits s).bind readDigits

theorem length_hexDigits (k n : Nat) : (hexDigits k n).length = k := by
  induction k generalizing n with
  | zero => rfl
  | succ k ih => rw [hexDigits, List.length_append, ih, List.length_singleton]

theorem hexValue_digitChar {d : Nat} (h : d < 16) : hexValue (digitChar d) = some d := by
  have hall : ∀ d : Fin 16, hexValue (digitChar d.val) = some d.val := by decide
  exact hall ⟨d, h⟩

theorem readHex_hexDigits (k n : Nat) : readHex (hexDigits k n) = some (n % 16 ^ k) := by
  induction k generalizing n with
  | zero => rw [Nat.pow_zero, Nat.mod_one]; rfl
  | succ k ih =>
    have hdigit : hexValue (digitChar (n % 16)) = some (n % 16) :=
      hexValue_digitChar (Nat.mod_lt n (by omega))
    have hmod : n % 16 ^ (k + 1) = 16 * (n / 16 % 16 ^ k) + n % 16 := by
      rw [Nat.pow_succ, Nat.mul_comm (16 ^ k) 16, Nat.mod_mul]
      omega
    have hrest := ih (n / 16)
    rw [readHex] at hrest ⊢
    rw [hexDigits, List.foldlM_append, hrest, hmod]
    show (hexValue (digitChar (n % 16))).map _ >>= _ = _
    rw [hdigit]
    rfl

theorem ungroupDigits_groupDigits {h : PyStr} (hlen : h.length = 32) :
    ungroupDigits (groupDigits h) = some h := by
  obtain ⟨a, b, c, d, e, ha, hb, hc, hd, he⟩ : ∃ a b c d e : PyStr, a.length = 8 ∧ b.length = 4 ∧
      c.length = 4 ∧ d.length = 4 ∧ h = a ++ (b ++ (c ++ (d ++ e))) := by
    refine ⟨h.take 8, (h.drop 8).take 4, (h.drop 12).take 4, (h.drop 16).take 4, h.drop 20, ?_⟩
    refine ⟨by simp [hlen], by simp [hlen], by simp [hlen], by simp [hlen], ?_⟩
    have h4 : h.drop 16 = (h.drop 16).take 4 ++ h.drop 20 := by
      rw [show h.drop 20 = (h.drop 16).drop 4 by rw [List.drop_drop], List.take_append_drop]
    have h3 : h.drop 12 = (h.drop 12).take 4 ++ h.drop 16 := by
      rw [show h.drop 16 = (h.drop 12).drop 4 by rw [List.drop_drop], List.take_append_drop]
    have h2 : h.drop 8 = (h.drop 8).take 4 ++ h.drop 12 := by
      rw [show h.drop 12 = (h.drop 8).drop 4 by rw [List.drop_drop], List.take_append_drop]
    rw [← h4, ← h3, ← h2, List.take_append_drop]
  subst he
  have hgroup : groupDigits (a ++ (b ++ (c ++ (d ++ e)))) =
      a ++ hyphen :: (b ++ hyphen :: (c ++ hyphen :: (d ++ hyphen :: e))) := by
    simp (disch := omega) [groupDigits, List.drop_append, List.drop_of_length_le, ha, hb, hc]
  rw [hgroup, ungroupDigits]
  simp (disch := omega) [List.drop_append, List.getElem?_append, List.drop_of_length_le,
    ha, hb, hc, hd]
  exact ⟨rfl, rfl, rfl, rfl⟩

theorem length_groupDigits {h : PyStr} (hlen : h.length = 32) : (groupDigits h).length = 36 := by
  simp [groupDigits, hlen]

theorem readDigits_hexDigits (u : BitVec 128) : readDigits (hexDigits 32 u.toNat) = some u := by
  have hlt : u.toNat < 16 ^ 32 := by
    have h := u.isLt
    norm_num at h ⊢
    exact h
  rw [readDigits, if_pos (length_hexDigits 32 u.toNat), readHex_hexDigits, Nat.mod_eq_of_lt hlt,
    Option.map_some, BitVec.ofNat_toNat, BitVec.setWidth_eq]

/-- A UUID is read back from its text. -/
@[simp] theorem readUuid_uuidText (u : BitVec 128) : readUuid (uuidText u) = some u := by
  have hlen : (hexDigits 32 u.toNat).length = 32 := length_hexDigits 32 u.toNat
  have hgroup : (groupDigits (hexDigits 32 u.toNat)).length ≠ 32 := by
    rw [length_groupDigits hlen]
    omega
  rw [uuidText, readUuid, if_neg hgroup, ungroupDigits_groupDigits hlen, Option.bind_some,
    readDigits_hexDigits]

-- ---------------------------------------------------------------------------
-- Other spellings
-- ---------------------------------------------------------------------------

/-- `s.replace(pattern, "")`, with some characters of a match still to be passed over. -/
def removeFrom (pattern : PyStr) : Nat → PyStr → PyStr
  | _, [] => []
  | skip + 1, _ :: s => removeFrom pattern skip s
  | 0, c :: s =>
    if pattern.isPrefixOf (c :: s) then removeFrom pattern (pattern.length - 1) s
    else c :: removeFrom pattern 0 s

def isBrace (c : CodePoint) : Bool := c.val = 123 || c.val = 125

/-- `uuid.UUID(hex)`: 32 hexadecimal digits; braces, hyphens and a URN prefix are optional. What
else `int(hex, 16)` reads from 32 characters, with a sign, `0x`, underscores, blanks, or the decimal
digits of other scripts, is no documented form of a UUID, and is left out. -/
def parseUuid (s : PyStr) : Option (BitVec 128) :=
  let hex := removeFrom (PyStr.ofString "uuid:") 0 (removeFrom (PyStr.ofString "urn:") 0 s)
  readDigits (((hex.dropWhile isBrace).rdropWhile isBrace).filter fun c => c ≠ hyphen)

theorem removeFrom_eq_self {pattern : PyStr} {c : CodePoint} {s : PyStr}
    (hhead : pattern.head? = some c) (h : c ∉ s) : removeFrom pattern 0 s = s := by
  induction s with
  | nil => rfl
  | cons d s ih =>
    have hne : c ≠ d := fun hcd => h (hcd ▸ List.mem_cons_self)
    have hno : pattern.isPrefixOf (d :: s) = false := by
      cases pattern with
      | nil => cases hhead
      | cons e pattern =>
        cases hhead
        rw [List.isPrefixOf, beq_eq_false_iff_ne.mpr hne, Bool.false_and]
    rw [removeFrom, hno, if_neg Bool.false_ne_true, ih fun hs => h (List.mem_cons_of_mem d hs)]

theorem mem_hexDigits {k n : Nat} {c : CodePoint} (h : c ∈ hexDigits k n) :
    ∃ d, d < 16 ∧ c = digitChar d := by
  induction k generalizing n with
  | zero => exact absurd h List.not_mem_nil
  | succ k ih =>
    rw [hexDigits, List.mem_append, List.mem_singleton] at h
    rcases h with h | h
    · exact ih h
    · exact ⟨n % 16, Nat.mod_lt n (by omega), h⟩

/-- Neither a hyphen, nor a brace, nor the `u` of a prefix is a hexadecimal digit. -/
theorem digitChar_ne {d : Nat} (h : d < 16) : digitChar d ≠ hyphen ∧ isBrace (digitChar d) = false ∧
    digitChar d ≠ CodePoint.ofChar 'u' := by
  have hall : ∀ d : Fin 16, digitChar d.val ≠ hyphen ∧ isBrace (digitChar d.val) = false ∧
      digitChar d.val ≠ CodePoint.ofChar 'u' := by decide
  exact hall ⟨d, h⟩

theorem filter_groupDigits {h : PyStr} (hno : ∀ c ∈ h, c ≠ hyphen) :
    (groupDigits h).filter (fun c => c ≠ hyphen) = h := by
  have hkeep (k l : Nat) : ((h.drop k).take l).filter (fun c => decide (c ≠ hyphen)) =
      (h.drop k).take l := by
    refine List.filter_eq_self.mpr fun c hc => ?_
    exact decide_eq_true (hno c (List.mem_of_mem_drop (List.mem_of_mem_take hc)))
  have hfirst := hkeep 0 8
  have hlast : (h.drop 20).filter (fun c => decide (c ≠ hyphen)) = h.drop 20 :=
    List.filter_eq_self.mpr fun c hc => decide_eq_true (hno c (List.mem_of_mem_drop hc))
  rw [List.drop_zero] at hfirst
  have hskip (s : PyStr) : (hyphen :: s).filter (fun c => decide (c ≠ hyphen)) =
      s.filter fun c => decide (c ≠ hyphen) := List.filter_cons_of_neg (by simp)
  simp only [groupDigits, List.filter_append, hskip, hfirst, hkeep, hlast]
  have h4 : (h.drop 16).take 4 ++ h.drop 20 = h.drop 16 := by
    rw [show h.drop 20 = (h.drop 16).drop 4 by rw [List.drop_drop], List.take_append_drop]
  have h3 : (h.drop 12).take 4 ++ h.drop 16 = h.drop 12 := by
    rw [show h.drop 16 = (h.drop 12).drop 4 by rw [List.drop_drop], List.take_append_drop]
  have h2 : (h.drop 8).take 4 ++ h.drop 12 = h.drop 8 := by
    rw [show h.drop 12 = (h.drop 8).drop 4 by rw [List.drop_drop], List.take_append_drop]
  rw [h4, h3, h2, List.take_append_drop]

theorem mem_groupDigits {h : PyStr} {c : CodePoint} (hc : c ∈ groupDigits h) :
    c = hyphen ∨ c ∈ h := by
  simp only [groupDigits, List.mem_append, List.mem_cons] at hc
  rcases hc with hc | rfl | hc | rfl | hc | rfl | hc | rfl | hc
  · exact Or.inr (List.mem_of_mem_take hc)
  · exact Or.inl rfl
  · exact Or.inr (List.mem_of_mem_drop (List.mem_of_mem_take hc))
  · exact Or.inl rfl
  · exact Or.inr (List.mem_of_mem_drop (List.mem_of_mem_take hc))
  · exact Or.inl rfl
  · exact Or.inr (List.mem_of_mem_drop (List.mem_of_mem_take hc))
  · exact Or.inl rfl
  · exact Or.inr (List.mem_of_mem_drop hc)

/-- The constructor reads what `str` writes. -/
theorem parseUuid_uuidText (u : BitVec 128) : parseUuid (uuidText u) = some u := by
  have hchar : ∀ c ∈ uuidText u, c ≠ CodePoint.ofChar 'u' ∧ isBrace c = false := by
    intro c hc
    rcases mem_groupDigits hc with rfl | hc
    · exact ⟨by decide, by decide⟩
    · obtain ⟨d, hd, rfl⟩ := mem_hexDigits hc
      obtain ⟨-, hbrace, hu⟩ := digitChar_ne hd
      exact ⟨hu, hbrace⟩
  have hno : CodePoint.ofChar 'u' ∉ uuidText u := fun h => (hchar _ h).1 rfl
  have hleft : (uuidText u).dropWhile isBrace = uuidText u := by
    cases htext : uuidText u with
    | nil => rfl
    | cons c s =>
      have hc := (hchar c (by rw [htext]; exact List.mem_cons_self)).2
      rw [List.dropWhile_cons_of_neg (by rw [hc]; decide)]
  have hright : (uuidText u).rdropWhile isBrace = uuidText u := by
    rw [List.rdropWhile_eq_self_iff]
    intro hne
    rw [(hchar _ (List.getLast_mem hne)).2]
    decide
  have hdigits : ∀ c ∈ hexDigits 32 u.toNat, c ≠ hyphen := by
    intro c hc
    obtain ⟨d, hd, rfl⟩ := mem_hexDigits hc
    exact (digitChar_ne hd).1
  show readDigits (((removeFrom (PyStr.ofString "uuid:") 0
    (removeFrom (PyStr.ofString "urn:") 0 (uuidText u))).dropWhile isBrace).rdropWhile
      isBrace |>.filter fun c => c ≠ hyphen) = some u
  rw [removeFrom_eq_self (c := CodePoint.ofChar 'u') rfl hno,
    removeFrom_eq_self (c := CodePoint.ofChar 'u') rfl hno, hleft, hright, uuidText,
    filter_groupDigits hdigits, readDigits_hexDigits]

end AgentRuntimeKit.Lib
