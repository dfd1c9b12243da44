import AgentRuntimeKit.Lib.JsonObject
import AgentRuntimeKit.Lib.JsonText
import AgentRuntimeKit.Lib.UuidText
import Mathlib.Data.List.DropRight

/-!
# The texts of JSON scalars can be read back

What stands before a character that ends it is determined by the whole text: a number up to the
first character that is no part of numbers, a string up to its closing quote.

## Results

* `decimalInt_injective`, `floatRepr_injective` — texts of numbers are of one number only.
* `quote_append_inj` — of a string without surrogates, followed by anything.
-/

namespace AgentRuntimeKit.Lib

/-- What is in front of the first character outside `p`. -/
theorem append_inj_of_stop {α : Type*} {p : α → Bool} {s s' r r' : List α}
    (hs : ∀ a ∈ s, p a = true) (hs' : ∀ a ∈ s', p a = true)
    (hr : ∀ a ∈ r.head?, p a = false) (hr' : ∀ a ∈ r'.head?, p a = false)
    (h : s ++ r = s' ++ r') : s = s' ∧ r = r' := by
  have htake : ∀ {s r : List α}, (∀ a ∈ s, p a = true) → (∀ a ∈ r.head?, p a = false) →
      (s ++ r).takeWhile p = s := by
    intro s r hs hr
    rw [List.takeWhile_append_of_pos hs]
    cases r with
    | nil => rw [List.takeWhile_nil, List.append_nil]
    | cons a r =>
      have ha : p a = false := hr a rfl
      rw [List.takeWhile_cons_of_neg (by simp [ha]), List.append_nil]
  have hsame : s = s' := by
    rw [← htake hs hr, h, htake hs' hr']
  exact ⟨hsame, List.append_cancel_left (hsame ▸ h)⟩

-- ---------------------------------------------------------------------------
-- Integers
-- ---------------------------------------------------------------------------

def isDecimal (c : CodePoint) : Bool := 48 ≤ c.val && c.val ≤ 57

/-- The number that decimal digits denote. -/
def decimalValue (t : PyStr) : Nat := t.foldl (fun n c => 10 * n + (c.val - 48)) 0

theorem decimalValue_decimalNat (n : Nat) : decimalValue (decimalNat n) = n := by
  have hvalue := Nat.ofDigitChars_ten_toDigits (n := n)
  rw [decimalValue, decimalNat, List.foldl_map]
  simp only [CodePoint.ofChar_val]
  exact hvalue

theorem decimalNat_injective {m n : Nat} (h : decimalNat m = decimalNat n) : m = n := by
  rw [← decimalValue_decimalNat m, h, decimalValue_decimalNat]

theorem isDecimal_of_mem {n : Nat} {c : CodePoint} (h : c ∈ decimalNat n) : isDecimal c = true := by
  obtain ⟨ch, hch, rfl⟩ := List.mem_map.mp h
  have hdigit := Nat.isDigit_of_mem_toDigits (by omega) (by omega) hch
  rw [Char.isDigit, Bool.and_eq_true, decide_eq_true_eq, decide_eq_true_eq] at hdigit
  have hval : (CodePoint.ofChar ch).val = ch.val.toNat := CodePoint.ofChar_val ch
  have hlow : 48 ≤ ch.val.toNat := UInt32.le_iff_toNat_le.mp hdigit.1
  have hhigh : ch.val.toNat ≤ 57 := UInt32.le_iff_toNat_le.mp hdigit.2
  rw [isDecimal, hval, Bool.and_eq_true, decide_eq_true_eq, decide_eq_true_eq]
  exact ⟨hlow, hhigh⟩

theorem decimalNat_ne_nil (n : Nat) : decimalNat n ≠ [] := by
  rw [decimalNat, ne_eq, List.map_eq_nil_iff]
  exact Nat.toDigits_ne_nil

theorem hyphen_notMem_decimalNat (n : Nat) : hyphen ∉ decimalNat n := by
  intro hmem
  exact absurd (isDecimal_of_mem hmem) (by decide)

theorem decimalInt_injective {i j : Int} (h : decimalInt i = decimalInt j) : i = j := by
  cases i with
  | ofNat m =>
    cases j with
    | ofNat n => exact congrArg Int.ofNat (decimalNat_injective h)
    | negSucc n =>
      have hmem : hyphen ∈ decimalInt (.negSucc n) := List.mem_cons_self
      rw [← h] at hmem
      exact absurd hmem (hyphen_notMem_decimalNat m)
  | negSucc m =>
    cases j with
    | ofNat n =>
      have hmem : hyphen ∈ decimalInt (.negSucc m) := List.mem_cons_self
      rw [h] at hmem
      exact absurd hmem (hyphen_notMem_decimalNat n)
    | negSucc n =>
      have hsame := decimalNat_injective (List.cons.inj h).2
      exact congrArg Int.negSucc (Nat.succ.inj hsame)

-- ---------------------------------------------------------------------------
-- Floats
-- ---------------------------------------------------------------------------

open PyValue (floatRepr floatDigits)

theorem digitChar_val {d : Nat} (h : d < 10) : (digitChar d).val = 48 + d := by
  rw [digitChar, if_pos h]
  exact Nat.mod_eq_of_lt (by omega)

theorem floatDigits_injective {ds ds' : List (Fin 10)} (h : floatDigits ds = floatDigits ds') :
    ds = ds' := by
  refine List.map_injective_iff.mpr (fun a b hab => ?_) h
  have hval := congrArg Fin.val hab
  rw [digitChar_val a.isLt, digitChar_val b.isLt] at hval
  exact Fin.ext (by omega)

theorem isDecimal_digitChar (d : Fin 10) : isDecimal (digitChar d.val) = true := by
  rw [isDecimal, digitChar_val d.isLt, Bool.and_eq_true, decide_eq_true_eq, decide_eq_true_eq]
  omega

theorem isDecimal_of_mem_floatDigits {ds : List (Fin 10)} {c : CodePoint}
    (h : c ∈ floatDigits ds) : isDecimal c = true := by
  obtain ⟨d, -, rfl⟩ := List.mem_map.mp h
  exact isDecimal_digitChar d

/-- `0`. -/
def isZero (c : CodePoint) : Bool := c = digitChar 0

/-- Digits without the zeros at both ends. -/
def strip (t : PyStr) : PyStr := (t.dropWhile isZero).rdropWhile isZero

/-- At least two digits. -/
def twoDigits (n : Nat) : PyStr :=
  if (decimalNat n).length < 2 then digitChar 0 :: decimalNat n else decimalNat n

/-- The part of a number from its `e` on. -/
def exponentText : Option Int → PyStr
  | none => []
  | some e => PyStr.ofString (if e < 0 then "e-" else "e+") ++ twoDigits e.natAbs

/-- A float is written as digits `whole`, digits `part` after a point, and an exponent: they
are its digits, with zeros at the ends, and say where its point is. -/
structure Written (f : PyFloat) (whole part : PyStr) (e : Option Int) (lead trail : Nat) :
    Prop where
  text : floatRepr f = (if f.neg then PyStr.ofString "-" else []) ++
    (whole ++ ((if part = [] then [] else PyStr.ofString "." ++ part) ++ exponentText e))
  digits : whole ++ part =
    List.replicate lead (digitChar 0) ++ floatDigits f.digits ++ List.replicate trail (digitChar 0)
  point : f.digits ≠ [] → f.point = whole.length - lead + e.getD 0
  nonempty : whole ≠ []
  decimalWhole : ∀ c ∈ whole, isDecimal c = true
  decimalPart : ∀ c ∈ part, isDecimal c = true
  marked : part ≠ [] ∨ e ≠ none

theorem exists_written (f : PyFloat) :
    ∃ whole part e lead trail, Written f whole part e lead trail := by
  obtain ⟨neg, digits, point, hlead, htrail, hzero⟩ := f
  have hdecimal : ∀ n, ∀ c ∈ List.replicate n (digitChar 0), isDecimal c = true := by
    intro n c hc
    rw [List.eq_of_mem_replicate hc]
    decide
  cases digits with
  | nil =>
    refine ⟨[digitChar 0], [digitChar 0], none, 2, 0, ?_, rfl, fun h => absurd rfl h,
      List.cons_ne_nil _ _, hdecimal 1, hdecimal 1, .inl (List.cons_ne_nil _ _)⟩
    rw [floatRepr]
    rfl
  | cons d ds =>
    have hdigits : ∀ c ∈ floatDigits (d :: ds), isDecimal c = true :=
      fun c => isDecimal_of_mem_floatDigits
    by_cases hfixed : -4 < point ∧ point ≤ 16
    · by_cases hsmall : point ≤ 0
      · -- `0.00123`
        refine ⟨[digitChar 0], List.replicate (-point).toNat (digitChar 0) ++
          floatDigits (d :: ds), none, (-point).toNat + 1, 0, ?_, ?_, fun _ => ?_,
          List.cons_ne_nil _ _, hdecimal 1, fun c hc => ?_,
          .inl (List.append_ne_nil_of_right_ne_nil _ (List.cons_ne_nil _ _))⟩
        · have hpart : List.replicate (-point).toNat (digitChar 0) ++ floatDigits (d :: ds) ≠ [] :=
            List.append_ne_nil_of_right_ne_nil _ (List.cons_ne_nil _ _)
          have hzeroPoint : PyStr.ofString "0." = [digitChar 0] ++ PyStr.ofString "." := rfl
          rw [floatRepr, if_neg hpart]
          simp only [if_pos hfixed, if_pos hsmall]
          rw [hzeroPoint, exponentText, List.append_nil, List.append_assoc, List.append_assoc]
        · rw [List.replicate_succ]
          simp
        · simp only [List.length_singleton, Option.getD_none]
          omega
        · rcases List.mem_append.mp hc with hc | hc
          · exact hdecimal _ c hc
          · exact hdigits c hc
      · by_cases hwhole : ((d :: ds).length : Int) ≤ point
        · -- `12300.0`
          refine ⟨floatDigits (d :: ds) ++
            List.replicate (point - (d :: ds).length).toNat (digitChar 0), [digitChar 0], none, 0,
            (point - (d :: ds).length).toNat + 1, ?_, ?_, fun _ => ?_, List.cons_ne_nil _ _,
            fun c hc => ?_, hdecimal 1, .inl (List.cons_ne_nil _ _)⟩
          · rw [floatRepr]
            simp only [if_pos hfixed, if_neg hsmall, if_pos hwhole]
            rfl
          · simp [List.replicate_succ']
          · simp only [List.length_append, List.length_replicate, floatDigits, List.length_map,
              Option.getD_none]
            omega
          · rcases List.mem_append.mp hc with hc | hc
            · exact hdigits c hc
            · exact hdecimal _ c hc
        · -- `1.23`
          have hpart : floatDigits ((d :: ds).drop point.toNat) ≠ [] := by
            rw [floatDigits, ne_eq, List.map_eq_nil_iff, List.drop_eq_nil_iff]
            omega
          refine ⟨floatDigits ((d :: ds).take point.toNat),
            floatDigits ((d :: ds).drop point.toNat),
            none, 0, 0, ?_, ?_, fun _ => ?_, ?_, fun c => isDecimal_of_mem_floatDigits,
            fun c => isDecimal_of_mem_floatDigits, .inl hpart⟩
          · rw [floatRepr, if_neg hpart]
            simp only [if_pos hfixed, if_neg hsmall, if_neg hwhole]
            rw [exponentText, List.append_nil, List.append_assoc]
          · rw [floatDigits, floatDigits, ← List.map_append, List.take_append_drop]
            simp [floatDigits]
          · simp only [floatDigits, List.length_map, List.length_take, Option.getD_none]
            omega
          · rw [floatDigits, ne_eq, List.map_eq_nil_iff, List.take_eq_nil_iff]
            simp only [reduceCtorEq, or_false]
            omega
    · -- `1.23e+45`
      refine ⟨[digitChar d.val], floatDigits ds, some (point - 1), 0, 0, ?_, ?_, fun _ => ?_,
        List.cons_ne_nil _ _, fun c hc => ?_, fun c => isDecimal_of_mem_floatDigits,
        .inr (Option.some_ne_none _)⟩
      · have hpart : floatDigits ds = [] ↔ ds = [] := List.map_eq_nil_iff
        rw [floatRepr]
        simp only [if_neg hfixed, hpart, exponentText, twoDigits]
        simp only [List.cons_append, List.nil_append, List.append_assoc]
      · simp [floatDigits]
      · simp only [List.length_singleton, Option.getD_some]
        omega
      · rw [List.mem_singleton.mp hc]
        exact isDecimal_digitChar d

theorem isZero_digitChar {d : Fin 10} : isZero (digitChar d.val) = true ↔ d = 0 := by
  rw [isZero, decide_eq_true_eq]
  constructor
  · intro h
    have hval := congrArg Fin.val h
    rw [digitChar_val d.isLt, digitChar_val (by omega)] at hval
    exact Fin.ext (by rw [Fin.val_zero]; omega)
  · rintro rfl
    rfl

theorem isZero_of_mem_replicate {n : Nat} {c : CodePoint}
    (h : c ∈ List.replicate n (digitChar 0)) : isZero c = true := by
  rw [List.eq_of_mem_replicate h]
  rfl

/-- Digits that do not begin with a zero, whatever comes after them. -/
theorem head_floatDigits {ds : List (Fin 10)} (hlead : ds.head? ≠ some 0) (hds : ds ≠ [])
    (t : PyStr) : ∀ c ∈ (floatDigits ds ++ t).head?, isZero c = false := by
  intro c hc
  cases ds with
  | nil => exact absurd rfl hds
  | cons d ds =>
    obtain rfl : digitChar d.val = c := Option.some.inj hc
    rw [Bool.eq_false_iff]
    intro hzero
    exact hlead (congrArg some (isZero_digitChar.mp hzero))

theorem dropWhile_pad {n : Nat} {t : PyStr} (h : ∀ c ∈ t.head?, isZero c = false) :
    (List.replicate n (digitChar 0) ++ t).dropWhile isZero = t := by
  rw [List.dropWhile_append_of_pos fun c => isZero_of_mem_replicate]
  cases t with
  | nil => rfl
  | cons c t => exact List.dropWhile_cons_of_neg (by simp [h c rfl])

theorem strip_pad {ds : List (Fin 10)} (hlead : ds.head? ≠ some 0) (htrail : ds.getLast? ≠ some 0)
    (lead trail : Nat) : strip (List.replicate lead (digitChar 0) ++ floatDigits ds ++
      List.replicate trail (digitChar 0)) = floatDigits ds := by
  by_cases hds : ds = []
  · have hall : ∀ c ∈ List.replicate lead (digitChar 0) ++ floatDigits ds ++
        List.replicate trail (digitChar 0), isZero c = true := by
      intro c hc
      rw [hds, floatDigits, List.map_nil, List.append_nil, List.replicate_append_replicate] at hc
      exact isZero_of_mem_replicate hc
    rw [strip, List.dropWhile_eq_nil_iff.mpr hall, hds]
    rfl
  · have hreverse : (floatDigits ds).reverse = floatDigits ds.reverse := List.map_reverse.symm
    have hlast : ds.reverse.head? ≠ some 0 := by rwa [List.head?_reverse]
    have hne : ds.reverse ≠ [] := by rwa [ne_eq, List.reverse_eq_nil_iff]
    have hhead := head_floatDigits hlast hne []
    rw [List.append_nil] at hhead
    rw [strip, List.append_assoc, dropWhile_pad (head_floatDigits hlead hds _), List.rdropWhile,
      List.reverse_append, List.reverse_replicate, hreverse, dropWhile_pad hhead, ← hreverse,
      List.reverse_reverse]

/-- How many zeros come before digits that do not begin with one. -/
theorem lead_unique {ds : List (Fin 10)} (hlead : ds.head? ≠ some 0) (hds : ds ≠ [])
    {m n : Nat} {s t : PyStr}
    (h : List.replicate m (digitChar 0) ++ floatDigits ds ++ s =
      List.replicate n (digitChar 0) ++ floatDigits ds ++ t) : m = n := by
  rw [List.append_assoc, List.append_assoc] at h
  have hzeros := (append_inj_of_stop (fun c => isZero_of_mem_replicate)
    (fun c => isZero_of_mem_replicate) (head_floatDigits hlead hds s)
    (head_floatDigits hlead hds t) h).1
  have hlen := congrArg List.length hzeros
  rwa [List.length_replicate, List.length_replicate] at hlen

theorem twoDigits_injective {m n : Nat} (h : twoDigits m = twoDigits n) : m = n := by
  have hvalue : ∀ n, decimalValue (twoDigits n) = n := by
    intro n
    rw [twoDigits]
    split
    · exact decimalValue_decimalNat n
    · exact decimalValue_decimalNat n
  rw [← hvalue m, h, hvalue]

theorem exponentText_injective {e e' : Option Int} (h : exponentText e = exponentText e') :
    e = e' := by
  have hsign : ∀ e : Int, (PyStr.ofString (if e < 0 then "e-" else "e+")).length = 2 := by
    intro e
    split <;> rfl
  cases e with
  | none =>
    cases e' with
    | none => rfl
    | some e' =>
      have hlen := congrArg List.length h
      rw [exponentText, exponentText, List.length_append, hsign, List.length_nil] at hlen
      omega
  | some e =>
    cases e' with
    | none =>
      have hlen := congrArg List.length h
      rw [exponentText, exponentText, List.length_append, hsign, List.length_nil] at hlen
      omega
    | some e' =>
      rw [exponentText, exponentText] at h
      obtain ⟨hmark, hdigits⟩ := List.append_inj h ((hsign e).trans (hsign e').symm)
      have habs := twoDigits_injective hdigits
      by_cases hneg : e < 0
      · by_cases hneg' : e' < 0
        · exact congrArg some (by omega)
        · rw [if_pos hneg, if_neg hneg'] at hmark
          exact absurd (PyStr.ofString_injective hmark) (by decide)
      · by_cases hneg' : e' < 0
        · rw [if_neg hneg, if_pos hneg'] at hmark
          exact absurd (PyStr.ofString_injective hmark) (by decide)
        · exact congrArg some (by omega)

/-- An exponent begins with `e`. -/
theorem head_exponentText {e : Option Int} {c : CodePoint} (h : c ∈ (exponentText e).head?) :
    c = CodePoint.ofChar 'e' := by
  cases e with
  | none => cases h
  | some e =>
    rw [exponentText] at h
    split at h
    · exact (Option.some.inj h).symm
    · exact (Option.some.inj h).symm

theorem stop_exponentText {e : Option Int} : ∀ c ∈ (exponentText e).head?, isDecimal c = false := by
  intro c hc
  rw [head_exponentText hc]
  rfl

/-- What comes after the digits of the whole. -/
def tailText (part : PyStr) (e : Option Int) : PyStr :=
  (if part = [] then [] else PyStr.ofString "." ++ part) ++ exponentText e

theorem stop_tailText {part : PyStr} {e : Option Int} :
    ∀ c ∈ (tailText part e).head?, isDecimal c = false := by
  intro c hc
  rw [tailText] at hc
  split at hc
  · exact stop_exponentText c hc
  · obtain rfl : CodePoint.ofChar '.' = c := Option.some.inj hc
    rfl

theorem tailText_injective {part part' : PyStr} {e e' : Option Int}
    (hpart : ∀ c ∈ part, isDecimal c = true) (hpart' : ∀ c ∈ part', isDecimal c = true)
    (h : tailText part e = tailText part' e') : part = part' ∧ e = e' := by
  -- an exponent is not taken for a point
  have hpoint : ∀ {part : PyStr} {e e' : Option Int},
      exponentText e ≠ PyStr.ofString "." ++ part ++ exponentText e' := by
    intro part e e' h
    have hhead : CodePoint.ofChar '.' ∈ (exponentText e).head? := by
      rw [h]
      rfl
    exact absurd (head_exponentText hhead) (by decide)
  rw [tailText, tailText] at h
  by_cases hnil : part = []
  · by_cases hnil' : part' = []
    · rw [if_pos hnil, if_pos hnil', List.nil_append, List.nil_append] at h
      exact ⟨hnil.trans hnil'.symm, exponentText_injective h⟩
    · rw [if_pos hnil, if_neg hnil', List.nil_append] at h
      exact absurd h hpoint
  · by_cases hnil' : part' = []
    · rw [if_neg hnil, if_pos hnil', List.nil_append] at h
      exact absurd h.symm hpoint
    · rw [if_neg hnil, if_neg hnil', List.append_assoc, List.append_assoc] at h
      obtain ⟨hsame, hexponent⟩ := append_inj_of_stop hpart hpart' stop_exponentText
        stop_exponentText (List.append_cancel_left h)
      exact ⟨hsame, exponentText_injective hexponent⟩

/-- **The text of a float is the text of no other.** -/
theorem floatRepr_injective {f f' : PyFloat} (h : floatRepr f = floatRepr f') : f = f' := by
  obtain ⟨whole, part, e, lead, trail, w⟩ := exists_written f
  obtain ⟨whole', part', e', lead', trail', w'⟩ := exists_written f'
  have hnumber : ∀ {whole part : PyStr} {e : Option Int}, whole ≠ [] →
      (∀ c ∈ whole, isDecimal c = true) → ∀ t, hyphen :: t ≠ whole ++ tailText part e := by
    intro whole part e hne hdecimal t ht
    cases whole with
    | nil => exact hne rfl
    | cons c whole =>
      have hc := hdecimal c List.mem_cons_self
      rw [← (List.cons.inj ht).1] at hc
      exact absurd hc (by decide)
  have htext : (if f.neg then PyStr.ofString "-" else []) ++ (whole ++ tailText part e) =
      (if f'.neg then PyStr.ofString "-" else []) ++ (whole' ++ tailText part' e') :=
    w.text.symm.trans (h.trans w'.text)
  have hsign : f.neg = f'.neg ∧ whole ++ tailText part e = whole' ++ tailText part' e' := by
    cases hneg : f.neg with
    | true =>
      cases hneg' : f'.neg with
      | true =>
        rw [hneg, hneg'] at htext
        exact ⟨rfl, List.append_cancel_left htext⟩
      | false =>
        rw [hneg, hneg'] at htext
        exact absurd htext (hnumber w'.nonempty w'.decimalWhole _)
    | false =>
      cases hneg' : f'.neg with
      | true =>
        rw [hneg, hneg'] at htext
        exact absurd htext.symm (hnumber w.nonempty w.decimalWhole _)
      | false =>
        rw [hneg, hneg'] at htext
        exact ⟨rfl, htext⟩
  obtain ⟨hwhole, htail⟩ := append_inj_of_stop w.decimalWhole w'.decimalWhole stop_tailText
    stop_tailText hsign.2
  obtain ⟨hpart, hexponent⟩ := tailText_injective w.decimalPart w'.decimalPart htail
  have hpad : List.replicate lead (digitChar 0) ++ floatDigits f.digits ++
      List.replicate trail (digitChar 0) = List.replicate lead' (digitChar 0) ++
        floatDigits f'.digits ++ List.replicate trail' (digitChar 0) := by
    rw [← w.digits, ← w'.digits, hwhole, hpart]
  have hdigits : f.digits = f'.digits := by
    have hstrip := congrArg strip hpad
    rw [strip_pad f.noLeading f.noTrailing, strip_pad f'.noLeading f'.noTrailing] at hstrip
    exact floatDigits_injective hstrip
  have hpoint : f.point = f'.point := by
    by_cases hnil : f.digits = []
    · rw [f.zeroPoint hnil, f'.zeroPoint (hdigits ▸ hnil)]
    · have hlead : lead = lead' := by
        rw [← hdigits] at hpad
        exact lead_unique f.noLeading hnil hpad
      rw [w.point hnil, w'.point (hdigits ▸ hnil), hwhole, hlead, hexponent]
  cases f
  cases f'
  obtain rfl := hsign.1
  obtain rfl := hdigits
  obtain rfl := hpoint
  rfl

-- ---------------------------------------------------------------------------
-- Strings
-- ---------------------------------------------------------------------------

def CodePoint.isHigh (c : CodePoint) : Bool := 0xD800 ≤ c.val && c.val < 0xDC00

def CodePoint.isLow (c : CodePoint) : Bool := 0xDC00 ≤ c.val && c.val < 0xE000

/-- No high surrogate stands directly before a low one. -/
def PyStr.isApart : PyStr → Bool
  | c :: c' :: s => !(c.isHigh && c'.isLow) && isApart (c' :: s)
  | _ => true

/-- The two halves of a character, and the character. -/
example : quote true [0xD83D, 0xDE00] = quote true [0x1F600] ∧
    PyStr.isApart [0xD83D, 0xDE00] = false ∧ PyStr.isApart [0xDE00, 0xD83D] = true := by decide

theorem PyStr.isApart_cons {c : CodePoint} {s : PyStr} (h : PyStr.isApart (c :: s) = true) :
    (c.isHigh = true → ∀ c' ∈ s.head?, c'.isLow = false) ∧ s.isApart = true := by
  cases s with
  | nil =>
    refine ⟨fun _ c' hc' => ?_, rfl⟩
    cases hc'
  | cons c' s =>
    rw [isApart, Bool.and_eq_true, Bool.not_eq_true', Bool.and_eq_false_iff] at h
    refine ⟨fun hhigh a ha => ?_, h.2⟩
    obtain rfl : c' = a := Option.some.inj ha
    rcases h.1 with hno | hno
    · rw [hhigh] at hno
      cases hno
    · exact hno

theorem PyStr.isApart_of_encodable {s : PyStr} (h : s.encodable = true) : s.isApart = true := by
  induction s with
  | nil => rfl
  | cons c s ih =>
    rw [encodable, List.all_cons, Bool.and_eq_true, Bool.not_eq_true'] at h
    have hhigh : c.isHigh = false := by
      have hfree := h.1
      rw [CodePoint.isSurrogate, Bool.and_eq_false_iff, decide_eq_false_iff_not,
        decide_eq_false_iff_not] at hfree
      rw [CodePoint.isHigh, Bool.and_eq_false_iff, decide_eq_false_iff_not,
        decide_eq_false_iff_not]
      omega
    cases s with
    | nil => rfl
    | cons c' s =>
      rw [isApart, hhigh, ih h.2]
      rfl

/-- The character after a backslash, unless it is `u`. -/
def unescape (c : CodePoint) : CodePoint :=
  if c.val = 98 then 8
  else if c.val = 116 then 9
  else if c.val = 110 then 10
  else if c.val = 102 then 12
  else if c.val = 114 then 13
  else c

/-- The second half of a surrogate pair, if its escape comes next. -/
def readLow (t : PyStr) : Option Nat :=
  if t.take 2 = PyStr.ofString "\\u" then
    (readHex ((t.drop 2).take 4)).filter fun l => 0xDC00 ≤ l && l < 0xE000
  else none

/-- The character after `\u`. The two halves of a surrogate pair are one character. -/
def readUnicode (t : PyStr) : Option (CodePoint × PyStr) :=
  (readHex (t.take 4)).map fun u =>
    if 0xD800 ≤ u ∧ u < 0xDC00 then
      match readLow (t.drop 4) with
      | some l => (Fin.ofNat 0x110000 (0x10000 + (u - 0xD800) * 1024 + (l - 0xDC00)), t.drop 10)
      | none => (Fin.ofNat 0x110000 u, t.drop 4)
    else (Fin.ofNat 0x110000 u, t.drop 4)

/-- The first character of the inside of a string. -/
def readChar : PyStr → Option (CodePoint × PyStr)
  | [] => none
  | c :: t =>
    if c.val = 92 then
      match t with
      | [] => none
      | c :: t => if c.val = 117 then readUnicode t else some (unescape c, t)
    else some (c, t)

theorem hexFour_eq (n : Nat) : hexFour n = hexDigits 4 n := by
  simp [hexFour, hexDigits, Nat.div_div_eq_div_mul]

theorem length_hexFour (n : Nat) : (hexFour n).length = 4 := rfl

theorem readHex_hexFour {n : Nat} (hn : n < 0x10000) : readHex (hexFour n) = some n := by
  rw [hexFour_eq, readHex_hexDigits]
  exact congrArg some (Nat.mod_eq_of_lt hn)

theorem readLow_unicodeEscape {n : Nat} (hn : n < 0x10000) (t : PyStr) :
    readLow (unicodeEscape n ++ t) =
      (some n).filter fun l => 0xDC00 ≤ l && l < 0xE000 := by
  have hmark : (unicodeEscape n ++ t).take 2 = PyStr.ofString "\\u" := rfl
  have hdigits : ((unicodeEscape n ++ t).drop 2).take 4 = hexFour n := rfl
  rw [readLow, if_pos hmark, hdigits, readHex_hexFour hn]

/-- A surrogate that is alone. -/
theorem readUnicode_hexFour {n : Nat} (hn : n < 0x10000) {t : PyStr}
    (halone : 0xD800 ≤ n ∧ n < 0xDC00 → readLow t = none) :
    readUnicode (hexFour n ++ t) = some (Fin.ofNat 0x110000 n, t) := by
  rw [readUnicode, List.take_left' (length_hexFour n), List.drop_left' (length_hexFour n),
    readHex_hexFour hn, Option.map_some]
  by_cases hhigh : 0xD800 ≤ n ∧ n < 0xDC00
  · rw [if_pos hhigh, halone hhigh]
  · rw [if_neg hhigh]

/-- A surrogate pair. -/
theorem readUnicode_pair {h l : Nat} (hh : 0xD800 ≤ h ∧ h < 0xDC00)
    (hl : 0xDC00 ≤ l ∧ l < 0xE000) (t : PyStr) :
    readUnicode (hexFour h ++ (unicodeEscape l ++ t)) =
      some (Fin.ofNat 0x110000 (0x10000 + (h - 0xD800) * 1024 + (l - 0xDC00)), t) := by
  have hrest : (hexFour h ++ (unicodeEscape l ++ t)).drop 10 = t := rfl
  have hlow : readLow (unicodeEscape l ++ t) = some l := by
    rw [readLow_unicodeEscape (by omega)]
    exact Option.filter_some_pos (by simp [hl])
  rw [readUnicode, List.take_left' (length_hexFour h), List.drop_left' (length_hexFour h),
    readHex_hexFour (by omega), Option.map_some, if_pos hh, hlow, hrest]

/-- An escaped character is no second half, unless it is a low surrogate. -/
theorem readLow_escapeChar {c : CodePoint} (hc : c.isLow = false) (t : PyStr) :
    readLow (escapeChar true c ++ t) = none := by
  have hbound := c.isLt
  rw [CodePoint.isLow, Bool.and_eq_false_iff, decide_eq_false_iff_not,
    decide_eq_false_iff_not] at hc
  have hescape : ∀ {n : Nat} (t : PyStr), n < 0x10000 → ¬(0xDC00 ≤ n ∧ n < 0xE000) →
      readLow (unicodeEscape n ++ t) = none := by
    intro n t hn hno
    rw [readLow_unicodeEscape hn]
    exact Option.filter_some_neg (by simpa using hno)
  have hshort : ∀ {u : PyStr}, u.length = 2 → u ≠ PyStr.ofString "\\u" →
      readLow (u ++ t) = none := by
    intro u hlength hne
    rw [readLow, List.take_left' hlength, if_neg hne]
  unfold escapeChar
  split
  · exact hshort rfl (by decide)
  split
  · exact hshort rfl (by decide)
  split
  · exact hshort rfl (by decide)
  split
  · exact hshort rfl (by decide)
  split
  · exact hshort rfl (by decide)
  split
  · exact hshort rfl (by decide)
  split
  · exact hshort rfl (by decide)
  split
  · exact hescape t (by omega) (by omega)
  split
  · -- the character itself, which is no backslash
    refine if_neg fun h => ?_
    have hplain : ¬c.val = 92 := by assumption
    exact hplain (congrArg Fin.val (List.cons.inj h).1)
  split
  · exact hescape t (by omega) (by omega)
  · rw [List.append_assoc]
    exact hescape _ (by omega) (by omega)

/-- An escaped character is read back, unless it is half of a pair. -/
theorem readChar_escapeChar {ascii : Bool} {c : CodePoint} {t : PyStr}
    (halone : ascii = true → c.isHigh = true → readLow t = none) :
    readChar (escapeChar ascii c ++ t) = some (c, t) := by
  have hbound := c.isLt
  have hself : ∀ n, c.val = n → Fin.ofNat 0x110000 n = c := by
    rintro n rfl
    exact Fin.ext (Nat.mod_eq_of_lt hbound)
  have hescape : c.val < 0x10000 → (0xD800 ≤ c.val ∧ c.val < 0xDC00 → readLow t = none) →
      readChar (unicodeEscape c.val ++ t) = some (c, t) := by
    intro hn halone
    refine (readUnicode_hexFour hn halone).trans ?_
    rw [hself _ rfl]
  unfold escapeChar
  split
  · next h => rw [← hself 34 h]; rfl
  split
  · next h => rw [← hself 92 h]; rfl
  split
  · next h => rw [← hself 8 h]; rfl
  split
  · next h => rw [← hself 9 h]; rfl
  split
  · next h => rw [← hself 10 h]; rfl
  split
  · next h => rw [← hself 12 h]; rfl
  split
  · next h => rw [← hself 13 h]; rfl
  split
  · exact hescape (by omega) (by omega)
  split
  · have hplain : ¬c.val = 92 := by assumption
    exact if_neg hplain
  next hascii =>
  have hon : ascii = true := by
    rw [not_or, Bool.not_eq_false] at hascii
    exact hascii.1
  split
  · next h =>
    exact hescape h fun hhigh => halone hon (by simp [CodePoint.isHigh, hhigh])
  · next h =>
    rw [List.append_assoc]
    refine (readUnicode_pair (by omega) (by omega) t).trans ?_
    rw [hself _ (by omega)]

/-- No escaped character begins with a quote. -/
theorem escapeChar_cons (ascii : Bool) (c : CodePoint) :
    ∃ a t, escapeChar ascii c = a :: t ∧ a.val ≠ 34 := by
  unfold escapeChar
  split
  · exact ⟨_, _, rfl, by decide⟩
  split
  · exact ⟨_, _, rfl, by decide⟩
  split
  · exact ⟨_, _, rfl, by decide⟩
  split
  · exact ⟨_, _, rfl, by decide⟩
  split
  · exact ⟨_, _, rfl, by decide⟩
  split
  · exact ⟨_, _, rfl, by decide⟩
  split
  · exact ⟨_, _, rfl, by decide⟩
  split
  · exact ⟨_, _, rfl, by decide⟩
  split
  · exact ⟨_, _, rfl, by assumption⟩
  split
  · exact ⟨_, _, rfl, by decide⟩
  · exact ⟨_, _, rfl, by decide⟩

/-- What comes next inside a string is no second half. -/
theorem readLow_inside {s : PyStr} (h : ∀ c ∈ s.head?, c.isLow = false) (r : PyStr) :
    readLow (s.flatMap (escapeChar true) ++ (PyStr.ofString "\"" ++ r)) = none := by
  cases s with
  | nil =>
    refine if_neg fun hmark => ?_
    exact absurd (List.cons.inj hmark).1 (by decide)
  | cons c s =>
    rw [List.flatMap_cons, List.append_assoc]
    exact readLow_escapeChar (h c rfl) _

/-- The inside of a string, up to a quote. -/
theorem escape_append_inj {ascii : Bool} {s s' r r' : PyStr}
    (hs : ascii = true → s.isApart = true) (hs' : ascii = true → s'.isApart = true)
    (h : s.flatMap (escapeChar ascii) ++ (PyStr.ofString "\"" ++ r) =
      s'.flatMap (escapeChar ascii) ++ (PyStr.ofString "\"" ++ r')) : s = s' ∧ r = r' := by
  have hquote :
      ∀ {c : CodePoint} {t r : PyStr}, PyStr.ofString "\"" ++ r ≠ escapeChar ascii c ++ t := by
    intro c t r h
    obtain ⟨a, u, hcons, ha⟩ := escapeChar_cons ascii c
    rw [hcons] at h
    exact ha (congrArg Fin.val (List.cons.inj h).1.symm)
  have hread : ∀ {c : CodePoint} {s r : PyStr}, (ascii = true → PyStr.isApart (c :: s) = true) →
      readChar ((c :: s).flatMap (escapeChar ascii) ++ (PyStr.ofString "\"" ++ r)) =
        some (c, s.flatMap (escapeChar ascii) ++ (PyStr.ofString "\"" ++ r)) := by
    intro c s r hs
    rw [List.flatMap_cons, List.append_assoc]
    refine readChar_escapeChar fun hascii hhigh => ?_
    rw [hascii]
    exact readLow_inside ((PyStr.isApart_cons (hs hascii)).1 hhigh) r
  induction s generalizing s' with
  | nil =>
    cases s' with
    | nil => exact ⟨rfl, List.append_cancel_left h⟩
    | cons c' s' =>
      rw [List.flatMap_cons, List.append_assoc] at h
      exact absurd h hquote
  | cons c s ih =>
    cases s' with
    | nil =>
      rw [List.flatMap_cons, List.append_assoc] at h
      exact absurd h.symm hquote
    | cons c' s' =>
      have hsame := congrArg readChar h
      rw [hread hs, hread hs'] at hsame
      obtain ⟨rfl, hrest⟩ := Prod.mk.inj (Option.some.inj hsame)
      obtain ⟨rfl, hr⟩ := ih (fun hascii => (PyStr.isApart_cons (hs hascii)).2)
        (fun hascii => (PyStr.isApart_cons (hs' hascii)).2) hrest
      exact ⟨rfl, hr⟩

/-- **A string ends at its closing quote**, and is told from any other, unless an escaped surrogate
pair stands for two characters. -/
theorem quote_append_inj {ascii : Bool} {s s' r r' : PyStr}
    (hs : ascii = true → s.isApart = true) (hs' : ascii = true → s'.isApart = true)
    (h : quote ascii s ++ r = quote ascii s' ++ r') : s = s' ∧ r = r' := by
  rw [quote, quote, List.append_assoc, List.append_assoc, List.append_assoc,
    List.append_assoc] at h
  exact escape_append_inj hs hs' (List.append_cancel_left h)

end AgentRuntimeKit.Lib
