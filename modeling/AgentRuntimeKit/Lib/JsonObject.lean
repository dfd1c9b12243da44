import AgentRuntimeKit.Lib.PyValue

/-!
# JSON objects with known fields

Objects written as a list of named fields, and what a strict reader needs of them: the value of
a field (`field_cons`), that no other field is there (`fieldsOf_object`), and strings, numbers
and literals of the expected kind.
-/

namespace AgentRuntimeKit.Lib

-- ---------------------------------------------------------------------------
-- Strings without surrogates
-- ---------------------------------------------------------------------------

/-- The text of a string that encodes to UTF-8. -/
def PyStr.toString? (s : PyStr) : Option String :=
  if s.encodable then some (String.ofList (s.map fun c => Char.ofNat c.val)) else none

theorem CodePoint.ofChar_val (c : Char) : (CodePoint.ofChar c).val = c.toNat := by
  have hlt : c.toNat < 0x110000 := by
    have hvalid := c.valid
    simp only [UInt32.isValidChar, Nat.isValidChar] at hvalid
    show c.val.toNat < 0x110000
    omega
  exact Nat.mod_eq_of_lt hlt

theorem CodePoint.isSurrogate_ofChar (c : Char) : (CodePoint.ofChar c).isSurrogate = false := by
  have hvalid := c.valid
  simp only [UInt32.isValidChar, Nat.isValidChar] at hvalid
  have hval : (CodePoint.ofChar c).val = c.val.toNat := CodePoint.ofChar_val c
  rw [CodePoint.isSurrogate, hval, Bool.and_eq_false_iff, decide_eq_false_iff_not,
    decide_eq_false_iff_not]
  omega

theorem PyStr.encodable_ofString (s : String) : (PyStr.ofString s).encodable = true := by
  rw [PyStr.encodable, List.all_eq_true]
  intro c hc
  obtain ⟨ch, -, rfl⟩ := List.mem_map.mp hc
  rw [CodePoint.isSurrogate_ofChar]
  rfl

@[simp] theorem PyStr.toString?_ofString (s : String) : (PyStr.ofString s).toString? = some s := by
  have hchars : (PyStr.ofString s).map (fun c => Char.ofNat c.val) = s.toList := by
    rw [PyStr.ofString, List.map_map]
    refine (List.map_congr_left fun c _ => ?_).trans (List.map_id _)
    rw [Function.comp, CodePoint.ofChar_val, Char.ofNat_toNat]
    rfl
  rw [PyStr.toString?, if_pos (PyStr.encodable_ofString s), hchars, String.ofList_toList]

theorem PyStr.ofString_injective {s t : String} (h : PyStr.ofString s = PyStr.ofString t) :
    s = t := by
  have hs := PyStr.toString?_ofString s
  rw [h, PyStr.toString?_ofString] at hs
  exact (Option.some.inj hs).symm

@[simp] theorem PyStr.ofString_inj {s t : String} :
    PyStr.ofString s = PyStr.ofString t ↔ s = t :=
  ⟨PyStr.ofString_injective, fun h => by rw [h]⟩

namespace PyValue

-- ---------------------------------------------------------------------------
-- Fields
-- ---------------------------------------------------------------------------

/-- A string that the source writes out. -/
def text (s : String) : PyValue := .str (.ofString s)

/-- A string key. -/
def key (name : String) : PyKey := .str (.ofString name)

/-- An object with the given fields. -/
def object (fields : List (String × PyValue)) : PyValue :=
  .dict (fields.map fun f => (key f.1, f.2))

/-- The value of a field. -/
def field (name : String) (kvs : List (PyKey × PyValue)) : Option PyValue := lookup (key name) kvs

/-- The entries of an object that has no fields but the named ones. -/
def fieldsOf (names : List String) : PyValue → Option (List (PyKey × PyValue))
  | dict kvs => if kvs.all fun kv => names.any fun n => kv.1 = key n then some kvs else Option.none
  | _ => Option.none

theorem key_injective {a b : String} (h : key a = key b) : a = b :=
  PyStr.ofString_injective (PyKey.str.inj h)

@[simp] theorem field_nil (name : String) : field name [] = Option.none := rfl

@[simp] theorem field_cons (name name' : String) (v : PyValue) (kvs : List (PyKey × PyValue)) :
    field name ((key name', v) :: kvs) = if name = name' then some v else field name kvs := by
  rw [field, field, lookup]
  by_cases h : name = name'
  · rw [if_pos h, if_pos (by rw [h])]
  · rw [if_neg h, if_neg fun hk => h (key_injective hk)]

theorem field_map (name : String) (fields : List (String × PyValue)) :
    field name (fields.map fun f => (key f.1, f.2)) = fields.lookup name := by
  induction fields with
  | nil => rfl
  | cons f fields ih =>
    rw [List.map_cons, field_cons, List.lookup_cons]
    by_cases h : name = f.1
    · rw [if_pos h, beq_iff_eq.mpr h]
    · rw [if_neg h, ih, beq_eq_false_iff_ne.mpr h]

@[simp] theorem fieldsOf_object (names : List String) (fields : List (String × PyValue)) :
    fieldsOf names (object fields) =
      if fields.all fun f => names.contains f.1 then some (fields.map fun f => (key f.1, f.2))
      else Option.none := by
  have hany (f : String × PyValue) :
      (names.any fun n => key f.1 = key n) = names.contains f.1 := by
    rw [Bool.eq_iff_iff, List.any_eq_true, List.contains_iff_mem]
    constructor
    · rintro ⟨n, hn, hk⟩
      rw [key_injective (of_decide_eq_true hk)]
      exact hn
    · intro hmem
      exact ⟨f.1, hmem, decide_eq_true rfl⟩
  rw [object, fieldsOf, List.all_map]
  simp only [Function.comp_def, hany]

-- ---------------------------------------------------------------------------
-- Values of the expected kind
-- ---------------------------------------------------------------------------

def asStr : PyValue → Option PyStr
  | str s => some s
  | _ => Option.none

def asText (v : PyValue) : Option String := v.asStr.bind PyStr.toString?

def asList : PyValue → Option (List PyValue)
  | list xs => some xs
  | _ => Option.none

def asDict : PyValue → Option (List (PyKey × PyValue))
  | dict kvs => some kvs
  | _ => Option.none

/-- A non-negative integer. -/
def asCount : PyValue → Option Nat
  | int i => if 0 ≤ i then some i.toNat else Option.none
  | _ => Option.none

/-- `… | None`. -/
def asOptional {α : Type} (read : PyValue → Option α) : PyValue → Option (Option α)
  | none => some Option.none
  | v => (read v).map some

/-- The value spelled by one of some literals. -/
def asLiteral {α : Type} (literals : List (String × α)) (v : PyValue) : Option α :=
  v.asText.bind fun s => literals.lookup s

@[simp] theorem asDict_object (fields : List (String × PyValue)) :
    (object fields).asDict = some (fields.map fun f => (key f.1, f.2)) := rfl

@[simp] theorem asList_list (xs : List PyValue) : (list xs).asList = some xs := rfl

@[simp] theorem asText_text (s : String) : (text s).asText = some s := by
  rw [text, asText, asStr, Option.bind_some, PyStr.toString?_ofString]

@[simp] theorem asCount_int (n : Nat) : (int n).asCount = some n := by
  rw [asCount, if_pos (Int.natCast_nonneg n), Int.toNat_natCast]

end PyValue

/-- A step of a reader that succeeds. -/
theorem bind_of_read {α β : Type} {x : Option α} {a : α} (h : x = some a) (f : α → Option β) :
    (x >>= f) = f a := by rw [h]; rfl

/-- Reading written elements back. -/
theorem mapM_map_of_read {α β : Type} {write : α → β} {read : β → Option α} {xs : List α}
    (h : ∀ x ∈ xs, read (write x) = some x) : (xs.map write).mapM read = some xs := by
  induction xs with
  | nil => rfl
  | cons x xs ih =>
    rw [List.map_cons, List.mapM_cons, h x List.mem_cons_self,
      ih fun y hy => h y (List.mem_cons_of_mem _ hy)]
    rfl

end AgentRuntimeKit.Lib
