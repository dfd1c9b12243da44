import AgentRuntimeKit.Lib.JsonScalars
import AgentRuntimeKit.Lib.Lossless
import Mathlib.Data.Set.Function

/-!
# JSON texts can be read back

`json.dumps` of lossless JSON, with a comma and any space between the items, and the entries in
their order: the text says where it ends, if no character of a number comes next, and is the text of
one value only. With `ensure_ascii`, two surrogates side by side have the text of the character that
they make, so there the strings have to be apart (`Told`).

* `separated_inj`     — items between commas, in front of a bracket.
* `readable`          — every value is read back from its text, whatever follows.
* `dumps_injective`   — two values with one text are the same value.
* `readBack`          — a reader of given values, which inverts `json.dumps` on them.
* `dumps_ascii`       — the compact text with `ensure_ascii` is ASCII.
-/

namespace AgentRuntimeKit.Lib

/-- `separators=(",", ":"), ensure_ascii=True`, in the order of the entries. -/
def DumpOptions.compactAscii : DumpOptions :=
  ⟨true, false, PyStr.ofString ",", PyStr.ofString ":"⟩

/-- A character of a number. -/
def inNumber (c : CodePoint) : Bool :=
  isDecimal c || c.val = 43 || c.val = 45 || c.val = 46 || c.val = 101

/-- No number goes on here. -/
def Stop (r : PyStr) : Prop := ∀ c ∈ r.head?, inNumber c = false

theorem stop_cons {c : CodePoint} (h : inNumber c = false) (r : PyStr) : Stop (c :: r) := by
  intro a ha
  obtain rfl : c = a := Option.some.inj ha
  exact h

-- ---------------------------------------------------------------------------
-- Items between commas
-- ---------------------------------------------------------------------------

/-- `,`. -/
def comma : CodePoint := CodePoint.ofChar ','

theorem intercalate_cons {α : Type*} (sep x : List α) (xs : List (List α)) :
    sep.intercalate (x :: xs) = x ++ xs.flatMap (sep ++ ·) := by
  induction xs generalizing x with
  | nil => rw [List.intercalate_singleton, List.flatMap_nil, List.append_nil]
  | cons y ys ih =>
    rw [List.intercalate_cons_cons, ih, List.flatMap_cons, List.append_assoc, List.append_assoc]

section Separated

variable {α : Type*} {space : PyStr} {item : α → PyStr} {close : CodePoint} {xs ys : List α}
  {r r' : PyStr}

/-- The first item is read back, in front of anything that stops a number. -/
def ReadsAs (item : α → PyStr) (x y : α) : Prop :=
  ∀ r r', Stop r → Stop r' → item x ++ r = item y ++ r' → x = y ∧ r = r'

/-- The items after the first, and the bracket. -/
def tailItems (space : PyStr) (item : α → PyStr) (close : CodePoint) (xs : List α) (r : PyStr) :
    PyStr := (xs.map item).flatMap (comma :: space ++ ·) ++ close :: r

theorem tailItems_cons (x : α) (xs : List α) (r : PyStr) :
    tailItems space item close (x :: xs) r =
      comma :: (space ++ (item x ++ tailItems space item close xs r)) := by
  rw [tailItems, tailItems, List.map_cons, List.flatMap_cons, List.append_assoc, List.append_assoc,
    List.cons_append]

theorem stop_tailItems (hstop : inNumber close = false) (xs : List α) (r : PyStr) :
    Stop (tailItems space item close xs r) := by
  cases xs with
  | nil => exact stop_cons hstop r
  | cons x xs =>
    rw [tailItems_cons]
    exact stop_cons rfl _

theorem tailItems_inj (hclose : close ≠ comma) (hstop : inNumber close = false)
    (hitem : ∀ x ∈ xs, ∀ y ∈ ys, ReadsAs item x y)
    (h : tailItems space item close xs r = tailItems space item close ys r') :
    xs = ys ∧ r = r' := by
  induction xs generalizing ys with
  | nil =>
    cases ys with
    | nil => exact ⟨rfl, (List.cons.inj h).2⟩
    | cons y ys =>
      rw [tailItems_cons] at h
      exact absurd (List.cons.inj h).1 hclose
  | cons x xs ih =>
    cases ys with
    | nil =>
      rw [tailItems_cons] at h
      exact absurd (List.cons.inj h).1.symm hclose
    | cons y ys =>
      rw [tailItems_cons, tailItems_cons] at h
      obtain ⟨rfl, htail⟩ := hitem x List.mem_cons_self y List.mem_cons_self _ _
        (stop_tailItems hstop xs r) (stop_tailItems hstop ys r')
        (List.append_cancel_left (List.cons.inj h).2)
      obtain ⟨rfl, hr⟩ := ih (fun x hx y hy => hitem x (List.mem_cons_of_mem _ hx) y
        (List.mem_cons_of_mem _ hy)) htail
      exact ⟨rfl, hr⟩

/-- **Items between commas are read back**, up to the bracket that closes them. -/
theorem separated_inj (hclose : close ≠ comma) (hstop : inNumber close = false)
    (hitem : ∀ x ∈ xs, ∀ y ∈ ys, ReadsAs item x y)
    (hx : ∀ x ∈ xs, ∃ c t, item x = c :: t ∧ c ≠ close)
    (hy : ∀ y ∈ ys, ∃ c t, item y = c :: t ∧ c ≠ close)
    (h : List.intercalate (comma :: space) (xs.map item) ++ close :: r =
      List.intercalate (comma :: space) (ys.map item) ++ close :: r') : xs = ys ∧ r = r' := by
  cases xs with
  | nil =>
    cases ys with
    | nil => exact ⟨rfl, (List.cons.inj h).2⟩
    | cons y ys =>
      obtain ⟨c, t, hc, hne⟩ := hy y List.mem_cons_self
      rw [List.map_cons, intercalate_cons, hc] at h
      exact absurd (List.cons.inj h).1.symm hne
  | cons x xs =>
    cases ys with
    | nil =>
      obtain ⟨c, t, hc, hne⟩ := hx x List.mem_cons_self
      rw [List.map_cons, intercalate_cons, hc] at h
      exact absurd (List.cons.inj h).1 hne
    | cons y ys =>
      rw [List.map_cons, List.map_cons, intercalate_cons, intercalate_cons, List.append_assoc,
        List.append_assoc] at h
      obtain ⟨rfl, htail⟩ := hitem x List.mem_cons_self y List.mem_cons_self _ _
        (stop_tailItems hstop xs r) (stop_tailItems hstop ys r') h
      obtain ⟨rfl, hr⟩ := tailItems_inj hclose hstop (fun x hx y hy =>
        hitem x (List.mem_cons_of_mem _ hx) y (List.mem_cons_of_mem _ hy)) htail
      exact ⟨rfl, hr⟩

end Separated

-- ---------------------------------------------------------------------------
-- Values
-- ---------------------------------------------------------------------------

namespace PyValue

mutual
/-- No string holds a surrogate. -/
def surrogateFree : PyValue → Bool
  | str s => s.encodable
  | list xs => surrogateFreeList xs
  | tuple xs => surrogateFreeList xs
  | dict kvs => surrogateFreeDict kvs
  | _ => true
def surrogateFreeList : List PyValue → Bool
  | [] => true
  | x :: xs => x.surrogateFree && surrogateFreeList xs
def surrogateFreeDict : List (PyKey × PyValue) → Bool
  | [] => true
  | (.str s, v) :: kvs => s.encodable && v.surrogateFree && surrogateFreeDict kvs
  | (_, v) :: kvs => v.surrogateFree && surrogateFreeDict kvs
end

mutual
/-- All strings and keys are apart. -/
def isApart : PyValue → Bool
  | str s => s.isApart
  | list xs => isApartList xs
  | tuple xs => isApartList xs
  | dict kvs => isApartDict kvs
  | _ => true
def isApartList : List PyValue → Bool
  | [] => true
  | x :: xs => x.isApart && isApartList xs
def isApartDict : List (PyKey × PyValue) → Bool
  | [] => true
  | (k, v) :: kvs => (keyText k).isApart && v.isApart && isApartDict kvs
end

mutual
/-- What holds no surrogate. -/
theorem isApart_of_surrogateFree : ∀ v : PyValue, v.isJson = true → v.surrogateFree = true →
    v.isApart = true
  | list xs, hv, hs => by
    rw [isJson] at hv
    rw [surrogateFree] at hs
    exact isApartList_of_surrogateFree xs hv hs
  | dict kvs, hv, hs => by
    rw [isJson] at hv
    rw [surrogateFree] at hs
    exact isApartDict_of_surrogateFree kvs hv hs
  | str _, _, hs => PyStr.isApart_of_encodable hs
  | none, _, _ => rfl
  | bool _, _, _ => rfl
  | int _, _, _ => rfl
  | float _, _, _ => rfl
theorem isApartList_of_surrogateFree : ∀ xs : List PyValue, isJsonList xs = true →
    surrogateFreeList xs = true → isApartList xs = true
  | [], _, _ => rfl
  | x :: xs, hv, hs => by
    rw [isJsonList, Bool.and_eq_true] at hv
    rw [surrogateFreeList, Bool.and_eq_true] at hs
    rw [isApartList, isApart_of_surrogateFree x hv.1 hs.1,
      isApartList_of_surrogateFree xs hv.2 hs.2]
    rfl
theorem isApartDict_of_surrogateFree : ∀ kvs : List (PyKey × PyValue), isJsonDict kvs = true →
    surrogateFreeDict kvs = true → isApartDict kvs = true
  | [], _, _ => rfl
  | (k, v) :: kvs, hv, hs => by
    obtain ⟨s, rfl, hvalue, -, hrest⟩ := isJsonDict_cons hv
    rw [surrogateFreeDict, Bool.and_eq_true, Bool.and_eq_true] at hs
    have hkey : (keyText (.str s)).isApart = true := PyStr.isApart_of_encodable hs.1.1
    rw [isApartDict, hkey, isApart_of_surrogateFree v hvalue hs.1.2,
      isApartDict_of_surrogateFree kvs hrest hs.2]
    rfl
end

/-- What the first character of a text says about the value. -/
inductive Shape
  | null
  | yes
  | no
  | number
  | string
  | array
  | object
deriving DecidableEq

def shape : PyValue → Shape
  | none | nonFinite _ => .null
  | bool true => .yes
  | bool false => .no
  | int _ | float _ => .number
  | str _ => .string
  | list _ | tuple _ => .array
  | dict _ => .object

def shapeOf (c : CodePoint) : Option Shape :=
  if inNumber c then some .number
  else if c = CodePoint.ofChar 'n' then some .null
  else if c = CodePoint.ofChar 't' then some .yes
  else if c = CodePoint.ofChar 'f' then some .no
  else if c = CodePoint.ofChar '"' then some .string
  else if c = CodePoint.ofChar '[' then some .array
  else if c.val = 123 then some .object
  else Option.none

theorem inNumber_of_isDecimal {c : CodePoint} (h : isDecimal c = true) : inNumber c = true := by
  simp [inNumber, h]

theorem mem_decimalInt {i : Int} {c : CodePoint} (h : c ∈ decimalInt i) :
    isDecimal c = true ∨ c = hyphen := by
  cases i with
  | ofNat n => exact .inl (isDecimal_of_mem h)
  | negSucc n =>
    rcases List.mem_cons.mp h with rfl | h
    · exact .inr rfl
    · exact .inl (isDecimal_of_mem h)

theorem inNumber_of_mem_decimalInt {i : Int} {c : CodePoint} (h : c ∈ decimalInt i) :
    inNumber c = true := by
  rcases mem_decimalInt h with h | rfl
  · exact inNumber_of_isDecimal h
  · rfl

theorem inNumber_of_mem_twoDigits {n : Nat} {c : CodePoint} (h : c ∈ twoDigits n) :
    inNumber c = true := by
  rw [twoDigits] at h
  split at h
  · rcases List.mem_cons.mp h with rfl | h
    · rfl
    · exact inNumber_of_isDecimal (isDecimal_of_mem h)
  · exact inNumber_of_isDecimal (isDecimal_of_mem h)

theorem inNumber_of_mem_exponentText {e : Option Int} {c : CodePoint} (h : c ∈ exponentText e) :
    inNumber c = true := by
  cases e with
  | none => exact absurd h List.not_mem_nil
  | some e =>
    have hmark : ∀ c ∈ PyStr.ofString (if e < 0 then "e-" else "e+"), inNumber c = true := by
      split
      · exact List.all_eq_true.mp rfl
      · exact List.all_eq_true.mp rfl
    rcases List.mem_append.mp h with h | h
    · exact hmark c h
    · exact inNumber_of_mem_twoDigits h

theorem inNumber_of_mem_floatRepr {f : PyFloat} {c : CodePoint} (h : c ∈ floatRepr f) :
    inNumber c = true := by
  obtain ⟨whole, part, e, lead, trail, w⟩ := exists_written f
  rw [w.text] at h
  rcases List.mem_append.mp h with h | h
  · split at h
    · rw [List.mem_singleton.mp h]
      rfl
    · exact absurd h List.not_mem_nil
  rcases List.mem_append.mp h with h | h
  · exact inNumber_of_isDecimal (w.decimalWhole c h)
  rcases List.mem_append.mp h with h | h
  · split at h
    · exact absurd h List.not_mem_nil
    · rcases List.mem_cons.mp h with rfl | h
      · rfl
      · exact inNumber_of_isDecimal (w.decimalPart c h)
  · exact inNumber_of_mem_exponentText h

/-- A float has a point or an exponent, and an integer has neither. -/
theorem decimalInt_ne_floatRepr (i : Int) (f : PyFloat) : decimalInt i ≠ floatRepr f := by
  intro h
  have hno : ∀ c ∈ floatRepr f, isDecimal c = true ∨ c = hyphen := by
    intro c hc
    rw [← h] at hc
    exact mem_decimalInt hc
  obtain ⟨whole, part, e, lead, trail, w⟩ := exists_written f
  rw [w.text] at hno
  have htail : ∀ c ∈ tailText part e, isDecimal c = true ∨ c = hyphen :=
    fun c hc => hno c (List.mem_append_right _ (List.mem_append_right _ hc))
  rw [tailText] at htail
  rcases w.marked with hpart | he
  · have hpoint := htail (CodePoint.ofChar '.') (by
      rw [if_neg hpart]
      exact List.mem_cons_self)
    exact absurd hpoint (by decide)
  · obtain ⟨e, rfl⟩ := Option.ne_none_iff_exists'.mp he
    have hmark := htail (CodePoint.ofChar 'e') (by
      refine List.mem_append_right _ (List.mem_append_left _ ?_)
      split <;> exact List.mem_cons_self)
    exact absurd hmark (by decide)

theorem shapeOf_of_inNumber {t : PyStr} (hne : t ≠ []) (h : ∀ c ∈ t, inNumber c = true) :
    ∃ c u, t = c :: u ∧ shapeOf c = some .number := by
  cases t with
  | nil => exact absurd rfl hne
  | cons c u => exact ⟨c, u, rfl, if_pos (h c List.mem_cons_self)⟩

theorem decimalInt_ne_nil (i : Int) : decimalInt i ≠ [] := by
  cases i with
  | ofNat n => exact decimalNat_ne_nil n
  | negSucc n => exact List.cons_ne_nil _ _

theorem floatRepr_ne_nil (f : PyFloat) : floatRepr f ≠ [] := by
  obtain ⟨whole, part, e, lead, trail, w⟩ := exists_written f
  rw [w.text]
  exact List.append_ne_nil_of_right_ne_nil _ (List.append_ne_nil_of_left_ne_nil w.nonempty _)

/-- The first character of the text of a value. -/
theorem dumps_cons {v : PyValue} (h : v.isJson = true) (o : DumpOptions) :
    ∃ c t, v.dumps o = c :: t ∧ shapeOf c = some v.shape := by
  cases v with
  | none => exact ⟨_, _, rfl, rfl⟩
  | bool b =>
    cases b with
    | true => exact ⟨_, _, rfl, rfl⟩
    | false => exact ⟨_, _, rfl, rfl⟩
  | int i => exact shapeOf_of_inNumber (decimalInt_ne_nil i) fun c => inNumber_of_mem_decimalInt
  | float f => exact shapeOf_of_inNumber (floatRepr_ne_nil f) fun c => inNumber_of_mem_floatRepr
  | nonFinite x => exact absurd h (by simp [isJson])
  | str s => exact ⟨_, _, rfl, rfl⟩
  | list xs => exact ⟨_, _, rfl, rfl⟩
  | tuple xs => exact absurd h (by simp [isJson])
  | dict kvs => exact ⟨_, _, rfl, rfl⟩

-- ---------------------------------------------------------------------------
-- What is inside lists and dictionaries
-- ---------------------------------------------------------------------------

theorem isJson_of_mem_list {xs : List PyValue} (h : isJsonList xs = true) :
    ∀ x ∈ xs, x.isJson = true := by
  induction xs with
  | nil => simp
  | cons y ys ih =>
    rw [isJsonList, Bool.and_eq_true] at h
    exact List.forall_mem_cons.mpr ⟨h.1, ih h.2⟩

theorem surrogateFree_of_mem_list {xs : List PyValue} (h : surrogateFreeList xs = true) :
    ∀ x ∈ xs, x.surrogateFree = true := by
  induction xs with
  | nil => simp
  | cons y ys ih =>
    rw [surrogateFreeList, Bool.and_eq_true] at h
    exact List.forall_mem_cons.mpr ⟨h.1, ih h.2⟩

theorem entry_of_mem_dict {kvs : List (PyKey × PyValue)} (h : isJsonDict kvs = true)
    (hs : surrogateFreeDict kvs = true) : ∀ kv ∈ kvs, ∃ s, kv.1 = .str s ∧ s.encodable = true ∧
      kv.2.isJson = true ∧ kv.2.surrogateFree = true := by
  induction kvs with
  | nil => simp
  | cons kv kvs ih =>
    obtain ⟨k, v⟩ := kv
    obtain ⟨s, rfl, hv, -, hrest⟩ := isJsonDict_cons h
    rw [surrogateFreeDict, Bool.and_eq_true, Bool.and_eq_true] at hs
    exact List.forall_mem_cons.mpr ⟨⟨s, rfl, hs.1.1, hv, hs.1.2⟩, ih hrest hs.2⟩

theorem isJson_of_mem_dict {kvs : List (PyKey × PyValue)} (h : isJsonDict kvs = true) :
    ∀ kv ∈ kvs, ∃ s, kv.1 = .str s ∧ kv.2.isJson = true := by
  induction kvs with
  | nil => simp
  | cons kv kvs ih =>
    obtain ⟨k, v⟩ := kv
    obtain ⟨s, rfl, hv, -, hrest⟩ := isJsonDict_cons h
    exact List.forall_mem_cons.mpr ⟨⟨s, rfl, hv⟩, ih hrest⟩

theorem isApart_of_mem_list {xs : List PyValue} (h : isApartList xs = true) :
    ∀ x ∈ xs, x.isApart = true := by
  induction xs with
  | nil => simp
  | cons y ys ih =>
    rw [isApartList, Bool.and_eq_true] at h
    exact List.forall_mem_cons.mpr ⟨h.1, ih h.2⟩

theorem isApart_of_mem_dict {kvs : List (PyKey × PyValue)} (h : isApartDict kvs = true) :
    ∀ kv ∈ kvs, (keyText kv.1).isApart = true ∧ kv.2.isApart = true := by
  induction kvs with
  | nil => simp
  | cons kv kvs ih =>
    obtain ⟨k, v⟩ := kv
    rw [isApartDict, Bool.and_eq_true, Bool.and_eq_true] at h
    exact List.forall_mem_cons.mpr ⟨h.1, ih h.2⟩

theorem dumpsList_eq_map (o : DumpOptions) (xs : List PyValue) :
    dumpsList o xs = xs.map (dumps o) := by
  induction xs with
  | nil => rfl
  | cons x xs ih => rw [dumpsList, List.map_cons, ih]

theorem dumpsDict_eq_map (o : DumpOptions) (kvs : List (PyKey × PyValue)) :
    dumpsDict o kvs = kvs.map fun kv => (keyText kv.1, kv.2.dumps o) := by
  induction kvs with
  | nil => rfl
  | cons kv kvs ih =>
    obtain ⟨k, v⟩ := kv
    rw [dumpsDict, List.map_cons, ih]

/-- The entries are written in their order, and the items have a comma and `space` between them. -/
structure InOrder (o : DumpOptions) (space : PyStr) : Prop where
  unsorted : o.sortKeys = false
  separator : o.itemSeparator = comma :: space

theorem inOrder_compactAscii : InOrder .compactAscii [] := ⟨rfl, rfl⟩

theorem inOrder_plain (ascii : Bool) : InOrder (.plain ascii) (PyStr.ofString " ") := ⟨rfl, rfl⟩

section Readable

variable {o : DumpOptions} {space : PyStr}

/-- `"key": value`. -/
def entryItem (o : DumpOptions) (kv : PyKey × PyValue) : PyStr :=
  entryText o (keyText kv.1, kv.2.dumps o)

theorem dumps_list_append (ho : InOrder o space) (xs : List PyValue) (r : PyStr) :
    (list xs).dumps o ++ r = CodePoint.ofChar '[' ::
      (List.intercalate (comma :: space) (xs.map (dumps o)) ++ CodePoint.ofChar ']' :: r) := by
  rw [dumps, dumpsList_eq_map, ho.separator, List.append_assoc, List.append_assoc]
  rfl

theorem dumps_dict_append (ho : InOrder o space) (kvs : List (PyKey × PyValue)) (r : PyStr) :
    (dict kvs).dumps o ++ r = Fin.ofNat 0x110000 123 ::
      (List.intercalate (comma :: space) (kvs.map (entryItem o)) ++
        Fin.ofNat 0x110000 125 :: r) := by
  have hentries : (orderEntries o (dumpsDict o kvs)).map (entryText o) = kvs.map (entryItem o) := by
    rw [orderEntries, ho.unsorted, dumpsDict_eq_map]
    exact List.map_map
  rw [dumps, hentries, ho.separator, List.append_assoc, List.append_assoc]
  rfl

-- ---------------------------------------------------------------------------
-- Reading back
-- ---------------------------------------------------------------------------

/-- Lossless JSON, with strings that are apart where surrogates are escaped. -/
structure Told (v : PyValue) (o : DumpOptions) : Prop where
  json : v.isJson = true
  apart : o.ensureAscii = true → v.isApart = true

theorem told_of_surrogateFree {v : PyValue} (hv : v.isJson = true) (hs : v.surrogateFree = true) :
    v.Told o := ⟨hv, fun _ => isApart_of_surrogateFree v hv hs⟩

theorem Told.list {xs : List PyValue} (h : (list xs).Told o) : ∀ x ∈ xs, x.Told o := by
  intro x hx
  have hjson := h.json
  rw [isJson] at hjson
  refine ⟨isJson_of_mem_list hjson x hx, fun hascii => ?_⟩
  have hapart := h.apart hascii
  rw [isApart] at hapart
  exact isApart_of_mem_list hapart x hx

theorem Told.dict {kvs : List (PyKey × PyValue)} (h : (dict kvs).Told o) : ∀ kv ∈ kvs,
    ∃ s, kv.1 = .str s ∧ (o.ensureAscii = true → s.isApart = true) ∧ kv.2.Told o := by
  intro kv hkv
  have hjson := h.json
  rw [isJson] at hjson
  obtain ⟨s, hkey, hvalue⟩ := isJson_of_mem_dict hjson kv hkv
  have hapart : o.ensureAscii = true → s.isApart = true ∧ kv.2.isApart = true := by
    intro hascii
    have hall := h.apart hascii
    rw [isApart] at hall
    have hentry := isApart_of_mem_dict hall kv hkv
    rw [hkey] at hentry
    exact hentry
  exact ⟨s, hkey, fun hascii => (hapart hascii).1, hvalue, fun hascii => (hapart hascii).2⟩

/-- Wherever it stands in a text, the value is told from other lossless JSON. -/
def Readable (o : DumpOptions) (v : PyValue) : Prop :=
  ∀ v' : PyValue, v'.Told o → ReadsAs (dumps o) v v'

/-- The values of a shape. -/
inductive HasShape : Shape → PyValue → Prop
  | null : HasShape .null none
  | yes : HasShape .yes (bool true)
  | no : HasShape .no (bool false)
  | int (i : Int) : HasShape .number (int i)
  | float (f : PyFloat) : HasShape .number (float f)
  | str (s : PyStr) : HasShape .string (str s)
  | list (xs : List PyValue) : HasShape .array (list xs)
  | dict (kvs : List (PyKey × PyValue)) : HasShape .object (dict kvs)

theorem hasShape {v : PyValue} (h : v.isJson = true) : HasShape v.shape v := by
  cases v with
  | none => exact .null
  | bool b =>
    cases b with
    | true => exact .yes
    | false => exact .no
  | int i => exact .int i
  | float f => exact .float f
  | nonFinite x => exact absurd h (by simp [isJson])
  | str s => exact .str s
  | list xs => exact .list xs
  | tuple xs => exact absurd h (by simp [isJson])
  | dict kvs => exact .dict kvs

/-- Texts that begin alike are of values of one shape. -/
theorem same_shape {v v' : PyValue} {r r' : PyStr} (hv : v.isJson = true) (hv' : v'.isJson = true)
    (h : v.dumps o ++ r = v'.dumps o ++ r') : HasShape v.shape v' := by
  obtain ⟨c, t, hc, hshape⟩ := dumps_cons hv o
  obtain ⟨c', t', hc', hshape'⟩ := dumps_cons hv' o
  rw [hc, hc'] at h
  rw [(List.cons.inj h).1, hshape'] at hshape
  rw [← Option.some.inj hshape]
  exact hasShape hv'

theorem number_inj {t t' r r' : PyStr} (ht : ∀ c ∈ t, inNumber c = true)
    (ht' : ∀ c ∈ t', inNumber c = true) (hr : Stop r) (hr' : Stop r') (h : t ++ r = t' ++ r') :
    t = t' ∧ r = r' :=
  append_inj_of_stop ht ht' hr hr' h

theorem dumps_cons_ne {v : PyValue} {close : CodePoint} (hv : v.isJson = true)
    (hclose : shapeOf close = Option.none) : ∃ c t, v.dumps o = c :: t ∧ c ≠ close := by
  obtain ⟨c, t, hc, hshape⟩ := dumps_cons hv o
  refine ⟨c, t, hc, fun h => ?_⟩
  rw [h, hclose] at hshape
  cases hshape

theorem readable_list (ho : InOrder o space) {xs : List PyValue} (hv : (list xs).Told o)
    (hxs : ∀ x ∈ xs, Readable o x) : Readable o (list xs) := by
  intro v' hv' r r' hr hr' h
  have hshape : HasShape .array v' := same_shape hv.json hv'.json h
  cases hshape with
  | list ys =>
    rw [dumps_list_append ho, dumps_list_append ho] at h
    obtain ⟨rfl, hrest⟩ := separated_inj (by decide) rfl
      (fun x hx y hy => hxs x hx y (hv'.list y hy))
      (fun x hx => dumps_cons_ne (hv.list x hx).json rfl)
      (fun y hy => dumps_cons_ne (hv'.list y hy).json rfl) (List.cons.inj h).2
    exact ⟨rfl, hrest⟩

theorem entryItem_append {kv : PyKey × PyValue} {s : PyStr} (hkv : kv.1 = .str s) (r : PyStr) :
    entryItem o kv ++ r =
      quote o.ensureAscii s ++ (o.keySeparator ++ (kv.2.dumps o ++ r)) := by
  rw [entryItem, entryText, hkv, List.append_assoc, List.append_assoc]
  rfl

theorem entryItem_cons_ne {kv : PyKey × PyValue} {s : PyStr} (hkv : kv.1 = .str s) :
    ∃ c t, entryItem o kv = c :: t ∧ c ≠ Fin.ofNat 0x110000 125 := by
  have htext := entryItem_append (o := o) hkv []
  rw [List.append_nil, quote, List.append_assoc, List.append_assoc] at htext
  exact ⟨CodePoint.ofChar '"', _, htext, by decide⟩

theorem readable_dict (ho : InOrder o space) {kvs : List (PyKey × PyValue)}
    (hv : (dict kvs).Told o) (hkvs : ∀ kv ∈ kvs, Readable o kv.2) : Readable o (dict kvs) := by
  intro v' hv' r r' hr hr' h
  have hshape : HasShape .object v' := same_shape hv.json hv'.json h
  cases hshape with
  | dict kvs' =>
    rw [dumps_dict_append ho, dumps_dict_append ho] at h
    have hitem : ∀ kv ∈ kvs, ∀ kv' ∈ kvs', ReadsAs (entryItem o) kv kv' := by
      intro kv hkv kv' hkv' r r' hr hr' h
      obtain ⟨s, hkey, hapart, -⟩ := hv.dict kv hkv
      obtain ⟨s', hkey', hapart', hvalue'⟩ := hv'.dict kv' hkv'
      rw [entryItem_append hkey, entryItem_append hkey'] at h
      obtain ⟨hsame, hvalue⟩ := quote_append_inj hapart hapart' h
      obtain ⟨hsameValue, hr⟩ := hkvs kv hkv kv'.2 hvalue' r r' hr hr'
        (List.append_cancel_left hvalue)
      exact ⟨Prod.ext (by rw [hkey, hkey', hsame]) hsameValue, hr⟩
    have hhead : ∀ {kvs : List (PyKey × PyValue)}, (dict kvs).Told o →
        ∀ kv ∈ kvs, ∃ c t, entryItem o kv = c :: t ∧ c ≠ Fin.ofNat 0x110000 125 := by
      intro kvs hv kv hkv
      obtain ⟨s, hkey, -⟩ := hv.dict kv hkv
      exact entryItem_cons_ne hkey
    obtain ⟨rfl, hrest⟩ := separated_inj (by decide) rfl hitem (hhead hv) (hhead hv')
      (List.cons.inj h).2
    exact ⟨rfl, hrest⟩

theorem readable_int (i : Int) : Readable o (int i) := by
  intro v' hv' r r' hr hr' h
  have hshape : HasShape .number v' := same_shape rfl hv'.json h
  cases hshape with
  | int j =>
    obtain ⟨htext, hrest⟩ := number_inj (fun c => inNumber_of_mem_decimalInt)
      (fun c => inNumber_of_mem_decimalInt) hr hr' h
    exact ⟨congrArg int (decimalInt_injective htext), hrest⟩
  | float f =>
    have htext := (number_inj (fun c => inNumber_of_mem_decimalInt)
      (fun c => inNumber_of_mem_floatRepr) hr hr' h).1
    exact absurd htext (decimalInt_ne_floatRepr i f)

theorem readable_float (f : PyFloat) : Readable o (float f) := by
  intro v' hv' r r' hr hr' h
  have hshape : HasShape .number v' := same_shape rfl hv'.json h
  cases hshape with
  | int i =>
    have htext := (number_inj (fun c => inNumber_of_mem_floatRepr)
      (fun c => inNumber_of_mem_decimalInt) hr hr' h).1
    exact absurd htext.symm (decimalInt_ne_floatRepr i f)
  | float f' =>
    obtain ⟨htext, hrest⟩ := number_inj (fun c => inNumber_of_mem_floatRepr)
      (fun c => inNumber_of_mem_floatRepr) hr hr' h
    exact ⟨congrArg float (floatRepr_injective htext), hrest⟩

theorem readable_str {s : PyStr} (hs : o.ensureAscii = true → s.isApart = true) :
    Readable o (str s) := by
  intro v' hv' r r' hr hr' h
  have hshape : HasShape .string v' := same_shape rfl hv'.json h
  cases hshape with
  | str s' =>
    obtain ⟨rfl, hrest⟩ := quote_append_inj hs hv'.apart h
    exact ⟨rfl, hrest⟩

theorem readable_none : Readable o none := by
  intro v' hv' r r' hr hr' h
  have hshape : HasShape .null v' := same_shape rfl hv'.json h
  cases hshape with
  | null => exact ⟨rfl, List.append_cancel_left h⟩

theorem readable_bool (b : Bool) : Readable o (bool b) := by
  intro v' hv' r r' hr hr' h
  cases b with
  | true =>
    have hshape : HasShape .yes v' := same_shape rfl hv'.json h
    cases hshape with
    | yes => exact ⟨rfl, List.append_cancel_left h⟩
  | false =>
    have hshape : HasShape .no v' := same_shape rfl hv'.json h
    cases hshape with
    | no => exact ⟨rfl, List.append_cancel_left h⟩

mutual
theorem readable (ho : InOrder o space) : ∀ v : PyValue, v.Told o → Readable o v
  | list xs, h => readable_list ho h (readableList ho xs h.list)
  | dict kvs, h => by
    refine readable_dict ho h (readableDict ho kvs fun kv hkv => ?_)
    obtain ⟨s, -, -, hvalue⟩ := h.dict kv hkv
    exact hvalue
  | none, _ => readable_none
  | bool b, _ => readable_bool b
  | int i, _ => readable_int i
  | float f, _ => readable_float f
  | str _, h => readable_str h.apart
  | nonFinite _, h => absurd h.json (by simp [isJson])
  | tuple _, h => absurd h.json (by simp [isJson])
theorem readableList (ho : InOrder o space) : ∀ xs : List PyValue, (∀ x ∈ xs, x.Told o) →
    ∀ x ∈ xs, Readable o x
  | [], _ => by simp
  | x :: xs, h => by
    obtain ⟨hx, hxs⟩ := List.forall_mem_cons.mp h
    exact List.forall_mem_cons.mpr ⟨readable ho x hx, readableList ho xs hxs⟩
theorem readableDict (ho : InOrder o space) : ∀ kvs : List (PyKey × PyValue),
    (∀ kv ∈ kvs, kv.2.Told o) → ∀ kv ∈ kvs, Readable o kv.2
  | [], _ => by simp
  | (_, v) :: kvs, h => by
    obtain ⟨hv, hkvs⟩ := List.forall_mem_cons.mp h
    exact List.forall_mem_cons.mpr ⟨readable ho v hv, readableDict ho kvs hkvs⟩
end

/-- **The text of lossless JSON is the text of no other value.** -/
theorem dumps_injective (ho : InOrder o space) {v v' : PyValue} (hv : v.Told o) (hv' : v'.Told o)
    (h : v.dumps o = v'.dumps o) : v = v' := by
  have hstop : Stop [] := fun c hc => by cases hc
  exact (readable ho v hv v' hv' [] [] hstop hstop (congrArg (· ++ []) h)).1

instance : Inhabited PyValue := ⟨none⟩

open Classical in
/-- A reader of the texts of some values. -/
noncomputable def readBack (o : DumpOptions) (known : Set PyValue) (t : PyStr) : Option PyValue :=
  if t ∈ dumps o '' known then some (Function.invFunOn (dumps o) known t) else Option.none

theorem mem_of_readBack {known : Set PyValue} {t : PyStr} {v : PyValue}
    (h : readBack o known t = some v) : v ∈ known := by
  by_cases ht : t ∈ dumps o '' known
  · rw [readBack, if_pos ht] at h
    rw [← Option.some.inj h]
    exact Function.invFunOn_mem ht
  · rw [readBack, if_neg ht] at h
    cases h

theorem readBack_of_mem (ho : InOrder o space) {known : Set PyValue}
    (hknown : ∀ v ∈ known, v.Told o) {v : PyValue} (hv : v ∈ known) :
    readBack o known (v.dumps o) = some v := by
  have hinj : Set.InjOn (dumps o) known := fun v hv v' hv' h =>
    dumps_injective ho (hknown v hv) (hknown v' hv') h
  rw [readBack, if_pos (Set.mem_image_of_mem _ hv), hinj.leftInvOn_invFunOn hv]

theorem readBack_of_notMem (ho : InOrder o space) {known : Set PyValue}
    (hknown : ∀ v ∈ known, v.Told o) {v : PyValue} (hv : v.Told o) (hnot : v ∉ known) :
    readBack o known (v.dumps o) = Option.none := by
  refine if_neg ?_
  rintro ⟨v', hv', hsame⟩
  rw [dumps_injective ho (hknown v' hv') hv hsame] at hv'
  exact hnot hv'

end Readable

-- ---------------------------------------------------------------------------
-- ASCII
-- ---------------------------------------------------------------------------

def IsAscii (t : PyStr) : Prop := ∀ c ∈ t, c.val < 128

theorem isAscii_append {s t : PyStr} (hs : IsAscii s) (ht : IsAscii t) : IsAscii (s ++ t) :=
  List.forall_mem_append.mpr ⟨hs, ht⟩

theorem isAscii_of_all {t : PyStr} (h : (t.all fun c => c.val < 128) = true) : IsAscii t :=
  fun c hc => of_decide_eq_true (List.all_eq_true.mp h c hc)

theorem isAscii_of_inNumber {t : PyStr} (h : ∀ c ∈ t, inNumber c = true) : IsAscii t := by
  intro c hc
  have hnumber := h c hc
  simp only [inNumber, isDecimal, Bool.or_eq_true, Bool.and_eq_true, decide_eq_true_eq] at hnumber
  omega

theorem isAscii_digitChar (d : Nat) (hd : d < 16) : (digitChar d).val < 128 := by
  rw [digitChar]
  split
  · exact lt_of_le_of_lt (Nat.mod_le _ _) (by omega)
  · exact lt_of_le_of_lt (Nat.mod_le _ _) (by omega)

theorem isAscii_unicodeEscape (n : Nat) : IsAscii (unicodeEscape n) := by
  refine isAscii_append (isAscii_of_all rfl) fun c hc => ?_
  rw [hexFour_eq] at hc
  obtain ⟨d, hd, rfl⟩ := mem_hexDigits hc
  exact isAscii_digitChar d hd

theorem isAscii_escapeChar (c : CodePoint) : IsAscii (escapeChar true c) := by
  have hpair : ∀ a b : CodePoint, a.val < 128 → b.val < 128 → IsAscii [a, b] := by
    intro a b ha hb
    exact List.forall_mem_cons.mpr ⟨ha, List.forall_mem_singleton.mpr hb⟩
  unfold escapeChar
  split
  · exact hpair _ _ (by decide) (by decide)
  split
  · exact hpair _ _ (by decide) (by decide)
  split
  · exact hpair _ _ (by decide) (by decide)
  split
  · exact hpair _ _ (by decide) (by decide)
  split
  · exact hpair _ _ (by decide) (by decide)
  split
  · exact hpair _ _ (by decide) (by decide)
  split
  · exact hpair _ _ (by decide) (by decide)
  split
  · exact isAscii_unicodeEscape _
  split
  · next h =>
    have hlt : c.val < 127 := h.resolve_left (by decide)
    exact List.forall_mem_singleton.mpr (by omega)
  split
  · exact isAscii_unicodeEscape _
  · exact isAscii_append (isAscii_unicodeEscape _) (isAscii_unicodeEscape _)

theorem isAscii_quote (s : PyStr) : IsAscii (quote true s) := by
  have hmark : IsAscii (PyStr.ofString "\"") := List.forall_mem_singleton.mpr (by decide)
  refine isAscii_append (isAscii_append hmark fun c hc => ?_) hmark
  obtain ⟨a, -, ha⟩ := List.mem_flatMap.mp hc
  exact isAscii_escapeChar a c ha

theorem isAscii_intercalate {sep : PyStr} {ts : List PyStr} (hsep : IsAscii sep)
    (h : ∀ t ∈ ts, IsAscii t) : IsAscii (sep.intercalate ts) := by
  cases ts with
  | nil => exact fun c hc => absurd hc List.not_mem_nil
  | cons t ts =>
    obtain ⟨ht, hts⟩ := List.forall_mem_cons.mp h
    rw [intercalate_cons]
    refine isAscii_append ht fun c hc => ?_
    obtain ⟨u, hu, hmem⟩ := List.mem_flatMap.mp hc
    exact isAscii_append hsep (hts u hu) c hmem

theorem isAscii_comma : IsAscii (PyStr.ofString ",") := List.forall_mem_singleton.mpr (by decide)

theorem isAscii_list {ts : List PyStr} (h : ∀ t ∈ ts, IsAscii t) :
    IsAscii (PyStr.ofString "[" ++ (PyStr.ofString ",").intercalate ts ++ PyStr.ofString "]") :=
  isAscii_append (isAscii_append (List.forall_mem_singleton.mpr (by decide))
    (isAscii_intercalate isAscii_comma h)) (List.forall_mem_singleton.mpr (by decide))

theorem isAscii_dict {ts : List (PyStr × PyStr)} (h : ∀ t ∈ ts, IsAscii t.2) :
    IsAscii (PyStr.ofString "\x7b" ++
      (PyStr.ofString ",").intercalate (ts.map (entryText .compactAscii)) ++
      PyStr.ofString "\x7d") := by
  have hentries : ∀ t ∈ ts.map (entryText .compactAscii), IsAscii t :=
    List.forall_mem_map.mpr fun t ht =>
      isAscii_append (isAscii_append (isAscii_quote t.1)
        (List.forall_mem_singleton.mpr (by decide))) (h t ht)
  exact isAscii_append (isAscii_append (List.forall_mem_singleton.mpr (by decide))
    (isAscii_intercalate isAscii_comma hentries)) (List.forall_mem_singleton.mpr (by decide))

mutual
theorem dumps_ascii : ∀ v : PyValue, IsAscii (v.dumps .compactAscii)
  | list xs => isAscii_list (dumpsList_ascii xs)
  | tuple xs => isAscii_list (dumpsList_ascii xs)
  | dict kvs => isAscii_dict (dumpsDict_ascii kvs)
  | none => isAscii_of_all rfl
  | bool true => isAscii_of_all rfl
  | bool false => isAscii_of_all rfl
  | int _ => isAscii_of_inNumber fun _ => inNumber_of_mem_decimalInt
  | float _ => isAscii_of_inNumber fun _ => inNumber_of_mem_floatRepr
  | nonFinite .nan => isAscii_of_all rfl
  | nonFinite .inf => isAscii_of_all rfl
  | nonFinite .negInf => isAscii_of_all rfl
  | str s => isAscii_quote s
theorem dumpsList_ascii : ∀ xs : List PyValue, ∀ t ∈ dumpsList .compactAscii xs, IsAscii t
  | [] => by simp [dumpsList]
  | x :: xs => List.forall_mem_cons.mpr ⟨dumps_ascii x, dumpsList_ascii xs⟩
theorem dumpsDict_ascii : ∀ kvs : List (PyKey × PyValue),
    ∀ t ∈ dumpsDict .compactAscii kvs, IsAscii t.2
  | [] => by simp [dumpsDict]
  | (_, v) :: kvs => List.forall_mem_cons.mpr ⟨dumps_ascii v, dumpsDict_ascii kvs⟩
end

theorem IsAscii.encodable {t : PyStr} (h : IsAscii t) : t.encodable = true := by
  rw [PyStr.encodable, List.all_eq_true]
  intro c hc
  have hlt := h c hc
  rw [Bool.not_eq_true', CodePoint.isSurrogate, Bool.and_eq_false_iff, decide_eq_false_iff_not]
  omega

end PyValue

end AgentRuntimeKit.Lib
