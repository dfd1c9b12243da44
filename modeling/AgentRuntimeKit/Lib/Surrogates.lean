import AgentRuntimeKit.Lib.JsonReadable

/-!
# Surrogates in JSON texts

A Python string may hold single surrogates. With `ensure_ascii` on, `json.dumps` writes a character
beyond the basic plane as the pair of its surrogates, so the text of two surrogates side by side is
that of the one character they make, and a reader takes it for that. A string is apart if no high
surrogate stands directly before a low one, and a value is if all its strings and keys are.

With `ensure_ascii` off, a surrogate is written as it is, and the text cannot be encoded.

## Results

* `isApart_of_eq`   — what equals a value that is apart is apart.
* `encodable_dumps` — a text that is not ASCII can be encoded iff the value has no surrogate.
-/

namespace AgentRuntimeKit.Lib

namespace PyValue

mutual
/-- Lossless JSON that equals a value whose strings are apart. -/
theorem isApart_of_eq : ∀ v v' : PyValue, v.isJson = true → v.eq v' = true → v'.isApart = true →
    v.isApart = true
  | str s, v', _, heq, h => by
    cases v' with
    | str s' =>
      have hsame : s = s' := by simpa [eq, scalarEq] using heq
      rw [hsame]
      exact h
    | _ => simp [eq, scalarEq, number] at heq
  | list xs, v', hjson, heq, h => by
    cases v' with
    | list ys =>
      rw [eq] at heq
      rw [isApart] at h ⊢
      rw [isJson] at hjson
      exact isApartList_of_eq xs ys hjson heq h
    | _ => simp [eq, scalarEq, number] at heq
  | dict kvs, v', hjson, heq, h => by
    cases v' with
    | dict kvs' =>
      rw [eq, Bool.and_eq_true] at heq
      rw [isApart] at h ⊢
      rw [isJson] at hjson
      exact isApartDict_of_eq kvs kvs' hjson heq.2 h
    | _ => simp [eq, scalarEq, number] at heq
  | none, _, _, _, _ => rfl
  | bool _, _, _, _, _ => rfl
  | int _, _, _, _, _ => rfl
  | float _, _, _, _, _ => rfl
theorem isApartList_of_eq : ∀ xs ys : List PyValue, isJsonList xs = true → eqList xs ys = true →
    isApartList ys = true → isApartList xs = true
  | [], _, _, _, _ => rfl
  | x :: xs, [], _, heq, _ => by
    exact absurd heq (by simp [eqList])
  | x :: xs, y :: ys, hjson, heq, h => by
    rw [isJsonList, Bool.and_eq_true] at hjson
    rw [eqList, Bool.and_eq_true] at heq
    rw [isApartList, Bool.and_eq_true] at h ⊢
    exact ⟨isApart_of_eq x y hjson.1 heq.1 h.1, isApartList_of_eq xs ys hjson.2 heq.2 h.2⟩
theorem isApartDict_of_eq : ∀ kvs kvs' : List (PyKey × PyValue), isJsonDict kvs = true →
    eqDict kvs kvs' = true → isApartDict kvs' = true → isApartDict kvs = true
  | [], _, _, _, _ => rfl
  | (k, v) :: kvs, kvs', hjson, heq, h => by
    obtain ⟨s, rfl, hv, -, hrest⟩ := isJsonDict_cons hjson
    obtain ⟨v', hfound, hsame⟩ := eqDict_mem heq List.mem_cons_self
    obtain ⟨hkey, hvalue⟩ := isApart_of_mem_dict h _ (lookupEq_str_mem hfound)
    rw [eqDict, Bool.and_eq_true] at heq
    rw [isApartDict, Bool.and_eq_true, Bool.and_eq_true]
    exact ⟨⟨hkey, isApart_of_eq v v' hv hsame hvalue⟩, isApartDict_of_eq kvs kvs' hrest heq.2 h⟩
end

end PyValue

-- ---------------------------------------------------------------------------
-- Texts that can be encoded
-- ---------------------------------------------------------------------------

@[simp] theorem PyStr.encodable_append (s t : PyStr) :
    PyStr.encodable (s ++ t) = (s.encodable && t.encodable) := List.all_append

theorem encodable_escapeChar (c : CodePoint) :
    (escapeChar false c).encodable = !c.isSurrogate := by
  have hfree : ∀ {t : PyStr}, t.encodable = true → c.val < 0xD800 →
      t.encodable = !c.isSurrogate := by
    intro t ht hlt
    rw [ht, eq_comm, Bool.not_eq_true', CodePoint.isSurrogate, Bool.and_eq_false_iff,
      decide_eq_false_iff_not]
    omega
  unfold escapeChar
  split
  · exact hfree rfl (by omega)
  split
  · exact hfree rfl (by omega)
  split
  · exact hfree rfl (by omega)
  split
  · exact hfree rfl (by omega)
  split
  · exact hfree rfl (by omega)
  split
  · exact hfree rfl (by omega)
  split
  · exact hfree rfl (by omega)
  split
  · exact hfree (PyValue.isAscii_unicodeEscape _).encodable (by omega)
  rw [if_pos (Or.inl rfl), PyStr.encodable, List.all_cons, List.all_nil, Bool.and_true]

theorem encodable_quote (s : PyStr) : (quote false s).encodable = s.encodable := by
  have hinside : PyStr.encodable (s.flatMap (escapeChar false)) = s.encodable := by
    induction s with
    | nil => rfl
    | cons c s ih =>
      rw [List.flatMap_cons, PyStr.encodable_append, encodable_escapeChar, ih]
      rfl
  have hmark : (PyStr.ofString "\"").encodable = true := rfl
  rw [quote, PyStr.encodable_append, PyStr.encodable_append, hinside, hmark, Bool.true_and,
    Bool.and_true]

theorem encodable_intercalate {sep : PyStr} (hsep : sep.encodable = true) (ts : List PyStr) :
    PyStr.encodable (sep.intercalate ts) = ts.all PyStr.encodable := by
  cases ts with
  | nil => rfl
  | cons t ts =>
    rw [intercalate_cons, PyStr.encodable_append, List.all_cons]
    congr 1
    induction ts with
    | nil => rfl
    | cons u ts ih =>
      rw [List.flatMap_cons, PyStr.encodable_append, PyStr.encodable_append, hsep, ih,
        List.all_cons, Bool.true_and]

namespace PyValue

mutual
/-- The text of lossless JSON, with every character as it is. -/
theorem encodable_dumps : ∀ v : PyValue, v.isJson = true →
    (v.dumps (.plain false)).encodable = v.surrogateFree
  | list xs, h => by
    have hbrackets : (PyStr.ofString "[").encodable = true ∧
        (PyStr.ofString "]").encodable = true := ⟨rfl, rfl⟩
    rw [isJson] at h
    rw [dumps, PyStr.encodable_append, PyStr.encodable_append, hbrackets.1, hbrackets.2,
      encodable_intercalate rfl, encodable_dumpsList xs h, surrogateFree, Bool.true_and,
      Bool.and_true]
  | dict kvs, h => by
    have hbraces : (PyStr.ofString "\x7b").encodable = true ∧
        (PyStr.ofString "\x7d").encodable = true := ⟨rfl, rfl⟩
    have horder : orderEntries (.plain false) (dumpsDict (.plain false) kvs) =
        dumpsDict (.plain false) kvs := rfl
    rw [isJson] at h
    rw [dumps, PyStr.encodable_append, PyStr.encodable_append, hbraces.1, hbraces.2,
      encodable_intercalate rfl, horder, encodable_dumpsDict kvs h, surrogateFree, Bool.true_and,
      Bool.and_true]
  | str s, _ => encodable_quote s
  | int _, _ => (isAscii_of_inNumber fun _ => inNumber_of_mem_decimalInt).encodable
  | float _, _ => (isAscii_of_inNumber fun _ => inNumber_of_mem_floatRepr).encodable
  | none, _ => rfl
  | bool true, _ => rfl
  | bool false, _ => rfl
theorem encodable_dumpsList : ∀ xs : List PyValue, isJsonList xs = true →
    (dumpsList (.plain false) xs).all PyStr.encodable = surrogateFreeList xs
  | [], _ => rfl
  | x :: xs, h => by
    rw [isJsonList, Bool.and_eq_true] at h
    rw [dumpsList, List.all_cons, encodable_dumps x h.1, encodable_dumpsList xs h.2,
      surrogateFreeList]
theorem encodable_dumpsDict : ∀ kvs : List (PyKey × PyValue), isJsonDict kvs = true →
    ((dumpsDict (.plain false) kvs).map (entryText (.plain false))).all PyStr.encodable =
      surrogateFreeDict kvs
  | [], _ => rfl
  | (k, v) :: kvs, h => by
    obtain ⟨s, rfl, hv, -, hrest⟩ := isJsonDict_cons h
    have hcolon : (PyStr.ofString ": ").encodable = true := rfl
    rw [dumpsDict, List.map_cons, List.all_cons, encodable_dumpsDict kvs hrest, entryText,
      PyStr.encodable_append, PyStr.encodable_append, encodable_dumps v hv, surrogateFreeDict]
    show ((quote false s).encodable && (PyStr.ofString ": ").encodable && _ && _) = _
    rw [encodable_quote, hcolon, Bool.and_true]
end

end PyValue

end AgentRuntimeKit.Lib
