import AgentRuntimeKit.Lib.PyValue
import Mathlib.Data.List.Nodup

/-!
# Lossless JSON

Which values equal what they serialize to: exactly the lossless JSON ones, at every depth.

* `PyValue.jsonForm_eq_self_iff` — they are the values that serializing leaves as they are.
* `PyValue.jsonForm_eq_iff`      — no other value equals its serialized form, under `==`.
* `PyValue.isJson_jsonForm`      — what is serialized is one of them.
-/

namespace AgentRuntimeKit.Lib.PyValue

-- ---------------------------------------------------------------------------
-- Lossless values stay
-- ---------------------------------------------------------------------------

/-- An entry of lossless entries. -/
theorem isJsonDict_cons {k : PyKey} {v : PyValue} {kvs : List (PyKey × PyValue)}
    (h : isJsonDict ((k, v) :: kvs) = true) : ∃ s, k = .str s ∧ v.isJson = true ∧
      .str s ∉ kvs.map Prod.fst ∧ isJsonDict kvs = true := by
  cases k with
  | str s =>
    rw [isJsonDict, Bool.and_eq_true, Bool.and_eq_true] at h
    obtain ⟨⟨hv, hany⟩, hrest⟩ := h
    refine ⟨s, rfl, hv, ?_, hrest⟩
    intro hmem
    obtain ⟨kv, hkv, heq⟩ := List.mem_map.mp hmem
    rw [Bool.not_eq_true'] at hany
    have hno : ¬ decide (kv.1 = PyKey.str s) = true := List.any_eq_false.mp hany kv hkv
    exact absurd heq fun heq => hno (decide_eq_true heq)
  | _ => exact absurd h (by simp [isJsonDict])

mutual
theorem jsonForm_of_isJson : ∀ v : PyValue, v.isJson = true → v.jsonForm = v
  | list xs, h => by
    rw [isJson] at h
    rw [jsonForm, jsonFormList_of_isJson xs h]
  | dict kvs, h => by
    rw [isJson] at h
    have hs := serialized_of_isJson kvs h
    rw [jsonForm, @jsonFormDict_append kvs [] hs]
    rfl
  | none, _ => rfl
  | bool _, _ => rfl
  | int _, _ => rfl
  | float _, _ => rfl
  | str _, _ => rfl
theorem jsonFormList_of_isJson : ∀ xs : List PyValue, isJsonList xs = true →
    jsonFormList xs = xs
  | [], _ => rfl
  | x :: xs, h => by
    rw [isJsonList, Bool.and_eq_true] at h
    rw [jsonFormList, jsonForm_of_isJson x h.1, jsonFormList_of_isJson xs h.2]
theorem serialized_of_isJson : ∀ kvs : List (PyKey × PyValue), isJsonDict kvs = true →
    Serialized kvs
  | [], _ => ⟨by simp, by simp, by simp⟩
  | (k, v) :: kvs, h => by
    obtain ⟨s, rfl, hv, hnotin, hrest⟩ := isJsonDict_cons h
    have hs := serialized_of_isJson kvs hrest
    have hself := jsonForm_of_isJson v hv
    refine ⟨?_, ?_, ?_⟩
    · rw [List.map_cons, List.nodup_cons]
      exact ⟨hnotin, hs.nodup⟩
    · intro kv hkv
      rcases List.mem_cons.mp hkv with rfl | hkv
      · exact ⟨s, rfl⟩
      · exact hs.keys kv hkv
    · intro kv hkv
      rcases List.mem_cons.mp hkv with rfl | hkv
      · exact hself
      · exact hs.values kv hkv
end

-- ---------------------------------------------------------------------------
-- Lossless values equal themselves
-- ---------------------------------------------------------------------------

/-- A string key equals no other key. -/
theorem keyEq_str {s : PyStr} {k : PyKey} : keyEq (.str s) k = true ↔ k = .str s := by
  cases k with
  | str s' =>
    simp only [keyEq, ofKey, scalarEq, decide_eq_true_eq, PyKey.str.injEq]
    exact eq_comm
  | _ => simp [keyEq, ofKey, scalarEq, number]

theorem lookupEq_str_mem {s : PyStr} {v : PyValue} {kvs : List (PyKey × PyValue)}
    (h : lookupEq (.str s) kvs = some v) : (.str s, v) ∈ kvs := by
  induction kvs with
  | nil => exact absurd h (by simp [lookupEq])
  | cons kv kvs ih =>
    obtain ⟨k, v'⟩ := kv
    rw [lookupEq] at h
    by_cases hk : keyEq (.str s) k = true
    · rw [if_pos hk] at h
      rw [keyEq_str.mp hk, Option.some.inj h]
      exact List.mem_cons_self
    · rw [if_neg hk] at h
      exact List.mem_cons_of_mem _ (ih h)

theorem lookupEq_of_mem {s : PyStr} {v : PyValue} {kvs : List (PyKey × PyValue)}
    (hnodup : (kvs.map Prod.fst).Nodup) (h : (.str s, v) ∈ kvs) :
    lookupEq (.str s) kvs = some v := by
  induction kvs with
  | nil => exact absurd h List.not_mem_nil
  | cons kv kvs ih =>
    obtain ⟨k, v'⟩ := kv
    rw [List.map_cons, List.nodup_cons] at hnodup
    rw [lookupEq]
    rcases List.mem_cons.mp h with heq | hmem
    · cases heq
      rw [if_pos (keyEq_str.mpr rfl)]
    · have hne : ¬ keyEq (.str s) k = true := by
        intro hk
        rw [keyEq_str.mp hk] at hnodup
        exact hnodup.1 (List.mem_map.mpr ⟨_, hmem, rfl⟩)
      rw [if_neg hne]
      exact ih hnodup.2 hmem

mutual
theorem eq_of_isJson : ∀ v : PyValue, v.isJson = true → v.eq v = true
  | list xs, h => by
    rw [isJson] at h
    rw [eq]
    exact eqList_of_isJson xs h
  | dict kvs, h => by
    rw [isJson] at h
    have hs := serialized_of_isJson kvs h
    have hself := eqDict_of_isJson kvs kvs h fun kv hkv => by
      obtain ⟨s, hs'⟩ := hs.keys kv hkv
      obtain ⟨k, v⟩ := kv
      subst hs'
      exact lookupEq_of_mem hs.nodup hkv
    rw [eq, hself]
    simp
  | none, _ => by simp [eq, scalarEq]
  | bool b, _ => by simp [eq, scalarEq, number]
  | int i, _ => by simp [eq, scalarEq, number]
  | float f, _ => by simp [eq, scalarEq, number]
  | str s, _ => by simp [eq, scalarEq]
theorem eqList_of_isJson : ∀ xs : List PyValue, isJsonList xs = true → eqList xs xs = true
  | [], _ => rfl
  | x :: xs, h => by
    rw [isJsonList, Bool.and_eq_true] at h
    rw [eqList, eq_of_isJson x h.1, eqList_of_isJson xs h.2]
    rfl
/-- Entries of a dictionary that has them under their keys. -/
theorem eqDict_of_isJson : ∀ (part kvs : List (PyKey × PyValue)), isJsonDict part = true →
    (∀ kv ∈ part, lookupEq kv.1 kvs = some kv.2) → eqDict part kvs = true
  | [], _, _, _ => by rw [eqDict]
  | (k, v) :: part, kvs, h, hfound => by
    obtain ⟨s, rfl, hv, -, hrest⟩ := isJsonDict_cons h
    have hhead : lookupEq (.str s) kvs = some v := hfound _ List.mem_cons_self
    have htail := eqDict_of_isJson part kvs hrest fun kv hkv =>
      hfound kv (List.mem_cons_of_mem _ hkv)
    rw [eqDict, hhead, htail, Bool.and_true]
    exact eq_of_isJson v hv
end

-- ---------------------------------------------------------------------------
-- No other value equals its serialized form
-- ---------------------------------------------------------------------------

theorem length_insert_le (k : PyKey) (v : PyValue) (kvs : List (PyKey × PyValue)) :
    (insert k v kvs).length ≤ kvs.length + 1 := by
  have h := congrArg List.length (keys_insert k v kvs)
  rw [List.length_map] at h
  rw [h]
  split
  · rw [List.length_map]
    omega
  · rw [List.length_append, List.length_map, List.length_singleton]

theorem notMem_of_length_insert {k : PyKey} {v : PyValue} {kvs : List (PyKey × PyValue)}
    (h : kvs.length < (insert k v kvs).length) : k ∉ kvs.map Prod.fst := by
  intro hmem
  have hkeys := congrArg List.length (keys_insert k v kvs)
  rw [if_pos hmem, List.length_map, List.length_map] at hkeys
  omega

theorem length_jsonFormDict_le (kvs acc : List (PyKey × PyValue)) :
    (jsonFormDict kvs acc).length ≤ acc.length + kvs.length := by
  induction kvs generalizing acc with
  | nil => rw [jsonFormDict]; exact Nat.le_refl _
  | cons kv kvs ih =>
    obtain ⟨k, v⟩ := kv
    rw [jsonFormDict]
    have hrest := ih (insert (.str (keyForm k)) v.jsonForm acc)
    have hone := length_insert_le (.str (keyForm k)) v.jsonForm acc
    rw [List.length_cons]
    omega

/-- An entry in serialized form. -/
def entryForm (kv : PyKey × PyValue) : PyKey × PyValue := (.str (keyForm kv.1), kv.2.jsonForm)

/-- Where no entry is overwritten, the serialized entries are those of the dictionary. -/
theorem jsonFormDict_eq_map {kvs acc : List (PyKey × PyValue)}
    (h : acc.length + kvs.length ≤ (jsonFormDict kvs acc).length) :
    jsonFormDict kvs acc = acc ++ kvs.map entryForm := by
  induction kvs generalizing acc with
  | nil => rw [jsonFormDict, List.map_nil, List.append_nil]
  | cons kv kvs ih =>
    obtain ⟨k, v⟩ := kv
    rw [jsonFormDict] at h ⊢
    rw [List.length_cons] at h
    have hrest := length_jsonFormDict_le kvs (insert (.str (keyForm k)) v.jsonForm acc)
    have hone := length_insert_le (.str (keyForm k)) v.jsonForm acc
    have hnotin : PyKey.str (keyForm k) ∉ acc.map Prod.fst :=
      notMem_of_length_insert (v := v.jsonForm) (by omega)
    rw [ih (by omega), insert_of_notMem hnotin, List.append_assoc]
    rfl

/-- Distinct spellings are not overwritten. -/
theorem jsonFormDict_of_nodup {kvs acc : List (PyKey × PyValue)}
    (h : ((acc ++ kvs.map entryForm).map Prod.fst).Nodup) :
    jsonFormDict kvs acc = acc ++ kvs.map entryForm := by
  induction kvs generalizing acc with
  | nil => rw [jsonFormDict, List.map_nil, List.append_nil]
  | cons kv kvs ih =>
    obtain ⟨k, v⟩ := kv
    have hnotin : PyKey.str (keyForm k) ∉ acc.map Prod.fst := by
      rw [List.map_append, List.nodup_append] at h
      intro hmem
      exact h.2.2 _ hmem _ (List.mem_cons_self) rfl
    rw [jsonFormDict, insert_of_notMem hnotin, ih (by simpa [entryForm] using h)]
    simp [entryForm]

theorem eqDict_mem {part kvs : List (PyKey × PyValue)} (h : eqDict part kvs = true)
    {k : PyKey} {v : PyValue} (hmem : (k, v) ∈ part) :
    ∃ v', lookupEq k kvs = some v' ∧ v.eq v' = true := by
  induction part with
  | nil => exact absurd hmem List.not_mem_nil
  | cons kv part ih =>
    obtain ⟨k', v'⟩ := kv
    rw [eqDict, Bool.and_eq_true] at h
    rcases List.mem_cons.mp hmem with heq | hmem
    · cases heq
      cases hlook : lookupEq k kvs with
      | none =>
        rw [hlook] at h
        exact absurd h.1 Bool.false_ne_true
      | some w =>
        rw [hlook] at h
        exact ⟨w, rfl, h.1⟩
    · exact ih h.2 hmem

/-- A dictionary that equals its serialized form: distinct string keys, and values that equal
their serialized forms. -/
theorem dict_eq_jsonForm {kvs : List (PyKey × PyValue)}
    (h : (jsonForm (dict kvs)).eq (dict kvs) = true) :
    (kvs.map Prod.fst).Nodup ∧ ∀ kv ∈ kvs, (∃ s, kv.1 = .str s) ∧ kv.2.jsonForm.eq kv.2 = true := by
  rw [jsonForm, eq, Bool.and_eq_true, decide_eq_true_eq] at h
  obtain ⟨hlen, heq⟩ := h
  have hmap : jsonFormDict kvs [] = kvs.map entryForm := by
    have h := @jsonFormDict_eq_map kvs [] (by simp [hlen])
    rwa [List.nil_append] at h
  have hforms : (kvs.map fun kv => PyKey.str (keyForm kv.1)).Nodup := by
    have hs := (jsonFormDict_serialized kvs [] ⟨by simp, by simp, by simp⟩).nodup
    rw [hmap, List.map_map] at hs
    exact hs
  rw [hmap] at heq
  have hself : ∀ kv ∈ kvs, (∃ s, kv.1 = .str s) ∧ kv.2.jsonForm.eq kv.2 = true := by
    rintro ⟨k, v⟩ hkv
    obtain ⟨v', hlook, hv⟩ := eqDict_mem heq (List.mem_map.mpr ⟨_, hkv, rfl⟩)
    have hmem := lookupEq_str_mem hlook
    have hsame : (k, v) = (.str (keyForm k), v') :=
      List.inj_on_of_nodup_map hforms hkv hmem rfl
    obtain ⟨hk, rfl⟩ := Prod.mk.inj hsame
    exact ⟨⟨_, hk⟩, hv⟩
  refine ⟨?_, hself⟩
  have hkeys : kvs.map Prod.fst = kvs.map fun kv => PyKey.str (keyForm kv.1) := by
    refine List.map_congr_left fun kv hkv => ?_
    obtain ⟨s, hs⟩ := (hself kv hkv).1
    rw [hs]
    rfl
  rw [hkeys]
  exact hforms

mutual
theorem isJson_of_eq : ∀ v : PyValue, v.jsonForm.eq v = true → v.isJson = true
  | list xs, h => by
    rw [jsonForm, eq] at h
    rw [isJson]
    exact isJsonList_of_eq xs h
  | tuple xs, h => by
    rw [jsonForm, eq] at h
    · exact absurd h (by simp [scalarEq, number])
    · intros; simp_all
    · intros; simp_all
    · intros; simp_all
  | dict kvs, h => by
    obtain ⟨hnodup, hself⟩ := dict_eq_jsonForm h
    rw [isJson]
    exact isJsonDict_of_eq kvs hnodup hself
  | nonFinite x, h => absurd h (by simp [jsonForm, eq, scalarEq, number])
  | none, _ => rfl
  | bool _, _ => rfl
  | int _, _ => rfl
  | float _, _ => rfl
  | str _, _ => rfl
theorem isJsonList_of_eq : ∀ xs : List PyValue, eqList (jsonFormList xs) xs = true →
    isJsonList xs = true
  | [], _ => rfl
  | x :: xs, h => by
    rw [jsonFormList, eqList, Bool.and_eq_true] at h
    rw [isJsonList, isJson_of_eq x h.1, isJsonList_of_eq xs h.2]
    rfl
theorem isJsonDict_of_eq : ∀ kvs : List (PyKey × PyValue), (kvs.map Prod.fst).Nodup →
    (∀ kv ∈ kvs, (∃ s, kv.1 = .str s) ∧ kv.2.jsonForm.eq kv.2 = true) → isJsonDict kvs = true
  | [], _, _ => rfl
  | (k, v) :: kvs, hnodup, hself => by
    obtain ⟨⟨s, hs⟩, hv⟩ := hself _ List.mem_cons_self
    simp only at hs hv
    subst hs
    rw [List.map_cons, List.nodup_cons] at hnodup
    have hrest := isJsonDict_of_eq kvs hnodup.2 fun kv hkv => hself kv (List.mem_cons_of_mem _ hkv)
    have hany : (kvs.any fun kv => kv.1 = PyKey.str s) = false := by
      rw [List.any_eq_false]
      intro kv hkv heq
      exact hnodup.1 (List.mem_map.mpr ⟨kv, hkv, of_decide_eq_true heq⟩)
    rw [isJsonDict, isJson_of_eq v hv, hany, hrest]
    rfl
end

mutual
/-- A value that serializing leaves as it is. -/
theorem isJson_of_fixed : ∀ v : PyValue, v.jsonForm = v → v.isJson = true
  | list xs, h => by
    rw [jsonForm] at h
    rw [isJson]
    exact isJsonList_of_fixed xs (list.inj h)
  | tuple xs, h => by
    rw [jsonForm] at h
    exact PyValue.noConfusion h
  | dict kvs, h => by
    have hserialized := jsonFormDict_serialized kvs [] ⟨by simp, by simp, by simp⟩
    rw [jsonForm] at h
    rw [dict.inj h] at hserialized
    rw [isJson]
    exact isJsonDict_of_fixed kvs hserialized.nodup fun kv hkv =>
      ⟨hserialized.keys kv hkv, hserialized.values kv hkv⟩
  | nonFinite x, h => by
    rw [jsonForm] at h
    exact PyValue.noConfusion h
  | none, _ => rfl
  | bool _, _ => rfl
  | int _, _ => rfl
  | float _, _ => rfl
  | str _, _ => rfl
theorem isJsonList_of_fixed : ∀ xs : List PyValue, jsonFormList xs = xs → isJsonList xs = true
  | [], _ => rfl
  | x :: xs, h => by
    rw [jsonFormList] at h
    obtain ⟨hx, hxs⟩ := List.cons.inj h
    rw [isJsonList, isJson_of_fixed x hx, isJsonList_of_fixed xs hxs]
    rfl
theorem isJsonDict_of_fixed : ∀ kvs : List (PyKey × PyValue), (kvs.map Prod.fst).Nodup →
    (∀ kv ∈ kvs, (∃ s, kv.1 = .str s) ∧ kv.2.jsonForm = kv.2) → isJsonDict kvs = true
  | [], _, _ => rfl
  | (k, v) :: kvs, hnodup, hself => by
    obtain ⟨⟨s, hs⟩, hv⟩ := hself _ List.mem_cons_self
    simp only at hs hv
    subst hs
    rw [List.map_cons, List.nodup_cons] at hnodup
    have hrest := isJsonDict_of_fixed kvs hnodup.2 fun kv hkv =>
      hself kv (List.mem_cons_of_mem _ hkv)
    have hany : (kvs.any fun kv => kv.1 = PyKey.str s) = false := by
      rw [List.any_eq_false]
      intro kv hkv heq
      exact hnodup.1 (List.mem_map.mpr ⟨kv, hkv, of_decide_eq_true heq⟩)
    rw [isJsonDict, isJson_of_fixed v hv, hany, hrest]
    rfl
end

/-- Serializing leaves exactly the lossless values as they are. -/
theorem jsonForm_eq_self_iff (v : PyValue) : v.jsonForm = v ↔ v.isJson = true :=
  ⟨isJson_of_fixed v, jsonForm_of_isJson v⟩

/-- What is serialized is lossless. -/
theorem isJson_jsonForm (v : PyValue) : v.jsonForm.isJson = true :=
  isJson_of_fixed _ (jsonForm_jsonForm v)

/-- A value equals what it serializes to if and only if it is lossless JSON. -/
theorem jsonForm_eq_iff (v : PyValue) : v.jsonForm.eq v = true ↔ v.isJson = true := by
  constructor
  · exact isJson_of_eq v
  · intro h
    rw [jsonForm_of_isJson v h]
    exact eq_of_isJson v h

end AgentRuntimeKit.Lib.PyValue
