import AgentRuntimeKit.Lib.JsonReadable

/-!
# JSON up to the order of keys

`PyValue.same` compares lossless JSON as JSON: objects without the order of their keys, lists with
their order, and a number, a boolean and a string never as equal. With `sort_keys=True` and
`ensure_ascii=True` the compact text of a value is that of its `sorted` form, which says the same
of two values:

* `sorted_eq_iff`           — two values have one sorted form iff they are the same.
* `dumps_canonical_eq_iff`  — they have one canonical text iff they are the same.
-/

namespace AgentRuntimeKit.Lib

/-- `sort_keys=True, separators=(",", ":"), ensure_ascii=True`. -/
def DumpOptions.canonical : DumpOptions := { DumpOptions.compactAscii with sortKeys := true }

namespace PyValue

mutual
/-- Equality of lossless JSON. -/
def same : PyValue → PyValue → Bool
  | none, none => true
  | bool b, bool b' => b = b'
  | int i, int i' => i = i'
  | float f, float f' => f = f'
  | str s, str s' => s = s'
  | list xs, list ys => sameList xs ys
  | dict kvs, dict kvs' => kvs.length = kvs'.length && sameDict kvs kvs'
  | _, _ => false
def sameList : List PyValue → List PyValue → Bool
  | [], [] => true
  | x :: xs, y :: ys => x.same y && sameList xs ys
  | _, _ => false
/-- Every key is on the right too, with the same value. -/
def sameDict : List (PyKey × PyValue) → List (PyKey × PyValue) → Bool
  | [], _ => true
  | (k, v) :: kvs, kvs' => (lookup k kvs').any (fun v' => v.same v') && sameDict kvs kvs'
end

/-- The order of `sort_keys`. -/
def keyLe (a b : PyKey × PyValue) : Prop := keyText a.1 ≤ keyText b.1

instance decidableKeyLe : DecidableRel keyLe := fun a b =>
  inferInstanceAs (Decidable (keyText a.1 ≤ keyText b.1))

instance totalKeyLe : Std.Total keyLe := ⟨fun a b => le_total (keyText a.1) (keyText b.1)⟩

instance transKeyLe : IsTrans (PyKey × PyValue) keyLe :=
  ⟨fun a b c => le_trans (a := keyText a.1) (b := keyText b.1) (c := keyText c.1)⟩

mutual
/-- The value with the entries of each dictionary in the order of their keys. -/
def sorted : PyValue → PyValue
  | list xs => list (sortedList xs)
  | tuple xs => tuple (sortedList xs)
  | dict kvs => dict ((sortedDict kvs).insertionSort keyLe)
  | v => v
def sortedList : List PyValue → List PyValue
  | [] => []
  | x :: xs => x.sorted :: sortedList xs
def sortedDict : List (PyKey × PyValue) → List (PyKey × PyValue)
  | [] => []
  | (k, v) :: kvs => (k, v.sorted) :: sortedDict kvs
end

theorem sortedList_eq_map (xs : List PyValue) : sortedList xs = xs.map sorted := by
  induction xs with
  | nil => rfl
  | cons x xs ih => rw [sortedList, List.map_cons, ih]

theorem sortedDict_eq_map (kvs : List (PyKey × PyValue)) :
    sortedDict kvs = kvs.map fun kv => (kv.1, kv.2.sorted) := by
  induction kvs with
  | nil => rfl
  | cons kv kvs ih =>
    obtain ⟨k, v⟩ := kv
    rw [sortedDict, List.map_cons, ih]

-- ---------------------------------------------------------------------------
-- The canonical text
-- ---------------------------------------------------------------------------

theorem orderEntries_canonical (kvs : List (PyKey × PyValue)) (o : DumpOptions) :
    orderEntries .canonical (kvs.map fun kv => (keyText kv.1, kv.2.dumps o)) =
      (kvs.insertionSort keyLe).map fun kv => (keyText kv.1, kv.2.dumps o) := by
  have hsort : DumpOptions.canonical.sortKeys = true := rfl
  rw [orderEntries, if_pos hsort]
  exact (List.map_insertionSort keyLe (fun a b : PyStr × PyStr => a.1 ≤ b.1) _ kvs
    fun a _ b _ => Iff.rfl).symm

mutual
theorem dumps_canonical : ∀ v : PyValue, v.dumps .canonical = v.sorted.dumps .compactAscii
  | list xs => by
    rw [sorted, dumps, dumps, dumpsList_canonical xs]
    rfl
  | dict kvs => by
    rw [sorted, dumps, dumps, dumpsDict_canonical kvs, dumpsDict_eq_map, orderEntries_canonical,
      dumpsDict_eq_map]
    rfl
  | tuple xs => by
    rw [sorted, dumps, dumps, dumpsList_canonical xs]
    rfl
  | none => rfl
  | bool true => rfl
  | bool false => rfl
  | int _ => rfl
  | float _ => rfl
  | nonFinite .nan => rfl
  | nonFinite .inf => rfl
  | nonFinite .negInf => rfl
  | str _ => rfl
theorem dumpsList_canonical : ∀ xs : List PyValue,
    dumpsList .canonical xs = dumpsList .compactAscii (sortedList xs)
  | [] => rfl
  | x :: xs => by rw [dumpsList, sortedList, dumpsList, dumps_canonical x, dumpsList_canonical xs]
theorem dumpsDict_canonical : ∀ kvs : List (PyKey × PyValue),
    dumpsDict .canonical kvs = dumpsDict .compactAscii (sortedDict kvs)
  | [] => rfl
  | (k, v) :: kvs => by
    rw [dumpsDict, sortedDict, dumpsDict, dumps_canonical v, dumpsDict_canonical kvs]
end

-- ---------------------------------------------------------------------------
-- Sorting keeps lossless JSON
-- ---------------------------------------------------------------------------

/-- Lossless JSON without surrogates. -/
structure Clean (v : PyValue) : Prop where
  json : v.isJson = true
  free : v.surrogateFree = true

theorem clean_list {xs : List PyValue} : (list xs).Clean ↔ ∀ x ∈ xs, x.Clean := by
  constructor
  · rintro ⟨hjson, hfree⟩ x hx
    rw [isJson] at hjson
    rw [surrogateFree] at hfree
    exact ⟨isJson_of_mem_list hjson x hx, surrogateFree_of_mem_list hfree x hx⟩
  · intro h
    induction xs with
    | nil => exact ⟨rfl, rfl⟩
    | cons x xs ih =>
      obtain ⟨hx, hxs⟩ := List.forall_mem_cons.mp h
      obtain ⟨hjson, hfree⟩ := ih hxs
      rw [isJson] at hjson
      rw [surrogateFree] at hfree
      constructor
      · rw [isJson, isJsonList, hx.json, hjson]
        rfl
      · rw [surrogateFree, surrogateFreeList, hx.free, hfree]
        rfl

/-- Every key is a string without surrogates and occurs once. -/
theorem clean_dict {kvs : List (PyKey × PyValue)} : (dict kvs).Clean ↔
    (kvs.map Prod.fst).Nodup ∧ ∀ kv ∈ kvs, (∃ s, kv.1 = .str s ∧ s.encodable = true) ∧
      kv.2.Clean := by
  constructor
  · rintro ⟨hjson, hfree⟩
    rw [isJson] at hjson
    rw [surrogateFree] at hfree
    refine ⟨(serialized_of_isJson kvs hjson).nodup, fun kv hkv => ?_⟩
    obtain ⟨s, hkey, hs, hvalue, hvalueFree⟩ := entry_of_mem_dict hjson hfree kv hkv
    exact ⟨⟨s, hkey, hs⟩, hvalue, hvalueFree⟩
  · rintro ⟨hnodup, h⟩
    induction kvs with
    | nil => exact ⟨rfl, rfl⟩
    | cons kv kvs ih =>
      obtain ⟨k, v⟩ := kv
      obtain ⟨⟨⟨s, hkey, hs⟩, hv⟩, hrest⟩ := List.forall_mem_cons.mp h
      obtain ⟨hnot, hnodup⟩ := List.nodup_cons.mp hnodup
      obtain ⟨hjson, hfree⟩ := ih hnodup hrest
      obtain rfl : k = .str s := hkey
      rw [isJson] at hjson
      rw [surrogateFree] at hfree
      have hother : (kvs.any fun kv => kv.1 = .str s) = false := by
        rw [List.any_eq_false]
        intro kv hkv hsame
        exact hnot (List.mem_map.mpr ⟨kv, hkv, of_decide_eq_true hsame⟩)
      constructor
      · rw [isJson, isJsonDict, hv.json, hother, hjson]
        rfl
      · rw [surrogateFree, surrogateFreeDict, hs, hv.free, hfree]
        rfl

theorem clean_insertionSort {kvs : List (PyKey × PyValue)} (h : (dict kvs).Clean) :
    (dict (kvs.insertionSort keyLe)).Clean := by
  obtain ⟨hnodup, hentries⟩ := clean_dict.mp h
  have hperm := List.perm_insertionSort keyLe kvs
  exact clean_dict.mpr ⟨(hperm.map Prod.fst).nodup_iff.mpr hnodup,
    fun kv hkv => hentries kv (hperm.mem_iff.mp hkv)⟩

mutual
theorem clean_sorted : ∀ v : PyValue, v.Clean → v.sorted.Clean
  | list xs, h => by
    rw [sorted, sortedList_eq_map]
    exact clean_list.mpr (List.forall_mem_map.mpr (clean_sortedList xs (clean_list.mp h)))
  | dict kvs, h => by
    obtain ⟨hnodup, hentries⟩ := clean_dict.mp h
    have hvalues := clean_sortedDict kvs fun kv hkv => (hentries kv hkv).2
    refine clean_insertionSort (clean_dict.mpr ?_)
    rw [sortedDict_eq_map, List.map_map]
    refine ⟨hnodup, List.forall_mem_map.mpr fun kv hkv => ⟨(hentries kv hkv).1, hvalues kv hkv⟩⟩
  | none, h => h
  | bool _, h => h
  | int _, h => h
  | float _, h => h
  | str _, h => h
  | nonFinite _, h => h
  | tuple _, h => absurd h.json (by simp [isJson])
theorem clean_sortedList : ∀ xs : List PyValue, (∀ x ∈ xs, x.Clean) → ∀ x ∈ xs, x.sorted.Clean
  | [], _ => by simp
  | x :: xs, h => by
    obtain ⟨hx, hxs⟩ := List.forall_mem_cons.mp h
    exact List.forall_mem_cons.mpr ⟨clean_sorted x hx, clean_sortedList xs hxs⟩
theorem clean_sortedDict : ∀ kvs : List (PyKey × PyValue), (∀ kv ∈ kvs, kv.2.Clean) →
    ∀ kv ∈ kvs, kv.2.sorted.Clean
  | [], _ => by simp
  | (k, v) :: kvs, h => by
    obtain ⟨hv, hkvs⟩ := List.forall_mem_cons.mp h
    exact List.forall_mem_cons.mpr ⟨clean_sorted v hv, clean_sortedDict kvs hkvs⟩
end

-- ---------------------------------------------------------------------------
-- Sorted forms
-- ---------------------------------------------------------------------------

/-- The sorted form of `v` is that of the values it is the same as. -/
def Decided (v : PyValue) : Prop :=
  ∀ v' : PyValue, v'.Clean → (v.sorted = v'.sorted ↔ v.same v' = true)

theorem lookup_eq_some {k : PyKey} {v : PyValue} {kvs : List (PyKey × PyValue)}
    (h : (kvs.map Prod.fst).Nodup) : lookup k kvs = some v ↔ (k, v) ∈ kvs := by
  induction kvs with
  | nil => simp [lookup]
  | cons kv kvs ih =>
    obtain ⟨k', v'⟩ := kv
    obtain ⟨hnot, hnodup⟩ := List.nodup_cons.mp h
    rw [lookup, List.mem_cons, Prod.mk.injEq]
    split
    · next hk =>
      have hlater : (k, v) ∉ kvs := fun hmem =>
        hnot (hk ▸ List.mem_map.mpr ⟨(k, v), hmem, rfl⟩)
      rw [Option.some.injEq]
      constructor
      · intro hv
        exact .inl ⟨hk, hv.symm⟩
      · rintro (⟨-, hv⟩ | hmem)
        · exact hv.symm
        · exact absurd hmem hlater
    · next hk =>
      rw [ih hnodup]
      constructor
      · intro hmem
        exact .inr hmem
      · rintro (⟨hk', -⟩ | hmem)
        · exact absurd hk' hk
        · exact hmem

theorem sameList_iff {xs ys : List PyValue} (h : ∀ x ∈ xs, Decided x) (hys : ∀ y ∈ ys, y.Clean) :
    xs.map sorted = ys.map sorted ↔ sameList xs ys = true := by
  induction xs generalizing ys with
  | nil =>
    cases ys with
    | nil => simp [sameList]
    | cons y ys => simp [sameList]
  | cons x xs ih =>
    cases ys with
    | nil => simp [sameList]
    | cons y ys =>
      obtain ⟨hx, hxs⟩ := List.forall_mem_cons.mp h
      obtain ⟨hy, hys⟩ := List.forall_mem_cons.mp hys
      rw [List.map_cons, List.map_cons, List.cons.injEq, sameList, Bool.and_eq_true, hx y hy,
        ih hxs hys]

theorem decided_list {xs : List PyValue} (h : ∀ x ∈ xs, Decided x) : Decided (list xs) := by
  intro v' hv'
  cases v' with
  | list ys =>
    rw [sorted, sorted, list.injEq, sortedList_eq_map, sortedList_eq_map, same]
    exact sameList_iff h (clean_list.mp hv')
  | _ => simp [sorted, same]

theorem sameDict_iff {part kvs : List (PyKey × PyValue)} (hkvs : (kvs.map Prod.fst).Nodup) :
    sameDict part kvs = true ↔ ∀ kv ∈ part, ∃ v', (kv.1, v') ∈ kvs ∧ kv.2.same v' = true := by
  induction part with
  | nil => simp [sameDict]
  | cons kv part ih =>
    obtain ⟨k, v⟩ := kv
    rw [sameDict, Bool.and_eq_true, ih, List.forall_mem_cons, Option.any_eq_true]
    simp only [lookup_eq_some hkvs]

/-- The order of entries with distinct keys is lost in sorting. -/
theorem insertionSort_eq_of_perm {kvs kvs' : List (PyKey × PyValue)}
    (hkeys : ∀ kv ∈ kvs, ∃ s, kv.1 = .str s) (hnodup : (kvs.map Prod.fst).Nodup)
    (h : kvs.Perm kvs') : kvs.insertionSort keyLe = kvs'.insertionSort keyLe := by
  have hperm := ((List.perm_insertionSort keyLe kvs).trans h).trans
    (List.perm_insertionSort keyLe kvs').symm
  refine List.Perm.eq_of_pairwise (fun a b ha hb hab hba => ?_)
    (List.pairwise_insertionSort keyLe kvs) (List.pairwise_insertionSort keyLe kvs') hperm
  have ha' := (List.mem_insertionSort keyLe).mp ha
  have hb' := h.mem_iff.mpr ((List.mem_insertionSort keyLe).mp hb)
  refine List.inj_on_of_nodup_map hnodup ha' hb' ?_
  obtain ⟨s, hs⟩ := hkeys a ha'
  obtain ⟨t, ht⟩ := hkeys b hb'
  rw [keyLe, hs, ht] at hab hba
  have hsame : s = t := le_antisymm hab hba
  rw [hs, ht, hsame]

theorem decided_dict {kvs : List (PyKey × PyValue)} (hkvs : (dict kvs).Clean)
    (h : ∀ kv ∈ kvs, Decided kv.2) : Decided (dict kvs) := by
  intro v' hv'
  cases v' with
  | dict kvs' =>
    obtain ⟨hnodup, hentries⟩ := clean_dict.mp hkvs
    obtain ⟨hnodup', hentries'⟩ := clean_dict.mp hv'
    rw [sorted, sorted, dict.injEq, sortedDict_eq_map, sortedDict_eq_map, same, Bool.and_eq_true,
      decide_eq_true_eq, sameDict_iff hnodup']
    constructor
    · intro hsorted
      have hperm := (List.perm_insertionSort keyLe (kvs.map fun kv => (kv.1, kv.2.sorted))).symm
      rw [hsorted] at hperm
      have hperm := hperm.trans (List.perm_insertionSort keyLe _)
      refine ⟨by simpa using hperm.length_eq, fun kv hkv => ?_⟩
      have hmem := hperm.mem_iff.mp (List.mem_map_of_mem hkv)
      obtain ⟨kv', hkv', heq⟩ := List.mem_map.mp hmem
      obtain ⟨hkey, hvalue⟩ := Prod.mk.inj heq
      have hclean := (hentries' kv' hkv').2
      exact ⟨kv'.2, hkey ▸ hkv', (h kv hkv kv'.2 hclean).mp hvalue.symm⟩
    · rintro ⟨hlen, hsame⟩
      have hkeys : ((kvs.map fun kv => (kv.1, kv.2.sorted)).map Prod.fst).Nodup := by
        rw [List.map_map]
        exact hnodup
      have hsubset : (kvs.map fun kv => (kv.1, kv.2.sorted)) ⊆
          kvs'.map fun kv => (kv.1, kv.2.sorted) := by
        intro entry hentry
        obtain ⟨kv, hkv, rfl⟩ := List.mem_map.mp hentry
        obtain ⟨v', hv', hsame⟩ := hsame kv hkv
        have hclean := (hentries' _ hv').2
        rw [(h kv hkv v' hclean).mpr hsame]
        exact List.mem_map_of_mem hv'
      have hperm := (List.subperm_of_subset hkeys.of_map hsubset).perm_of_length_le (by
        rw [List.length_map, List.length_map, hlen])
      refine insertionSort_eq_of_perm (fun entry hentry => ?_) hkeys hperm
      obtain ⟨kv, hkv, rfl⟩ := List.mem_map.mp hentry
      obtain ⟨⟨s, hs, -⟩, -⟩ := hentries kv hkv
      exact ⟨s, hs⟩
  | _ => simp [sorted, same]

/-- Scalars are their own sorted form. -/
theorem decided_scalar {v : PyValue} (hself : v.sorted = v)
    (h : ∀ v' : PyValue, v = v'.sorted ↔ v.same v' = true) : Decided v := by
  intro v' _
  rw [hself]
  exact h v'

mutual
theorem decided : ∀ v : PyValue, v.Clean → Decided v
  | list xs, h => decided_list (decidedList xs (clean_list.mp h))
  | dict kvs, h => decided_dict h (decidedDict kvs fun kv hkv => ((clean_dict.mp h).2 kv hkv).2)
  | none, _ => decided_scalar rfl fun v' => by cases v' <;> simp [sorted, same]
  | bool _, _ => decided_scalar rfl fun v' => by cases v' <;> simp [sorted, same]
  | int _, _ => decided_scalar rfl fun v' => by cases v' <;> simp [sorted, same]
  | float _, _ => decided_scalar rfl fun v' => by cases v' <;> simp [sorted, same]
  | str _, _ => decided_scalar rfl fun v' => by cases v' <;> simp [sorted, same]
  | nonFinite _, h => absurd h.json (by simp [isJson])
  | tuple _, h => absurd h.json (by simp [isJson])
theorem decidedList : ∀ xs : List PyValue, (∀ x ∈ xs, x.Clean) → ∀ x ∈ xs, Decided x
  | [], _ => by simp
  | x :: xs, h => by
    obtain ⟨hx, hxs⟩ := List.forall_mem_cons.mp h
    exact List.forall_mem_cons.mpr ⟨decided x hx, decidedList xs hxs⟩
theorem decidedDict : ∀ kvs : List (PyKey × PyValue), (∀ kv ∈ kvs, kv.2.Clean) →
    ∀ kv ∈ kvs, Decided kv.2
  | [], _ => by simp
  | (k, v) :: kvs, h => by
    obtain ⟨hv, hkvs⟩ := List.forall_mem_cons.mp h
    exact List.forall_mem_cons.mpr ⟨decided v hv, decidedDict kvs hkvs⟩
end

/-- **One sorted form: equal up to the order of keys.** -/
theorem sorted_eq_iff {v v' : PyValue} (h : v.Clean) (h' : v'.Clean) :
    v.sorted = v'.sorted ↔ v.same v' = true :=
  decided v h v' h'

/-- **One canonical text: equal up to the order of keys.** -/
theorem dumps_canonical_eq_iff {v v' : PyValue} (h : v.Clean) (h' : v'.Clean) :
    v.dumps .canonical = v'.dumps .canonical ↔ v.same v' = true := by
  have hs := clean_sorted v h
  have hs' := clean_sorted v' h'
  rw [dumps_canonical, dumps_canonical, ← sorted_eq_iff h h']
  constructor
  · exact dumps_injective inOrder_compactAscii (told_of_surrogateFree hs.json hs.free)
      (told_of_surrogateFree hs'.json hs'.free)
  · intro hsame
    rw [hsame]

end PyValue

end AgentRuntimeKit.Lib
