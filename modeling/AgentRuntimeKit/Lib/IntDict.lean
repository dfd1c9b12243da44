import Mathlib.Data.List.Sort

/-!
# Dictionaries under natural numbers

A Python dictionary whose keys are natural numbers, with its entries in insertion order:
`setdefault` followed by a change (`update`), assignment (`insert`), and the values in the order
of the keys (`sorted`). `sorted_eq` tells what that order is from the entries alone, in whatever
order they were written.
-/

namespace AgentRuntimeKit.Lib

abbrev IntDict (α : Type) := List (Nat × α)

namespace IntDict

variable {α : Type}

/-- `d.get(i)`. -/
def get? (i : Nat) : IntDict α → Option α
  | [] => none
  | (j, v) :: d => if j = i then some v else get? i d

/-- `d.setdefault(i, default)`, and the value changed by `f`. -/
def update (i : Nat) (default : α) (f : α → α) : IntDict α → IntDict α
  | [] => [(i, f default)]
  | (j, v) :: d => if j = i then (j, f v) :: d else (j, v) :: update i default f d

/-- `d[i] = v`. -/
def insert (i : Nat) (v : α) (d : IntDict α) : IntDict α := d.update i v fun _ => v

/-- The entries in the order of their keys. -/
def entries (d : IntDict α) : IntDict α := d.insertionSort fun a b => a.1 ≤ b.1

/-- `d[i] for i in sorted(d)`. -/
def sorted (d : IntDict α) : List α := d.entries.map Prod.snd

/-- No key twice. -/
def IsDict (d : IntDict α) : Prop := (d.map Prod.fst).Nodup

theorem get?_update (i j : Nat) (default : α) (f : α → α) (d : IntDict α) :
    get? j (d.update i default f) =
      if j = i then some (f ((get? i d).getD default)) else get? j d := by
  induction d with
  | nil =>
    rw [update, get?, get?, get?]
    by_cases h : i = j
    · rw [if_pos h, if_pos h.symm]
      rfl
    · rw [if_neg h, if_neg (Ne.symm h)]
      rfl
  | cons kv d ih =>
    obtain ⟨k, v⟩ := kv
    rw [update]
    by_cases hk : k = i
    · subst hk
      rw [if_pos rfl, get?, get?, if_pos rfl, get?]
      by_cases h : k = j
      · rw [if_pos h, if_pos h.symm]
        rfl
      · rw [if_neg h, if_neg (Ne.symm h), if_neg h]
    · rw [if_neg hk, get?, get?, if_neg hk, get?, ih]
      by_cases h : k = j
      · have hji : j ≠ i := fun hji => hk (h.trans hji)
        rw [if_pos h, if_pos h, if_neg hji]
      · rw [if_neg h, if_neg h]

theorem keys_update (i : Nat) (default : α) (f : α → α) (d : IntDict α) :
    (d.update i default f).map Prod.fst =
      if i ∈ d.map Prod.fst then d.map Prod.fst else d.map Prod.fst ++ [i] := by
  induction d with
  | nil => rfl
  | cons kv d ih =>
    obtain ⟨k, v⟩ := kv
    rw [update]
    by_cases hk : k = i
    · subst hk
      have hmem : k ∈ ((k, v) :: d).map Prod.fst := List.mem_cons_self
      rw [if_pos rfl, if_pos hmem]
      rfl
    · rw [if_neg hk, List.map_cons, ih]
      by_cases hm : i ∈ d.map Prod.fst
      · have hmem : i ∈ ((k, v) :: d).map Prod.fst := List.mem_cons_of_mem _ hm
        rw [if_pos hm, if_pos hmem]
        rfl
      · have hnot : i ∉ ((k, v) :: d).map Prod.fst := by
          rw [List.map_cons, List.mem_cons, not_or]
          exact ⟨Ne.symm hk, hm⟩
        rw [if_neg hm, if_neg hnot]
        rfl

theorem isDict_nil : IsDict ([] : IntDict α) := List.nodup_nil

theorem IsDict.update {d : IntDict α} (h : d.IsDict) (i : Nat) (default : α) (f : α → α) :
    (d.update i default f).IsDict := by
  rw [IsDict, keys_update]
  split
  · exact h
  · next hm =>
    refine List.nodup_append.mpr ⟨h, by simp, fun a ha b hb hab => ?_⟩
    rw [List.mem_singleton] at hb
    rw [hab, hb] at ha
    exact hm ha

theorem get?_eq_some_of_mem {d : IntDict α} (h : d.IsDict) {i : Nat} {v : α}
    (hmem : (i, v) ∈ d) : get? i d = some v := by
  induction d with
  | nil => exact absurd hmem List.not_mem_nil
  | cons kv d ih =>
    obtain ⟨k, w⟩ := kv
    obtain ⟨hnotin, hrest⟩ := List.nodup_cons.mp h
    rw [get?]
    rcases List.mem_cons.mp hmem with heq | hmem
    · cases heq
      exact if_pos rfl
    · have hne : k ≠ i := by
        rintro rfl
        exact hnotin (List.mem_map.mpr ⟨_, hmem, rfl⟩)
      rw [if_neg hne]
      exact ih hrest hmem

theorem mem_of_get? {d : IntDict α} {i : Nat} {v : α} (h : get? i d = some v) : (i, v) ∈ d := by
  induction d with
  | nil => exact absurd h (by simp [get?])
  | cons kv d ih =>
    obtain ⟨k, w⟩ := kv
    rw [get?] at h
    by_cases hk : k = i
    · rw [if_pos hk] at h
      rw [← Option.some.inj h, hk]
      exact List.mem_cons_self
    · rw [if_neg hk] at h
      exact List.mem_cons_of_mem _ (ih h)

/-- Increasing keys make a dictionary. -/
theorem isDict_of_increasing {d : IntDict α} (h : d.Pairwise fun a b => a.1 < b.1) : d.IsDict := by
  rw [IsDict, List.Nodup, List.pairwise_map]
  exact h.imp fun hab => Nat.ne_of_lt hab

/-- Whatever the order in which a dictionary was filled, its entries in the order of the keys are
the list with the same values under increasing keys. -/
theorem entries_eq {d expected : IntDict α} (hd : d.IsDict)
    (hexpected : expected.Pairwise fun a b => a.1 < b.1)
    (h : ∀ i, get? i d = get? i expected) : d.entries = expected := by
  have hdict := isDict_of_increasing hexpected
  have hmem : ∀ kv : Nat × α, kv ∈ d ↔ kv ∈ expected := by
    rintro ⟨i, v⟩
    constructor
    · intro hkv
      exact mem_of_get? (by rw [← h, get?_eq_some_of_mem hd hkv])
    · intro hkv
      exact mem_of_get? (by rw [h, get?_eq_some_of_mem hdict hkv])
  have hperm : d.entries.Perm expected :=
    (List.perm_insertionSort _ d).trans
      ((List.perm_ext_iff_of_nodup (List.Nodup.of_map _ hd) (List.Nodup.of_map _ hdict)).mpr hmem)
  have hsorted : d.entries.Pairwise fun a b => a.1 ≤ b.1 := by
    have : Std.Total (fun a b : Nat × α => a.1 ≤ b.1) := ⟨fun a b => Nat.le_total a.1 b.1⟩
    have : IsTrans (Nat × α) fun a b => a.1 ≤ b.1 := ⟨fun a b c hab hbc => Nat.le_trans hab hbc⟩
    exact List.pairwise_insertionSort _ d
  refine hperm.eq_of_pairwise ?_ hsorted (hexpected.imp fun hab => Nat.le_of_lt hab)
  rintro ⟨i, v⟩ ⟨j, w⟩ hv hw hij hji
  have hsame : i = j := Nat.le_antisymm hij hji
  subst hsame
  have hv' := get?_eq_some_of_mem hdict (hperm.mem_iff.mp hv)
  rw [get?_eq_some_of_mem hdict hw] at hv'
  rw [Option.some.inj hv']

theorem sorted_eq {d expected : IntDict α} (hd : d.IsDict)
    (hexpected : expected.Pairwise fun a b => a.1 < b.1)
    (h : ∀ i, get? i d = get? i expected) : d.sorted = expected.map Prod.snd := by
  rw [sorted, entries_eq hd hexpected h]

/-! ### Keys in increasing order -/

/-- Every key is less than `k`. -/
def Below (k : Nat) (d : IntDict α) : Prop := ∀ kv ∈ d, kv.1 < k

theorem Below.mono {d : IntDict α} {k l : Nat} (h : d.Below k) (hle : k ≤ l) : d.Below l :=
  fun kv hkv => Nat.lt_of_lt_of_le (h kv hkv) hle

theorem Below.append {d : IntDict α} {k : Nat} (h : d.Below k) (v : α) :
    IntDict.Below (k + 1) (d ++ [(k, v)]) := by
  intro kv hkv
  rcases List.mem_append.mp hkv with hkv | hkv
  · have hlt := h kv hkv
    omega
  · rw [List.mem_singleton.mp hkv]
    exact Nat.lt_succ_self k

theorem Below.get? {d : IntDict α} {k : Nat} (h : d.Below k) : get? k d = none := by
  cases hget : IntDict.get? k d with
  | none => rfl
  | some v =>
    have hlt := h _ (mem_of_get? hget)
    exact absurd hlt (Nat.lt_irrefl k)

/-- A change under a key that only the last entry may have. -/
theorem Below.update {d : IntDict α} {k : Nat} (h : d.Below k) (default : α) (f : α → α)
    (d' : IntDict α) :
    IntDict.update k default f (d ++ d') = d ++ IntDict.update k default f d' := by
  induction d with
  | nil => rfl
  | cons kv d ih =>
    obtain ⟨i, v⟩ := kv
    have hlt : i < k := h _ List.mem_cons_self
    rw [List.cons_append, IntDict.update, if_neg (Nat.ne_of_lt hlt),
      ih fun kv hkv => h kv (List.mem_cons_of_mem _ hkv)]
    rfl

theorem Below.insert {d : IntDict α} {k : Nat} (h : d.Below k) (v : α) :
    d.insert k v = d ++ [(k, v)] := by
  have hupdate := h.update v (fun _ => v) []
  rw [List.append_nil] at hupdate
  exact hupdate

theorem Below.insert_last {d : IntDict α} {k : Nat} (h : d.Below k) (v w : α) :
    IntDict.insert k w (d ++ [(k, v)]) = d ++ [(k, w)] := by
  rw [IntDict.insert, h.update, IntDict.update, if_pos rfl]

theorem Below.get?_last {d : IntDict α} {k : Nat} (h : d.Below k) (v : α) :
    IntDict.get? k (d ++ [(k, v)]) = some v := by
  have hget := get?_update k k v (fun _ => v) d
  rw [if_pos rfl] at hget
  rw [← h.insert]
  exact hget

/-- Increasing keys, one after another. -/
theorem increasing_append {d : IntDict α} {k : Nat} (hd : d.Pairwise fun a b => a.1 < b.1)
    (h : d.Below k) (v : α) : (d ++ [(k, v)]).Pairwise fun a b => a.1 < b.1 := by
  refine List.pairwise_append.mpr ⟨hd, List.pairwise_singleton _ _, ?_⟩
  intro a ha b hb
  rw [List.mem_singleton.mp hb]
  exact h a ha

theorem sorted_of_increasing {d : IntDict α} (h : d.Pairwise fun a b => a.1 < b.1) :
    d.sorted = d.map Prod.snd :=
  sorted_eq (isDict_of_increasing h) h fun _ => rfl

/-! ### Enumerated values -/

/-- `dict(enumerate(xs, start))`. -/
def enumerate : Nat → List α → IntDict α
  | _, [] => []
  | start, x :: xs => (start, x) :: enumerate (start + 1) xs

theorem values_enumerate (start : Nat) (xs : List α) :
    (enumerate start xs).map Prod.snd = xs := by
  induction xs generalizing start with
  | nil => rfl
  | cons x xs ih => rw [enumerate, List.map_cons, ih]

theorem le_of_mem_enumerate {start : Nat} {xs : List α} {kv : Nat × α}
    (h : kv ∈ enumerate start xs) : start ≤ kv.1 := by
  induction xs generalizing start with
  | nil => exact absurd h List.not_mem_nil
  | cons x xs ih =>
    rcases List.mem_cons.mp h with rfl | h
    · exact Nat.le_refl _
    · have hle := ih h
      omega

theorem increasing_enumerate (start : Nat) (xs : List α) :
    (enumerate start xs).Pairwise fun a b => a.1 < b.1 := by
  induction xs generalizing start with
  | nil => exact List.Pairwise.nil
  | cons x xs ih =>
    refine List.pairwise_cons.mpr ⟨fun kv hkv => ?_, ih (start + 1)⟩
    have hle := le_of_mem_enumerate hkv
    show start < kv.1
    omega

theorem get?_enumerate (start i : Nat) (xs : List α) :
    get? (start + i) (enumerate start xs) = xs[i]? := by
  induction xs generalizing start i with
  | nil => rfl
  | cons x xs ih =>
    rw [enumerate, get?]
    cases i with
    | zero => exact if_pos rfl
    | succ i =>
      have hne : start ≠ start + (i + 1) := by omega
      have hshift : start + (i + 1) = start + 1 + i := by omega
      rw [if_neg hne, hshift, ih, List.getElem?_cons_succ]

end IntDict

end AgentRuntimeKit.Lib
