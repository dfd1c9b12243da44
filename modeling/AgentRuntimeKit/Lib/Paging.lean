import Mathlib.Data.List.Basic

/-!
# Reading a list page by page

A reader follows offsets through a list that grows while it reads. `InStep` says that it has read
the list as it stands, up to its offset. It stays so as long as no new element comes before that
offset; otherwise the reader meets again what was pushed back over it, and `Repeats` says so.

## Results

* `take_eq_or_mem_drop`  — a list that grows keeps its first elements, or pushes one of them back.
* `InStep.grow`, `InStep.read`, `InStep.done`     — a reader in step reads the list once.
* `InStep.repeats`, `Repeats.read`, `Repeats.done` — a reader out of step reads something twice.
* `read_left`            — the pages of a bounded list come to an end.
-/

namespace AgentRuntimeKit.Lib

variable {α : Type*} {l₀ l l' : List α} {n limit : Nat}

/-- The first `n` elements stay, or one of them is pushed back. -/
theorem take_eq_or_mem_drop (h : l.Sublist l') (hn : n ≤ l.length) :
    l'.take n = l.take n ∨ ∃ a ∈ l.take n, a ∈ l'.drop n := by
  induction h generalizing n with
  | slnil => exact .inl rfl
  | @cons l l' b h ih =>
    cases n with
    | zero => exact .inl rfl
    | succ m =>
      -- the first `m + 1` elements of `l` do not fit in before the place `m` of `l'`
      right
      have hrest : ((l.take (m + 1)).drop m).Sublist (l'.drop m) :=
        ((List.take_sublist (m + 1) l).trans h).drop m
      have hlen : ((l.take (m + 1)).drop m).length = 1 := by
        rw [List.length_drop, List.length_take]
        omega
      obtain ⟨a, ha⟩ := List.length_eq_one_iff.mp hlen
      have hmem : a ∈ (l.take (m + 1)).drop m := by
        rw [ha]
        exact List.mem_singleton_self a
      exact ⟨a, List.mem_of_mem_drop hmem, hrest.subset hmem⟩
  | @cons_cons l l' b h ih =>
    cases n with
    | zero => exact .inl rfl
    | succ m =>
      have hm : m ≤ l.length := by
        rw [List.length_cons] at hn
        omega
      rcases ih hm with hsame | ⟨a, ha, hback⟩
      · left
        rw [List.take_succ_cons, List.take_succ_cons, hsame]
      · right
        exact ⟨a, List.mem_cons_of_mem b ha, hback⟩

/-- The offset to read next, if any, and what has been read. -/
structure Reader (α : Type*) where
  next : Option Nat
  out : List α

namespace Reader

variable {r : Reader α}

/-- Read one page. One more element is looked at to find out whether there is a next. -/
def read (limit n : Nat) (l : List α) (r : Reader α) : Reader α where
  next := if limit < (l.drop n).length then some (n + limit) else none
  out := r.out ++ (l.drop n).take limit

/-- How many pages may be left of a list that does not outgrow `bound`. -/
def left (bound : Nat) (r : Reader α) : Nat :=
  match r.next with
  | some n => bound - n + 1
  | none => 0

/-- It has read the list up to its offset; once it has ended, a list from `l₀` to `l`. -/
structure InStep (l₀ l : List α) (r : Reader α) : Prop where
  grown : l₀.Sublist l
  offset : ∀ n, r.next = some n → n ≤ l.length ∧ r.out = l.take n
  ended : r.next = none → l₀.Sublist r.out ∧ r.out.Sublist l

/-- It has read something twice, or is about to. -/
def Repeats (l : List α) (r : Reader α) : Prop :=
  ¬r.out.Nodup ∨ ∃ a ∈ r.out, ∃ n, r.next = some n ∧ a ∈ l.drop n

theorem InStep.start (h : l₀.Sublist l) : InStep l₀ l ⟨some 0, []⟩ where
  grown := h
  offset n hn := by
    obtain rfl : 0 = n := Option.some.inj hn
    exact ⟨Nat.zero_le _, rfl⟩
  ended h := absurd h (by simp)

/-- The list grows behind the offset. -/
theorem InStep.grow (hr : InStep l₀ l r) (h : l.Sublist l')
    (hkept : ∀ n, r.next = some n → l'.take n = l.take n) : InStep l₀ l' r where
  grown := hr.grown.trans h
  offset n hn := by
    obtain ⟨hle, hout⟩ := hr.offset n hn
    exact ⟨Nat.le_trans hle h.length_le, hout.trans (hkept n hn).symm⟩
  ended hnone := ⟨(hr.ended hnone).1, (hr.ended hnone).2.trans h⟩

/-- The list grows before the offset. -/
theorem InStep.repeats (hr : InStep l₀ l r) (h : l.Sublist l') (hn : r.next = some n)
    (hmoved : l'.take n ≠ l.take n) : Repeats l' r := by
  obtain ⟨hle, hout⟩ := hr.offset n hn
  rcases take_eq_or_mem_drop h hle with hsame | ⟨a, ha, hback⟩
  · exact absurd hsame hmoved
  · exact .inr ⟨a, hout ▸ ha, n, hn, hback⟩

theorem Repeats.grow (hr : Repeats l r) (h : l.Sublist l') : Repeats l' r := by
  rcases hr with hdup | ⟨a, ha, n, hn, hback⟩
  · exact .inl hdup
  · exact .inr ⟨a, ha, n, hn, (h.drop n).subset hback⟩

theorem InStep.read (hr : InStep l₀ l r) (hn : r.next = some n) :
    InStep l₀ l (r.read limit n l) := by
  obtain ⟨hle, hout⟩ := hr.offset n hn
  have htake : (r.read limit n l).out = l.take (n + limit) := by
    show r.out ++ (l.drop n).take limit = _
    rw [hout, List.take_add]
  refine ⟨hr.grown, fun m hm => ?_, fun hnone => ?_⟩
  · have hmore : limit < (l.drop n).length ∧ n + limit = m := by
      by_contra hnot
      simp only [Reader.read] at hm
      split at hm
      · next hlt => exact hnot ⟨hlt, Option.some.inj hm⟩
      · exact absurd hm (by simp)
    rw [htake, ← hmore.2]
    have hlen := hmore.1
    rw [List.length_drop] at hlen
    exact ⟨by omega, rfl⟩
  · have hlast : ¬limit < (l.drop n).length := by
      intro hlt
      simp only [Reader.read, if_pos hlt] at hnone
      exact absurd hnone (by simp)
    rw [List.length_drop] at hlast
    have hall : l.take (n + limit) = l := List.take_of_length_le (by omega)
    rw [htake, hall]
    exact ⟨hr.grown, List.Sublist.refl l⟩

/-- What was pushed back is read again, or is still to be. -/
theorem Repeats.read (hr : Repeats l r) (hn : r.next = some n) :
    Repeats l (r.read limit n l) := by
  rcases hr with hdup | ⟨a, ha, m, hm, hback⟩
  · left
    intro hnodup
    exact hdup (List.nodup_append.mp hnodup).1
  · obtain rfl : n = m := Option.some.inj (hn.symm.trans hm)
    rw [← List.take_append_drop limit (l.drop n), List.drop_drop] at hback
    rcases List.mem_append.mp hback with hpage | hlater
    · left
      intro hnodup
      exact (List.nodup_append.mp hnodup).2.2 a ha a hpage rfl
    · right
      refine ⟨a, List.mem_append_left _ ha, n + limit, ?_, hlater⟩
      have hlen : limit < (l.drop n).length := by
        have hpos := List.length_pos_of_mem hlater
        rw [List.length_drop] at hpos ⊢
        omega
      exact if_pos hlen

theorem read_left {bound : Nat} (hn : r.next = some n) (hbound : l.length ≤ bound)
    (hlimit : 0 < limit) : (r.read limit n l).left bound < r.left bound := by
  have hbefore : r.left bound = bound - n + 1 := by rw [left, hn]
  have hlen : (l.drop n).length = l.length - n := List.length_drop
  rw [hbefore]
  unfold left read
  dsimp only
  split
  · next m hm =>
    split at hm
    · obtain rfl : n + limit = m := Option.some.inj hm
      omega
    · exact absurd hm (by simp)
  · omega

theorem Repeats.done (hr : Repeats l r) (hnone : r.next = none) : ¬r.out.Nodup := by
  rcases hr with hdup | ⟨a, -, n, hn, -⟩
  · exact hdup
  · exact absurd (hnone.symm.trans hn) (by simp)

end Reader

end AgentRuntimeKit.Lib
