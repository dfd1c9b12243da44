import Mathlib.Data.List.Forall2
import Mathlib.Data.List.Induction
import Mathlib.Logic.Function.Basic

/-!
# Bindings

A sequence of bindings of keys to values, of which the last one under a key counts.

* `table` — the dictionary that is filled by assigning the bindings in their order;
* `Latest` — the last binding under a key, with `table_eq_some`: the dictionary holds it;
* `latest_append_iff` — what is bound later does not change a value unless its last binding does;
* `preceded` — the elements of a list, each with those before it.
-/

namespace AgentRuntimeKit.Lib.Bindings

universe u v

variable {κ : Type u} {ν : Type v}

/-- The last binding under the key. -/
def Latest (k : κ) (x : ν) (bs : List (κ × ν)) : Prop :=
  ∃ before after, bs = before ++ (k, x) :: after ∧ ∀ b ∈ after, b.1 ≠ k

theorem not_latest_nil (k : κ) (x : ν) : ¬Latest k x [] := by
  rintro ⟨before, after, h, -⟩
  exact List.append_ne_nil_of_right_ne_nil before (List.cons_ne_nil _ _) h.symm

theorem Latest.mem {k : κ} {x : ν} {bs : List (κ × ν)} (h : Latest k x bs) : (k, x) ∈ bs := by
  obtain ⟨before, after, rfl, -⟩ := h
  exact List.mem_append_right before List.mem_cons_self

theorem latest_snoc {k : κ} {x : ν} {bs : List (κ × ν)} {b : κ × ν} :
    Latest k x (bs ++ [b]) ↔ b = (k, x) ∨ b.1 ≠ k ∧ Latest k x bs := by
  constructor
  · rintro ⟨before, after, h, hafter⟩
    cases after using List.reverseRecOn with
    | nil =>
      have hlast := (List.append_inj' h rfl).2
      exact Or.inl (List.cons.inj hlast).1
    | append_singleton after b' =>
      have hsplit : bs ++ [b] = (before ++ (k, x) :: after) ++ [b'] := by
        rw [h, List.append_assoc, List.cons_append]
      obtain ⟨hbs, hlast⟩ := List.append_inj' hsplit rfl
      obtain rfl : b = b' := (List.cons.inj hlast).1
      refine Or.inr ⟨hafter b (by simp), before, after, hbs, fun b' hb' => ?_⟩
      exact hafter b' (List.mem_append_left _ hb')
  · rintro (rfl | ⟨hkey, before, after, rfl, hafter⟩)
    · exact ⟨bs, [], rfl, fun b hb => absurd hb List.not_mem_nil⟩
    · refine ⟨before, after ++ [b], by rw [List.append_assoc, List.cons_append], ?_⟩
      intro b' hb'
      rcases List.mem_append.mp hb' with hb' | hb'
      · exact hafter b' hb'
      · rw [List.mem_singleton.mp hb']
        exact hkey

theorem Latest.unique {k : κ} {x y : ν} {bs : List (κ × ν)} (hx : Latest k x bs)
    (hy : Latest k y bs) : x = y := by
  induction bs using List.reverseRecOn with
  | nil => exact absurd hx (not_latest_nil k x)
  | append_singleton bs b ih =>
    rcases latest_snoc.mp hx with rfl | ⟨hne, hx⟩
    · rcases latest_snoc.mp hy with h | ⟨hne, -⟩
      · exact (Prod.mk.inj h).2
      · exact absurd rfl hne
    · rcases latest_snoc.mp hy with rfl | ⟨-, hy⟩
      · exact absurd rfl hne
      · exact ih hx hy

/-- A key that is bound has a last binding. -/
theorem exists_latest {k : κ} {bs : List (κ × ν)} (h : ∃ b ∈ bs, b.1 = k) :
    ∃ x, Latest k x bs := by
  induction bs using List.reverseRecOn with
  | nil =>
    obtain ⟨b, hb, -⟩ := h
    exact absurd hb List.not_mem_nil
  | append_singleton bs b ih =>
    by_cases hb : b.1 = k
    · exact ⟨b.2, latest_snoc.mpr (Or.inl (by rw [← hb]))⟩
    · obtain ⟨b', hmem, hkey⟩ := h
      rcases List.mem_append.mp hmem with hmem | hmem
      · obtain ⟨x, hx⟩ := ih ⟨b', hmem, hkey⟩
        exact ⟨x, latest_snoc.mpr (Or.inr ⟨hb, hx⟩)⟩
      · rw [List.mem_singleton.mp hmem] at hkey
        exact absurd hkey hb

/-- Later bindings take the place of earlier ones. -/
theorem latest_append {k : κ} {x : ν} {as bs : List (κ × ν)} :
    Latest k x (as ++ bs) ↔ Latest k x bs ∨ (∀ b ∈ bs, b.1 ≠ k) ∧ Latest k x as := by
  induction bs using List.reverseRecOn with
  | nil =>
    rw [List.append_nil]
    constructor
    · intro h
      exact Or.inr ⟨fun b hb => absurd hb List.not_mem_nil, h⟩
    · rintro (h | ⟨-, h⟩)
      · exact absurd h (not_latest_nil k x)
      · exact h
  | append_singleton bs b ih =>
    rw [← List.append_assoc, latest_snoc, latest_snoc, ih]
    simp only [List.mem_append, List.mem_singleton]
    constructor
    · rintro (h | ⟨hne, h | ⟨hbs, h⟩⟩)
      · exact Or.inl (Or.inl h)
      · exact Or.inl (Or.inr ⟨hne, h⟩)
      · refine Or.inr ⟨fun b' hb' => ?_, h⟩
        rcases hb' with hb' | rfl
        · exact hbs b' hb'
        · exact hne
    · rintro ((h | ⟨hne, h⟩) | ⟨hall, h⟩)
      · exact Or.inl h
      · exact Or.inr ⟨hne, Or.inl h⟩
      · exact Or.inr ⟨hall b (Or.inr rfl), Or.inr ⟨fun b' hb' => hall b' (Or.inl hb'), h⟩⟩

/-- What is bound later leaves a value alone unless its last binding is another one. -/
theorem latest_append_iff {k : κ} {x : ν} {as bs : List (κ × ν)} (h : Latest k x as) :
    Latest k x (as ++ bs) ↔ ∀ y, Latest k y bs → y = x := by
  rw [latest_append]
  constructor
  · rintro (hx | ⟨hnone, -⟩) y hy
    · exact hy.unique hx
    · exact absurd rfl (hnone (k, y) hy.mem)
  · intro hall
    by_cases hbound : ∃ b ∈ bs, b.1 = k
    · obtain ⟨y, hy⟩ := exists_latest hbound
      rw [hall y hy] at hy
      exact Or.inl hy
    · exact Or.inr ⟨fun b hb hkey => hbound ⟨b, hb, hkey⟩, h⟩

/-- Bindings that are repeated at once change nothing. -/
theorem latest_repeat {k : κ} {x : ν} {as bs : List (κ × ν)} :
    Latest k x (as ++ (as ++ bs)) ↔ Latest k x (as ++ bs) := by
  rw [latest_append]
  constructor
  · rintro (h | ⟨hnone, h⟩)
    · exact h
    · exact absurd rfl (hnone _ (List.mem_append_left _ h.mem))
  · intro h
    exact Or.inl h

-- ---------------------------------------------------------------------------
-- What comes before
-- ---------------------------------------------------------------------------

section Preceded

variable {α : Type u} {β : Type v}

/-- Each element, with those that come before it. -/
def preceded (before : List α) : List α → List (List α × α)
  | [] => []
  | x :: xs => (before, x) :: preceded (before ++ [x]) xs

theorem mem_preceded {before xs ys : List α} {x : α} :
    (ys, x) ∈ preceded before xs ↔ ∃ l r, xs = l ++ x :: r ∧ ys = before ++ l := by
  induction xs generalizing before with
  | nil =>
    refine iff_of_false List.not_mem_nil ?_
    rintro ⟨l, r, h, -⟩
    exact List.append_ne_nil_of_right_ne_nil l (List.cons_ne_nil _ _) h.symm
  | cons z xs ih =>
    rw [preceded, List.mem_cons, ih]
    constructor
    · rintro (h | ⟨l, r, rfl, rfl⟩)
      · obtain ⟨rfl, rfl⟩ := Prod.mk.inj h
        exact ⟨[], xs, rfl, (List.append_nil _).symm⟩
      · exact ⟨z :: l, r, rfl, by rw [List.append_assoc, List.singleton_append]⟩
    · rintro ⟨l, r, heq, rfl⟩
      cases l with
      | nil =>
        obtain ⟨rfl, -⟩ := List.cons.inj heq
        exact Or.inl (by rw [List.append_nil])
      | cons w l =>
        obtain ⟨rfl, rfl⟩ := List.cons.inj heq
        exact Or.inr ⟨l, r, rfl, by rw [List.append_assoc, List.singleton_append]⟩

theorem preceded_map_snd (before xs : List α) : (preceded before xs).map Prod.snd = xs := by
  induction xs generalizing before with
  | nil => rfl
  | cons x xs ih => rw [preceded, List.map_cons, ih]

/-- A relation between elements and results, with the histories added. -/
theorem forall₂_preceded {R : α → β → Prop} (before : List α) {xs : List α} {ys : List β} :
    List.Forall₂ (fun p y => R p.2 y) (preceded before xs) ys ↔ List.Forall₂ R xs ys := by
  rw [← List.forall₂_map_left_iff (f := Prod.snd), preceded_map_snd]

end Preceded

variable [DecidableEq κ]

/-- The dictionary `{k: x for …}`. -/
def table (bs : List (κ × ν)) : κ → Option ν :=
  bs.foldl (fun t b => Function.update t b.1 (some b.2)) fun _ => none

theorem table_snoc (bs : List (κ × ν)) (b : κ × ν) (k : κ) :
    table (bs ++ [b]) k = if k = b.1 then some b.2 else table bs k := by
  rw [table, List.foldl_append]
  exact Function.update_apply _ _ _ _

/-- The dictionary holds the last binding. -/
theorem table_eq_some {bs : List (κ × ν)} {k : κ} {x : ν} :
    table bs k = some x ↔ Latest k x bs := by
  induction bs using List.reverseRecOn with
  | nil => exact iff_of_false (fun h => by cases h) (not_latest_nil k x)
  | append_singleton bs b ih =>
    rw [table_snoc, latest_snoc, ← ih]
    by_cases hk : k = b.1
    · rw [if_pos hk, Option.some.injEq]
      constructor
      · rintro rfl
        exact Or.inl (by rw [hk])
      · rintro (rfl | ⟨hne, -⟩)
        · rfl
        · exact absurd hk.symm hne
    · rw [if_neg hk]
      constructor
      · intro h
        exact Or.inr ⟨fun h => hk h.symm, h⟩
      · rintro (rfl | ⟨-, h⟩)
        · exact absurd rfl hk
        · exact h

end AgentRuntimeKit.Lib.Bindings
