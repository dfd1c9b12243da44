import Mathlib.Algebra.BigOperators.Group.List.Basic
import Mathlib.Algebra.GroupWithZero.Nat
import Mathlib.Data.List.Infix
import Mathlib.Tactic.Common

/-!
# The longest suffix that fits

Given a cost for each item and a budget test on costs, `keepSuffix` drops items
from the front until `base` plus the cost of what is left passes the test. The
test is assumed to be antitone: what fits still fits when it is made cheaper.

* `keepSuffix_snoc` — the recursion from the back, which is the greedy choice
  that takes items from the newest on and stops at the first that does not fit;
* `keepSuffix_trimmed` — trimming first for a smaller base loses nothing, so the
  suffix can be kept up to date while items arrive and the base grows.
-/

namespace AgentRuntimeKit.Lib

universe u v

variable {α : Type u} {β : Type v}

/-- The sum of the costs of the items. -/
def total (cost : α → Nat) (items : List α) : Nat := (items.map cost).sum

/-- The longest suffix whose cost on top of `base` passes the test. -/
def keepSuffix (fits : Nat → Bool) (cost : α → Nat) (base : Nat) : List α → List α
  | [] => []
  | x :: rest =>
    if fits (base + total cost (x :: rest)) then x :: rest else keepSuffix fits cost base rest

@[simp] theorem total_nil (cost : α → Nat) : total cost [] = 0 := rfl

@[simp] theorem total_cons (cost : α → Nat) (x : α) (rest : List α) :
    total cost (x :: rest) = cost x + total cost rest := by
  simp [total]

@[simp] theorem total_append (cost : α → Nat) (xs ys : List α) :
    total cost (xs ++ ys) = total cost xs + total cost ys := by
  simp [total]

theorem total_map (cost : β → Nat) (f : α → β) (items : List α) :
    total cost (items.map f) = total (fun x => cost (f x)) items := by
  simp [total, Function.comp_def]

theorem keepSuffix_map (fits : Nat → Bool) (cost : β → Nat) (f : α → β) (base : Nat)
    (items : List α) :
    keepSuffix fits cost base (items.map f) =
      (keepSuffix fits (fun x => cost (f x)) base items).map f := by
  induction items with
  | nil => rfl
  | cons x rest ih =>
    rw [List.map_cons, keepSuffix, keepSuffix, ← List.map_cons, total_map]
    split
    · rfl
    · exact ih

theorem keepSuffix_suffix (fits : Nat → Bool) (cost : α → Nat) (base : Nat) (items : List α) :
    keepSuffix fits cost base items <:+ items := by
  induction items with
  | nil => exact List.suffix_rfl
  | cons x rest ih =>
    rw [keepSuffix]
    split
    · exact List.suffix_rfl
    · exact ih.trans (List.suffix_cons x rest)

/-- What is kept fits, unless nothing is kept. -/
theorem keepSuffix_fits {fits : Nat → Bool} {cost : α → Nat} {base : Nat} {items : List α}
    (h : keepSuffix fits cost base items ≠ []) :
    fits (base + total cost (keepSuffix fits cost base items)) = true := by
  induction items with
  | nil => exact absurd rfl h
  | cons x rest ih =>
    rw [keepSuffix] at h ⊢
    split
    next hfits => exact hfits
    next hfits =>
      rw [if_neg hfits] at h
      exact ih h

/-- No longer suffix fits. -/
theorem suffix_keepSuffix {fits : Nat → Bool} {cost : α → Nat} {base : Nat} {items kept : List α}
    (hsuffix : kept <:+ items) (hfits : fits (base + total cost kept) = true) :
    kept <:+ keepSuffix fits cost base items := by
  induction items with
  | nil => exact hsuffix
  | cons x rest ih =>
    rw [keepSuffix]
    split
    · exact hsuffix
    next hno =>
      rcases List.suffix_cons_iff.mp hsuffix with rfl | hrest
      · exact absurd hfits hno
      · exact ih hrest

section Antitone

variable {fits : Nat → Bool} (cost : α → Nat)
  (anti : ∀ {a b : Nat}, a ≤ b → fits b = true → fits a = true)

include anti

theorem keepSuffix_snoc (base : Nat) (items : List α) (x : α) :
    keepSuffix fits cost base (items ++ [x]) =
      if fits (base + cost x) then keepSuffix fits cost (base + cost x) items ++ [x] else [] := by
  induction items with
  | nil => simp [keepSuffix]
  | cons y rest ih =>
    have hsum : base + total cost (y :: (rest ++ [x])) =
        base + cost x + total cost (y :: rest) := by
      simp
      omega
    rw [List.cons_append, keepSuffix, hsum, ih, keepSuffix]
    by_cases hall : fits (base + cost x + total cost (y :: rest)) = true
    · have hx : fits (base + cost x) = true := anti (Nat.le_add_right _ _) hall
      rw [if_pos hall, if_pos hx, if_pos hall, List.cons_append]
    · rw [if_neg hall, if_neg hall]

theorem keepSuffix_trimmed {base base' : Nat} (h : base ≤ base') (items : List α) :
    keepSuffix fits cost base' (keepSuffix fits cost base items) =
      keepSuffix fits cost base' items := by
  induction items with
  | nil => rfl
  | cons x rest ih =>
    by_cases hall : fits (base + total cost (x :: rest)) = true
    · rw [keepSuffix.eq_2 fits cost base, if_pos hall]
    · have hall' : ¬ fits (base' + total cost (x :: rest)) = true :=
        fun hfits => hall (anti (by omega) hfits)
      rw [keepSuffix.eq_2 fits cost base, if_neg hall, ih, keepSuffix.eq_2 fits cost base',
        if_neg hall']

end Antitone

end AgentRuntimeKit.Lib
