import Mathlib.Data.Finset.Basic
import Mathlib.Data.List.Induction

/-!
# Exchanges

Exchanges that are opened and closed under a key. A key may be used again after its exchange has
been closed, and exchanges under different keys may overlap in any way.

* `WellFormed` — every exchange that is opened is closed before its key is used again, and what is
  closed has been opened;
* `scan` — the pass that keeps the set of open keys, with `scan_open`: what it keeps is open;
* `wellFormed_iff` — the pass accepts exactly what is well formed.
-/

namespace AgentRuntimeKit.Lib.Exchange

universe u

variable {α : Type u}

inductive Event (α : Type u)
  | opens (key : α)
  | closes (key : α)

def Event.key : Event α → α
  | opens a => a
  | closes a => a

/-- The last event under the key opens it. -/
def Open (a : α) (es : List (Event α)) : Prop :=
  ∃ before between, es = before ++ .opens a :: between ∧ ∀ e ∈ between, e.key ≠ a

/-- The first event under the key closes it. -/
def Closed (a : α) (es : List (Event α)) : Prop :=
  ∃ between after, es = between ++ .closes a :: after ∧ ∀ e ∈ between, e.key ≠ a

structure WellFormed (es : List (Event α)) : Prop where
  answered : ∀ before a after, es = before ++ .opens a :: after → Closed a after
  called : ∀ before a after, es = before ++ .closes a :: after → Open a before

-- ---------------------------------------------------------------------------
-- Open keys
-- ---------------------------------------------------------------------------

theorem not_open_nil (a : α) : ¬Open a [] := by
  rintro ⟨before, between, h, -⟩
  exact List.append_ne_nil_of_right_ne_nil before (List.cons_ne_nil _ _) h.symm

theorem open_snoc {a : α} {es : List (Event α)} {e : Event α} :
    Open a (es ++ [e]) ↔ e = .opens a ∨ e.key ≠ a ∧ Open a es := by
  constructor
  · rintro ⟨before, between, h, hbetween⟩
    cases between using List.reverseRecOn with
    | nil =>
      have hlast := (List.append_inj' h rfl).2
      exact Or.inl (List.cons.inj hlast).1
    | append_singleton between e' =>
      have hsplit : es ++ [e] = (before ++ .opens a :: between) ++ [e'] := by
        rw [h, List.append_assoc, List.cons_append]
      obtain ⟨hes, hlast⟩ := List.append_inj' hsplit rfl
      obtain rfl : e = e' := (List.cons.inj hlast).1
      refine Or.inr ⟨hbetween e (by simp), before, between, hes, fun e' he' => ?_⟩
      exact hbetween e' (List.mem_append_left _ he')
  · rintro (rfl | ⟨hkey, before, between, rfl, hbetween⟩)
    · exact ⟨es, [], rfl, fun e he => absurd he List.not_mem_nil⟩
    · refine ⟨before, between ++ [e], by rw [List.append_assoc, List.cons_append], ?_⟩
      intro e' he'
      rcases List.mem_append.mp he' with he' | he'
      · exact hbetween e' he'
      · rw [List.mem_singleton.mp he']
        exact hkey

/-- There is one first event under a key. -/
theorem first_unique {a : α} {e e' : Event α} (he : e.key = a) (he' : e'.key = a) :
    ∀ {between between' after after' : List (Event α)}, (∀ x ∈ between, x.key ≠ a) →
      (∀ x ∈ between', x.key ≠ a) → between ++ e :: after = between' ++ e' :: after' → e = e'
  | [], [], _, _, _, _, h => (List.cons.inj h).1
  | [], x :: _, _, _, _, hbetween', h => by
    have hx := hbetween' x List.mem_cons_self
    rw [← (List.cons.inj h).1] at hx
    exact absurd he hx
  | x :: _, [], _, _, hbetween, _, h => by
    have hx := hbetween x List.mem_cons_self
    rw [(List.cons.inj h).1] at hx
    exact absurd he' hx
  | x :: between, y :: between', _, _, hbetween, hbetween', h =>
    first_unique he he' (fun z hz => hbetween z (List.mem_cons_of_mem x hz))
      (fun z hz => hbetween' z (List.mem_cons_of_mem y hz)) (List.cons.inj h).2

/-- An open key is not opened again, where what is opened is closed first. -/
theorem WellFormed.not_open {before after : List (Event α)} {a : α}
    (h : WellFormed (before ++ .opens a :: after)) : ¬Open a before := by
  rintro ⟨first, between, rfl, hbetween⟩
  obtain ⟨between', after', heq, hbetween'⟩ := h.answered first a (between ++ .opens a :: after)
    (by rw [List.append_assoc, List.cons_append])
  have hsame : Event.opens a = .closes a := first_unique rfl rfl hbetween hbetween' heq
  cases hsame

/-- At the end nothing is open. -/
theorem WellFormed.none_open {es : List (Event α)} (h : WellFormed es) (a : α) : ¬Open a es := by
  rintro ⟨before, between, heq, hbetween⟩
  obtain ⟨between', after', rfl, -⟩ := h.answered before a between heq
  exact hbetween (.closes a) (List.mem_append_right _ List.mem_cons_self) rfl

variable [DecidableEq α]

-- ---------------------------------------------------------------------------
-- The pass
-- ---------------------------------------------------------------------------

/-- One event, given the open keys. -/
def step (pending : Finset α) : Event α → Option (Finset α)
  | .opens a => if a ∈ pending then none else some (insert a pending)
  | .closes a => if a ∈ pending then some (pending.erase a) else none

/-- All the events; `none` where a key is opened twice or closed without being open. -/
def scan (pending : Finset α) (es : List (Event α)) : Option (Finset α) := es.foldlM step pending

theorem scan_append (pending : Finset α) (as bs : List (Event α)) :
    scan pending (as ++ bs) = scan pending as >>= fun pending' => scan pending' bs :=
  List.foldlM_append

theorem scan_snoc (pending : Finset α) (es : List (Event α)) (e : Event α) :
    scan pending (es ++ [e]) = scan pending es >>= fun pending' => step pending' e := by
  rw [scan_append]
  refine congrArg _ (funext fun pending' => ?_)
  show (step pending' e >>= fun s => scan s []) = _
  exact bind_pure _

/-- The pass keeps the open keys. -/
theorem mem_scan {es : List (Event α)} {pending : Finset α} (h : scan ∅ es = some pending) (a : α) :
    a ∈ pending ↔ Open a es := by
  induction es using List.reverseRecOn generalizing pending with
  | nil =>
    cases h
    exact iff_of_false (Finset.notMem_empty a) (not_open_nil a)
  | append_singleton es e ih =>
    rw [scan_snoc] at h
    obtain ⟨pending', hscan, hstep⟩ := Option.bind_eq_some_iff.mp h
    rw [open_snoc, ← ih hscan]
    cases e with
    | opens b =>
      rw [step] at hstep
      split at hstep
      · cases hstep
      · cases hstep
        rw [Finset.mem_insert, Event.key, Event.opens.injEq, eq_comm]
        by_cases hb : b = a
        · exact iff_of_true (Or.inl hb) (Or.inl hb)
        · simp only [hb, false_or, ne_eq, not_false_eq_true, true_and]
    | closes b =>
      rw [step] at hstep
      split at hstep
      · cases hstep
        rw [Finset.mem_erase, Event.key, ne_comm]
        simp only [reduceCtorEq, false_or]
      · cases hstep

/-- A pass at whose end nothing is open closes what was open. -/
theorem closed_of_scan {es : List (Event α)} {pending : Finset α} {a : α}
    (h : scan pending es = some ∅) (ha : a ∈ pending) : Closed a es := by
  induction es generalizing pending with
  | nil =>
    cases h
    exact absurd ha (Finset.notMem_empty a)
  | cons e es ih =>
    obtain ⟨pending', hstep, hscan⟩ := Option.bind_eq_some_iff.mp h
    by_cases hkey : e.key = a
    · cases e with
      | opens b =>
        obtain rfl : b = a := hkey
        rw [step, if_pos ha] at hstep
        cases hstep
      | closes b =>
        obtain rfl : b = a := hkey
        exact ⟨[], es, rfl, fun e he => absurd he List.not_mem_nil⟩
    · have ha' : a ∈ pending' := by
        cases e with
        | opens b =>
          rw [step] at hstep
          split at hstep
          · cases hstep
          · cases hstep
            exact Finset.mem_insert_of_mem ha
        | closes b =>
          rw [step] at hstep
          split at hstep
          · cases hstep
            exact Finset.mem_erase.mpr ⟨fun h => hkey h.symm, ha⟩
          · cases hstep
      obtain ⟨between, after, rfl, hbetween⟩ := ih hscan ha'
      refine ⟨e :: between, after, rfl, fun e' he' => ?_⟩
      rcases List.mem_cons.mp he' with rfl | he'
      · exact hkey
      · exact hbetween e' he'

/-- A well-formed list is passed through. -/
theorem WellFormed.scan_prefix {es : List (Event α)} (h : WellFormed es)
    {before after : List (Event α)}
    (heq : es = before ++ after) : ∃ pending, scan ∅ before = some pending := by
  induction before using List.reverseRecOn generalizing after with
  | nil => exact ⟨∅, rfl⟩
  | append_singleton before e ih =>
    rw [List.append_assoc, List.singleton_append] at heq
    obtain ⟨pending, hscan⟩ := ih heq
    rw [scan_snoc, hscan]
    show ∃ pending', step pending e = some pending'
    cases e with
    | opens a =>
      have hopen : a ∉ pending := by
        rw [mem_scan hscan]
        rw [heq] at h
        exact h.not_open
      exact ⟨_, if_neg hopen⟩
    | closes a =>
      have hopen : a ∈ pending := (mem_scan hscan a).mpr (h.called before a after heq)
      exact ⟨_, if_pos hopen⟩

/-- The pass accepts what is well formed. -/
theorem wellFormed_iff (es : List (Event α)) : WellFormed es ↔ scan ∅ es = some ∅ := by
  constructor
  · intro h
    obtain ⟨pending, hscan⟩ := h.scan_prefix (List.append_nil es).symm
    have hempty : pending = ∅ := Finset.eq_empty_of_forall_notMem fun a ha =>
      h.none_open a ((mem_scan hscan a).mp ha)
    rw [hscan, hempty]
  · intro h
    constructor
    · rintro before a after rfl
      rw [scan_append] at h
      obtain ⟨pending, -, hafter⟩ := Option.bind_eq_some_iff.mp h
      obtain ⟨pending', hstep, hafter⟩ := Option.bind_eq_some_iff.mp hafter
      refine closed_of_scan hafter ?_
      rw [step] at hstep
      split at hstep
      · cases hstep
      · cases hstep
        exact Finset.mem_insert_self a pending
    · rintro before a after rfl
      rw [scan_append] at h
      obtain ⟨pending, hbefore, hafter⟩ := Option.bind_eq_some_iff.mp h
      obtain ⟨pending', hstep, -⟩ := Option.bind_eq_some_iff.mp hafter
      refine (mem_scan hbefore a).mp ?_
      rw [step] at hstep
      split at hstep
      · assumption
      · cases hstep

instance : DecidablePred (WellFormed (α := α)) :=
  fun es => decidable_of_iff _ (wellFormed_iff es).symm

/-- Well-formed pieces make a well-formed whole. -/
theorem WellFormed.append {as bs : List (Event α)} (ha : WellFormed as) (hb : WellFormed bs) :
    WellFormed (as ++ bs) := by
  rw [wellFormed_iff] at ha hb ⊢
  rw [scan_append, ha]
  exact hb

theorem WellFormed.flatten {pieces : List (List (Event α))} (h : ∀ es ∈ pieces, WellFormed es) :
    WellFormed pieces.flatten := by
  induction pieces with
  | nil => exact (wellFormed_iff _).mpr rfl
  | cons es pieces ih =>
    exact (h es List.mem_cons_self).append (ih fun es' hes' => h es' (List.mem_cons_of_mem es hes'))

end AgentRuntimeKit.Lib.Exchange
