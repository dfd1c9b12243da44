import AgentRuntimeKit.Lib.Bindings
import Mathlib.Order.Lattice

/-!
# Expiring maps

A map whose values may have a time of expiry. A reader sees the values that are live at the time
of the read, so that a sweep which forgets dead values is not seen by anyone who reads later.

## Results

* `AgreeFrom.write`, `agreeFrom_sweep` — what writes and sweeps do to maps that read the same
  from a time on.
* `replay_eq_some`   — a map holds the last write under a key.
* `AgreeFrom.read_iff` — a map that agrees with a replay reads the last write, while it lives.
-/

namespace AgentRuntimeKit.Lib

/-- A value, with the time from which on it is dead. -/
structure Expiring (ν τ : Type*) where
  value : ν
  expiresAt : Option τ
deriving DecidableEq

variable {κ ν τ : Type*} [LinearOrder τ] {e : Expiring ν τ} {k : κ} {now now' t t' : τ}

/-- At its expiry a value is dead. -/
def Expiring.live (now : τ) (e : Expiring ν τ) : Bool := e.expiresAt.all (now < ·)

/-- What is live was live before. -/
theorem Expiring.live_of_le (hle : now ≤ now') (h : e.live now') : e.live now := by
  cases hexpiry : e.expiresAt with
  | none => simp [Expiring.live, hexpiry]
  | some expiry =>
    simp only [Expiring.live, hexpiry, Option.all_some, decide_eq_true_eq] at h ⊢
    exact lt_of_le_of_lt hle h

abbrev ExpiringMap (κ ν τ : Type*) := κ → Option (Expiring ν τ)

namespace ExpiringMap

variable {m m' m'' : ExpiringMap κ ν τ} {p : κ → Bool}

def read (m : ExpiringMap κ ν τ) (now : τ) : ExpiringMap κ ν τ := fun k => (m k).filter (·.live now)

/-- Write or delete the value under a key. -/
def write [DecidableEq κ] (m : ExpiringMap κ ν τ) (w : κ × Option (Expiring ν τ)) :
    ExpiringMap κ ν τ :=
  Function.update m w.1 w.2

/-- Forget the values that are dead, under the keys of `p`. -/
def sweep (m : ExpiringMap κ ν τ) (now : τ) (p : κ → Bool) : ExpiringMap κ ν τ := fun k =>
  if p k then m.read now k else m k

/-- Do a write, if there is one. -/
def write? [DecidableEq κ] (m : ExpiringMap κ ν τ) : Option (κ × Option (Expiring ν τ)) →
    ExpiringMap κ ν τ
  | some w => m.write w
  | none => m

/-- The maps read the same from `t` on. -/
def AgreeFrom (t : τ) (m m' : ExpiringMap κ ν τ) : Prop :=
  ∀ now, t ≤ now → m.read now = m'.read now

theorem read_eq_some : m.read now k = some e ↔ m k = some e ∧ e.live now :=
  Option.filter_eq_some_iff

theorem read_read (hle : now ≤ now') : (m.read now).read now' = m.read now' := by
  funext k
  rw [Option.ext_iff]
  intro e
  simp only [read_eq_some]
  constructor
  · rintro ⟨⟨hm, -⟩, hlive⟩
    exact ⟨hm, hlive⟩
  · rintro ⟨hm, hlive⟩
    exact ⟨⟨hm, e.live_of_le hle hlive⟩, hlive⟩

namespace AgreeFrom

theorem refl (t : τ) (m : ExpiringMap κ ν τ) : AgreeFrom t m m := fun _ _ => rfl

theorem symm (h : AgreeFrom t m m') : AgreeFrom t m' m := fun now hle => (h now hle).symm

theorem trans (h : AgreeFrom t m m') (h' : AgreeFrom t m' m'') : AgreeFrom t m m'' :=
  fun now hle => (h now hle).trans (h' now hle)

theorem mono (h : AgreeFrom t m m') (hle : t ≤ t') : AgreeFrom t' m m' :=
  fun now hnow => h now (le_trans hle hnow)

theorem write [DecidableEq κ] (h : AgreeFrom t m m') (w : κ × Option (Expiring ν τ)) :
    AgreeFrom t (m.write w) (m'.write w) := by
  intro now hle
  funext k
  have hk := congrFun (h now hle) k
  simp only [ExpiringMap.read, ExpiringMap.write, Function.update_apply] at hk ⊢
  split
  · rfl
  · exact hk

theorem write? [DecidableEq κ] (h : AgreeFrom t m m') (w : Option (κ × Option (Expiring ν τ))) :
    AgreeFrom t (m.write? w) (m'.write? w) := by
  cases w with
  | none => exact h
  | some w => exact h.write w

end AgreeFrom

/-- Whoever reads from the time of a sweep on does not see it. -/
theorem agreeFrom_sweep (m : ExpiringMap κ ν τ) (now : τ) (p : κ → Bool) :
    AgreeFrom now (m.sweep now p) m := by
  intro now' hle
  funext k
  have hread := congrFun (read_read (m := m) hle) k
  simp only [read, sweep] at hread ⊢
  split
  · exact hread
  · rfl

variable [DecidableEq κ] {ws : List (κ × Option (Expiring ν τ))}

/-- The map after a sequence of writes. -/
def replay (ws : List (κ × Option (Expiring ν τ))) : ExpiringMap κ ν τ :=
  fun k => (Bindings.table ws k).join

omit [LinearOrder τ] in
theorem replay_snoc (ws : List (κ × Option (Expiring ν τ))) (w : κ × Option (Expiring ν τ)) :
    replay (ws ++ [w]) = (replay ws).write w := by
  funext k
  rw [replay, Bindings.table_snoc, write, Function.update_apply]
  split
  · rfl
  · rfl

omit [LinearOrder τ] in
theorem replay_eq_some : replay ws k = some e ↔ Bindings.Latest k (some e) ws := by
  rw [replay, Option.join_eq_some_iff, Bindings.table_eq_some]

theorem AgreeFrom.read_iff (h : AgreeFrom t m (replay ws)) (hle : t ≤ now) :
    m.read now k = some e ↔ Bindings.Latest k (some e) ws ∧ e.live now := by
  rw [h now hle, read_eq_some, replay_eq_some]

end ExpiringMap

end AgentRuntimeKit.Lib
