import AgentRuntimeKit.Protocol.Soundness

/-!
# Along a run

Facts that one step hands on hold along every run, and the log remembers the run: each
commit in it happened in a reachable configuration, with that log and these tables.

## Results

* `Reachable.preserved` — an assertion that every step keeps.
* `Reachable.past`      — the configuration in which a logged transaction committed.
-/

namespace AgentRuntimeKit

open Lib

section History

variable {priv : Bool} {c c' : Cfg}

theorem Reachable.reaches (h : Reachable priv c) (hr : machine.Reaches (Legal priv) c c') :
    Reachable priv c' := by
  obtain ⟨clock, h⟩ := h
  exact ⟨clock, h.trans hr⟩

/-- An assertion that every step keeps holds along every run. -/
theorem Reachable.preserved {A : World → Prop}
    (hA : ∀ w w', Inv priv w → Inv priv w' → Evolution w w' → A w → A w') (h : Reachable priv c)
    (hr : machine.Reaches (Legal priv) c c') (ha : A c.world) : A c'.world := by
  induction hr with
  | refl => exact ha
  | step hr' hok hs ih =>
    have hmid := h.reaches hr'
    exact hA _ _ hmid.inv (hmid.step hok hs).inv (hmid.evolution hok hs) ih

-- ---------------------------------------------------------------------------
-- The tables
-- ---------------------------------------------------------------------------

/-- A step leaves a row alone, or a transaction that commits in it moves the row. -/
theorem Evolution.row {w w' : World} (h : Evolution w w') (hdb : DbOk w.db) {r : RunRow}
    (hr : r ∈ w.db.runs) : r ∈ w'.db.runs ∨
      ∃ q σ r', Commits w w' q σ ∧ r' ∈ w'.db.runs ∧ Moved w q σ r r' := by
  rcases h.tables with ⟨hsame, -⟩ | ⟨q, σ, hc⟩
  · exact Or.inl (hsame ▸ hr)
  · rw [hc.db]
    rcases hc.staged.forward hdb hr with hkept | ⟨r', hr', hmoved⟩
    · exact Or.inl hkept
    · exact Or.inr ⟨q, σ, r', hc, hr', hmoved⟩

/-- A terminal row stays. -/
theorem Evolution.terminal {w w' : World} (h : Evolution w w') (hdb : DbOk w.db) {r : RunRow}
    (hr : r ∈ w.db.runs) (hterminal : r.status.isActive = false) : r ∈ w'.db.runs := by
  rcases h.row hdb hr with hkept | ⟨q, σ, r', -, -, now, -, -, hmove⟩
  · exact hkept
  · rw [hmove.active] at hterminal
    exact Bool.noConfusion hterminal

-- ---------------------------------------------------------------------------
-- The log
-- ---------------------------------------------------------------------------

/-- A step adds a commit to the log, or events of other kinds. -/
theorem Evolution.log {w w' : World} (h : Evolution w w') {newer older : List Event} {σ : Session}
    {before : Db} (hlog : w'.log = newer ++ .commit σ before :: older) :
    (∃ newer', w.log = newer' ++ .commit σ before :: older) ∨
      (newer = [] ∧ w.log = older ∧ w.db = before ∧ ∃ q, Commits w w' q σ) := by
  rcases h.tables with ⟨-, new, hnew, hplain⟩ | ⟨q, σ', hc⟩
  · left
    rw [hnew] at hlog
    rcases List.append_eq_append_iff.mp hlog with ⟨rest, hnewer, hold⟩ | ⟨rest, hnew', hold⟩
    · exact ⟨rest, hold⟩
    · -- no commit among the new events
      cases rest with
      | nil => exact ⟨[], hold.symm⟩
      | cons e rest =>
        obtain ⟨rfl, -⟩ := List.cons.inj hold
        have hcommit := hplain (.commit σ before) (by rw [hnew']; exact List.mem_append_cons_self)
        exact Bool.noConfusion hcommit
  · rw [hc.log] at hlog
    cases newer with
    | nil =>
      obtain ⟨hhead, htail⟩ := List.cons.inj hlog
      obtain ⟨rfl, hdb⟩ := Event.commit.inj hhead
      exact Or.inr ⟨rfl, htail, hdb, q, hc⟩
    | cons e newer => exact Or.inl ⟨newer, (List.cons.inj hlog).2⟩

/-- Each commit in the log happened in a reachable configuration, with that log and these
tables. -/
theorem Reachable.past (h : Reachable priv c) {newer older : List Event} {σ : Session}
    {before : Db} (hlog : c.world.log = newer ++ .commit σ before :: older) :
    ∃ c₀, Reachable priv c₀ ∧ machine.Reaches (Legal priv) c₀ c ∧ c₀.world.log = older ∧
      c₀.world.db = before ∧ ∃ q, c₀.world.session q = some σ ∧ Staged c₀.world q σ := by
  obtain ⟨clock, hr⟩ := h
  induction hr generalizing newer with
  | refl => exact absurd hlog (by simp [Cfg.initial, World.initial])
  | @step c₁ c₂ mv hr hok hs ih =>
    have hbefore : Reachable priv c₁ := ⟨clock, hr⟩
    rcases (hbefore.evolution hok hs).log hlog with ⟨newer', hlog'⟩ | ⟨-, hold, hdb, q, hc⟩
    · obtain ⟨c₀, hc₀, hreach, hrest⟩ := ih hlog'
      exact ⟨c₀, hc₀, hreach.step hok hs, hrest⟩
    · exact ⟨c₁, hbefore, Machine.Reaches.refl.step hok hs, hold, hdb, q, hc.session, hc.staged⟩

end History

-- ---------------------------------------------------------------------------
-- Schedules
-- ---------------------------------------------------------------------------

/-- A move that starts no direct store call on runs. -/
def isRuntimeMove : Move Choice Env → Bool
  | .env (.start _ t) => t.isRuntime
  | _ => true

theorem legal_of_isRuntimeMove {priv : Bool} {mv : Move Choice Env} (h : isRuntimeMove mv = true)
    (c : Cfg) : Legal priv c mv := by
  intro e he _ p t hstart
  rw [he, hstart] at h
  exact h

/-- Where a schedule of invocations, streams and public calls ends is reachable. -/
theorem Reachable.of_schedule {priv : Bool} {clock : Time} {mvs : List (Move Choice Env)} {c : Cfg}
    (hmvs : mvs.all isRuntimeMove = true) (h : machine.run (Cfg.initial clock) mvs = some c) :
    Reachable priv c := by
  refine ⟨clock, Machine.Reaches.of_run (fun c mv hmv => ?_) h⟩
  exact legal_of_isRuntimeMove (List.all_eq_true.mp hmvs mv hmv) c

end AgentRuntimeKit
