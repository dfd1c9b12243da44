import AgentRuntimeKit.Context.Refinement

/-!
# What the incremental selector retains

`_StreamingSelection` scans a history of any length, but holds on to few of its payloads. Costs go
on being counted past the budget; payloads stop being stored. What it holds is bounded by the
window, in the required and the optional part together, and in the open group besides.

The theorems are about any calls of `add`, in any order and with any messages, also malformed ones,
and any encoder. A call that raises has changed nothing (`called`), as nobody uses the selection
afterwards. A payload counts as its canonical bytes and one more; one that cannot be encoded is
never held (`canonicalCost`).

`Frugal` is the invariant: what is held costs no more than what is counted, and what is held in
`required` alone, with the optional groups if there are any, and in the open group, fits the budget.
`add` first appends and then trims, and in between only `Loose` holds, in which the optional groups
may be too many.

## Results

* `require_frugal`, `closeGroup_frugal`, `extendGroup_loose` — the three ways to retain a message.
* `add_frugal`       — one call of `add`.
* `retains_bounded`  — any sequence of calls.
-/

namespace AgentRuntimeKit

open Lib StreamingSelection

/-- The serialized bytes of a held message, plus one. What cannot be serialized is never held. -/
def canonicalCost (encode : Encoder) (entry : Nat × Message) : Nat :=
  match encode entry.2 with
  | .ok bytes => 1 + bytes.length
  | .error _ => 0

/-- The payloads in these entries. -/
def held (encode : Encoder) (entries : List (Nat × Message)) : Nat :=
  total (canonicalCost encode) entries

/-- The state after one call of `add`. A call that raises has changed nothing. -/
def StreamingSelection.called (encode : Encoder) (s : StreamingSelection)
    (call : Message × Bool) : StreamingSelection :=
  match s.add encode call.1 call.2 with
  | .ok s' => s'
  | .error _ => s

/-- The payloads are counted, and fit but for the optional ones. -/
structure Loose (encode : Encoder) (maxBytes : Nat) (s : StreamingSelection) : Prop where
  budget : s.budget = maxBytes
  counted : held encode s.required ≤ s.requiredCost
  required : held encode s.required + 1 ≤ s.budget
  priced : ∀ g ∈ s.optional, held encode g.entries ≤ g.cost
  optionalCost : s.optionalCost = total HistoryGroup.cost s.optional
  group : held encode s.group.entries ≤ s.group.cost
  groupFits : held encode s.group.entries + 1 ≤ s.budget

/-- The payloads are counted, and fit. -/
structure Frugal (encode : Encoder) (maxBytes : Nat) (s : StreamingSelection) : Prop
    extends Loose encode maxBytes s where
  optional : s.optional ≠ [] → s.requiredCost + s.optionalCost + 1 ≤ s.budget

-- ---------------------------------------------------------------------------
-- Costs
-- ---------------------------------------------------------------------------

section Costs

variable {encode : Encoder} {budget cost : Nat}

theorem le_of_fits (h : fits budget cost = true) : cost + 1 ≤ budget := by
  rw [fits, decide_eq_true_eq, bytesOf] at h
  split at h <;> omega

theorem held_append (xs ys : List (Nat × Message)) :
    held encode (xs ++ ys) = held encode xs + held encode ys :=
  total_append _ _ _

theorem held_singleton {index : Nat} {message : Message} {bytes : List UInt8}
    (h : encode message = .ok bytes) : held encode [(index, message)] = 1 + bytes.length := by
  have hcost : canonicalCost encode (index, message) = 1 + bytes.length := by
    rw [canonicalCost, h]
  simp [held, hcost]

/-- The optional payloads are counted. -/
theorem held_optional {groups : List HistoryGroup}
    (h : ∀ g ∈ groups, held encode g.entries ≤ g.cost) :
    held encode (groups.flatMap HistoryGroup.entries) ≤ total HistoryGroup.cost groups := by
  induction groups with
  | nil => exact Nat.le_refl 0
  | cons g rest ih =>
    have hg := h g List.mem_cons_self
    have hrest := ih fun g' hg' => h g' (List.mem_cons_of_mem g hg')
    rw [List.flatMap_cons, held_append, total_cons]
    omega

end Costs

-- ---------------------------------------------------------------------------
-- One call
-- ---------------------------------------------------------------------------

section Calls

variable {encode : Encoder} {maxBytes : Nat} {s s' : StreamingSelection}

theorem start_frugal (window : ContextWindow) :
    Frugal encode window.maxBytes (start window.maxBytes) := by
  have hvalid := window.valid
  have hone : 0 + 1 ≤ window.maxBytes := by omega
  exact ⟨⟨rfl, Nat.le_refl 0, hone, fun _ h => absurd h List.not_mem_nil, rfl, Nat.le_refl 0, hone⟩,
    fun h => absurd rfl h⟩

/-- `_trim` makes the optional payloads fit. -/
theorem Loose.trim (h : Loose encode maxBytes s) : Frugal encode maxBytes s.trim := by
  rw [trim_eq h.optionalCost]
  refine ⟨⟨h.budget, h.counted, h.required, fun g hg => ?_, rfl, h.group, h.groupFits⟩,
    fun hne => ?_⟩
  · exact h.priced g ((keepSuffix_suffix _ _ _ _).subset hg)
  · exact le_of_fits (keepSuffix_fits hne)

/-- What becomes mandatory is held only while all that is mandatory fits. -/
theorem Loose.require (h : Loose encode maxBytes s) {cost history : Nat}
    {entries : List (Nat × Message)}
    (hentries : held encode entries ≤ cost) :
    Frugal encode maxBytes (s.require cost history entries) := by
  have hcounted := h.counted
  unfold StreamingSelection.require
  dsimp only
  split
  · next hfits =>
    have hle := le_of_fits hfits
    refine Loose.trim ⟨h.budget, ?_, ?_, h.priced, h.optionalCost, h.group, h.groupFits⟩
    · show held encode (s.required ++ entries) ≤ s.requiredCost + cost
      rw [held_append]
      omega
    · show held encode (s.required ++ entries) + 1 ≤ s.budget
      rw [held_append]
      omega
  · refine Loose.trim ⟨h.budget, ?_, h.required, h.priced, h.optionalCost, h.group, h.groupFits⟩
    show held encode s.required ≤ s.requiredCost + cost
    omega

theorem Frugal.openGroup (h : Frugal encode maxBytes s) (mandatory : Bool) :
    Frugal encode maxBytes (s.openGroup mandatory) := by
  have hbudget := h.required
  have hempty : held encode HistoryGroup.empty.entries = 0 := rfl
  refine ⟨⟨h.budget, h.counted, h.required, h.priced, h.optionalCost, Nat.le_refl 0, ?_⟩,
    h.optional⟩
  show held encode HistoryGroup.empty.entries + 1 ≤ s.budget
  omega

/-- `_close_group` retains the group, drops it, or drops all the optional ones. -/
theorem Frugal.closeGroup (h : Frugal encode maxBytes s) : Frugal encode maxBytes s.closeGroup := by
  unfold StreamingSelection.closeGroup
  dsimp only
  split
  · exact h
  · have hopen := h.openGroup s.group.mandatory
    split
    · exact hopen.toLoose.require h.group
    · split
      · refine ⟨⟨h.budget, h.counted, h.required, fun g hg => ?_, rfl, hopen.group,
          hopen.groupFits⟩,
          fun hne => absurd rfl hne⟩
        exact absurd hg List.not_mem_nil
      · refine Loose.trim ⟨h.budget, h.counted, h.required, fun g hg => ?_, ?_, hopen.group,
          hopen.groupFits⟩
        · rcases List.mem_append.mp hg with hg | hg
          · exact h.priced g hg
          · rw [List.mem_singleton.mp hg]
            exact h.group
        · show s.optionalCost + s.group.cost = total HistoryGroup.cost (s.optional ++ [s.group])
          rw [total_append, h.optionalCost]
          rfl

theorem Frugal.counts (h : Frugal encode maxBytes s) (cost : Nat) (current : Bool) :
    Frugal encode maxBytes (s.counted cost current) :=
  ⟨⟨h.budget, h.counted, h.required, h.priced, h.optionalCost, h.group, h.groupFits⟩, h.optional⟩

/-- The open group holds its payloads while they fit. -/
theorem Frugal.extendGroup (h : Frugal encode maxBytes s) {cost : Nat} {message : Message}
    (index : Nat) (current : Bool) (hmessage : held encode [(index, message)] = cost) :
    Frugal encode maxBytes (s.extendGroup index cost message current) := by
  have hgroup := h.group
  have hbudget := h.required
  have hentries : held encode (s.extendGroup index cost message current).group.entries ≤
        s.group.cost + cost ∧
      held encode (s.extendGroup index cost message current).group.entries + 1 ≤ s.budget := by
    unfold StreamingSelection.extendGroup
    dsimp only
    split
    · next hfits =>
      have hle := le_of_fits hfits
      rw [held_append, hmessage]
      omega
    · have hnone : held encode [] = 0 := rfl
      omega
  exact ⟨⟨h.budget, h.counted, h.required, h.priced, h.optionalCost, hentries.1, hentries.2⟩,
    h.optional⟩

/-- `add` keeps what is held within the budget. -/
theorem Frugal.add (h : Frugal encode maxBytes s) {message : Message} {current : Bool}
    (hadd : s.add encode message current = .ok s') : Frugal encode maxBytes s' := by
  unfold StreamingSelection.add at hadd
  split at hadd
  · obtain rfl := Except.ok.inj hadd
    exact h
  · split at hadd
    · split at hadd
      · obtain rfl := Except.ok.inj hadd
        exact ⟨⟨h.budget, h.counted, h.required, h.priced, h.optionalCost, h.group, h.groupFits⟩,
          h.optional⟩
      · exact absurd hadd (by simp)
    · next bytes hbytes =>
      dsimp only at hadd
      have hclosed : Frugal encode maxBytes (if (message.role = .user ||
          (current && s.currentCount = 0)) = true ∧ s.pending = ∅ then s.closeGroup else s) := by
        split
        · exact h.closeGroup
        · exact h
      have hcounted := hclosed.counts (1 + bytes.length) current
      split at hadd
      · obtain rfl := Except.ok.inj hadd
        exact hcounted.toLoose.require (Nat.le_of_eq (held_singleton hbytes))
      · have hextended := hcounted.extendGroup (s.historyCount + s.currentCount) current
          (held_singleton hbytes)
        split at hadd
        all_goals
          obtain rfl := Except.ok.inj hadd
          exact ⟨⟨hextended.budget, hextended.counted, hextended.required, hextended.priced,
            hextended.optionalCost, hextended.group, hextended.groupFits⟩, hextended.optional⟩

theorem Frugal.called (h : Frugal encode maxBytes s) (call : Message × Bool) :
    Frugal encode maxBytes (s.called encode call) := by
  unfold StreamingSelection.called
  split
  · next hadd => exact h.add hadd
  · exact h

/-- The optional payloads are held only next to all that is mandatory. -/
theorem Frugal.bounded (h : Frugal encode maxBytes s) :
    held encode (s.required ++ s.optional.flatMap HistoryGroup.entries) ≤ s.budget - 1 := by
  have hrequired := h.required
  rw [held_append]
  by_cases hnone : s.optional = []
  · have hheld : held encode (s.optional.flatMap HistoryGroup.entries) = 0 := by
      rw [hnone]
      rfl
    omega
  · have hcounted := h.counted
    have hoptional := held_optional h.priced
    have hfits := h.optional hnone
    rw [h.optionalCost] at hfits
    omega

end Calls

-- ---------------------------------------------------------------------------
-- Any calls
-- ---------------------------------------------------------------------------

/-- `_StreamingSelection(max_bytes)` after these calls of `add`. -/
def ContextWindow.scanned (window : ContextWindow) (encode : Encoder)
    (calls : List (Message × Bool)) : StreamingSelection :=
  calls.foldl (called encode) (start window.maxBytes)

theorem scanned_frugal (window : ContextWindow) (encode : Encoder)
    (calls : List (Message × Bool)) :
    Frugal encode window.maxBytes (window.scanned encode calls) := by
  induction calls using List.reverseRecOn with
  | nil => exact start_frugal window
  | append_singleton calls call ih =>
    rw [ContextWindow.scanned, List.foldl_concat]
    exact ih.called call

/-- **The incremental selector retains a bounded payload**, after any calls of `add`: by induction
on the calls, each of which keeps `Frugal`. -/
theorem retains_bounded (window : ContextWindow) (encode : Encoder)
    (calls : List (Message × Bool)) :
    held encode ((window.scanned encode calls).required ++
        (window.scanned encode calls).optional.flatMap HistoryGroup.entries) ≤
      window.maxBytes - 1 ∧
    held encode (window.scanned encode calls).group.entries ≤ window.maxBytes - 1 := by
  have hfrugal := scanned_frugal window encode calls
  have hbounded := hfrugal.bounded
  have hgroup := hfrugal.groupFits
  rw [hfrugal.budget] at hbounded hgroup
  exact ⟨hbounded, by omega⟩

end AgentRuntimeKit
