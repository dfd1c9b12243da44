import AgentRuntimeKit.Context.Window

/-!
# Where selected messages come from

Both selectors only choose: every message that they select was given to them.

## Results

* `select_given`   — `ContextWindow.select`.
* `Given.addAll`, `Given.finish` — the incremental selector, call by call.
-/

namespace AgentRuntimeKit

open StreamingSelection

-- ---------------------------------------------------------------------------
-- The selector
-- ---------------------------------------------------------------------------

theorem Scan.select_given {s : Scan} {maxBytes n : Nat} {messages : List Message}
    {selection : ContextSelection} (h : s.select maxBytes n messages = .ok selection) :
    ∀ m ∈ selection.messages, m ∈ messages := by
  unfold Scan.select at h
  split at h
  · exact absurd h (by simp)
  · intro m hm
    -- the last group may be open or closed
    dsimp only at h
    split at h
    all_goals split at h
    all_goals first
      | (rw [← Except.ok.inj h] at hm
         obtain ⟨i, -, hi⟩ := List.mem_filterMap.mp hm
         exact List.mem_of_getElem? hi)
      | exact absurd h (by simp)

theorem select_given {window : ContextWindow} {encode : Encoder} {history current : List Message}
    {selection : ContextSelection} (h : window.select encode history current = .ok selection) :
    ∀ m ∈ selection.messages, m ∈ history ++ current := by
  unfold ContextWindow.select at h
  dsimp only at h
  split at h
  · exact absurd h (by simp)
  · exact Scan.select_given h

-- ---------------------------------------------------------------------------
-- The incremental selector
-- ---------------------------------------------------------------------------

/-- Every message that the selection holds satisfies `S`. -/
structure Given (S : Message → Prop) (s : StreamingSelection) : Prop where
  group : ∀ e ∈ s.group.entries, S e.2
  optional : ∀ g ∈ s.optional, ∀ e ∈ g.entries, S e.2
  required : ∀ e ∈ s.required, S e.2

namespace Given

variable {S : Message → Prop} {s : StreamingSelection} {encode : Encoder}

theorem start (budget : Nat) : Given S (.start budget) :=
  ⟨fun _ h => absurd h List.not_mem_nil, fun _ h => absurd h List.not_mem_nil,
    fun _ h => absurd h List.not_mem_nil⟩

theorem trimLoop_subset (budget base : Nat) (gs : List HistoryGroup) (cost : Nat) :
    (trimLoop budget base gs cost).1 ⊆ gs := by
  induction gs generalizing cost with
  | nil => exact List.Subset.refl _
  | cons g gs ih =>
    unfold trimLoop
    split
    · exact List.Subset.refl _
    · exact List.subset_cons_of_subset _ (ih _)

theorem trim (h : Given S s) : Given S s.trim :=
  ⟨h.group, fun g hg => h.optional g (trimLoop_subset _ _ _ _ hg), h.required⟩

theorem require (h : Given S s) {cost history : Nat} {entries : List (Nat × Message)}
    (hentries : ∀ e ∈ entries, S e.2) : Given S (s.require cost history entries) := by
  unfold StreamingSelection.require
  dsimp only
  split
  · refine trim ⟨h.group, h.optional, fun e he => ?_⟩
    rcases List.mem_append.mp he with he | he
    · exact h.required e he
    · exact hentries e he
  · exact trim ⟨h.group, h.optional, h.required⟩

theorem closeGroup (h : Given S s) : Given S s.closeGroup := by
  have hopen : Given S (s.openGroup s.group.mandatory) :=
    ⟨fun _ he => absurd he List.not_mem_nil, h.optional, h.required⟩
  unfold StreamingSelection.closeGroup
  dsimp only
  split
  · exact h
  · split
    · exact hopen.require h.group
    · split
      · exact ⟨hopen.group, fun _ hg => absurd hg List.not_mem_nil, hopen.required⟩
      · refine trim ⟨hopen.group, fun g hg => ?_, hopen.required⟩
        rcases List.mem_append.mp hg with hg | hg
        · exact h.optional g hg
        · rw [List.mem_singleton.mp hg]
          exact h.group

/-- The open group may be closed first. -/
theorem closeIf (h : Given S s) (c : Prop) [Decidable c] :
    Given S (if c then s.closeGroup else s) := by
  split
  · exact h.closeGroup
  · exact h

theorem counted (h : Given S s) (cost : Nat) (current : Bool) : Given S (s.counted cost current) :=
  ⟨h.group, h.optional, h.required⟩

theorem extendGroup (h : Given S s) (index cost : Nat) {m : Message} (current : Bool) (hm : S m) :
    Given S (s.extendGroup index cost m current) := by
  refine ⟨fun e he => ?_, h.optional, h.required⟩
  unfold StreamingSelection.extendGroup at he
  dsimp only at he
  split at he
  · rcases List.mem_append.mp he with he | he
    · exact h.group e he
    · rw [List.mem_singleton.mp he]
      exact hm
  · exact absurd he List.not_mem_nil

theorem add (h : Given S s) {m : Message} {current : Bool} (hm : S m) {s' : StreamingSelection}
    (hadd : s.add encode m current = .ok s') : Given S s' := by
  unfold StreamingSelection.add at hadd
  split at hadd
  · rw [← Except.ok.inj hadd]
    exact h
  · split at hadd
    · split at hadd
      · rw [← Except.ok.inj hadd]
        exact ⟨h.group, h.optional, h.required⟩
      · exact absurd hadd (by simp)
    · next bytes _ =>
      dsimp only at hadd
      have hcounted := (h.closeIf
        ((m.role = .user || (current && s.currentCount = 0)) = true ∧ s.pending = ∅)).counted
        (1 + bytes.length) current
      split at hadd
      · rw [← Except.ok.inj hadd]
        refine hcounted.require fun e he => ?_
        rw [List.mem_singleton.mp he]
        exact hm
      · have hnext := hcounted.extendGroup (s.historyCount + s.currentCount)
          (1 + bytes.length) current hm
        split at hadd
        · rw [← Except.ok.inj hadd]
          exact ⟨hnext.group, hnext.optional, hnext.required⟩
        · rw [← Except.ok.inj hadd]
          exact ⟨hnext.group, hnext.optional, hnext.required⟩

theorem addAll (h : Given S s) {messages : List Message} {current : Bool}
    (hmessages : ∀ m ∈ messages, S m) {s' : StreamingSelection}
    (hadd : s.addAll encode current messages = .ok s') : Given S s' := by
  induction messages generalizing s with
  | nil =>
    rw [← Except.ok.inj hadd]
    exact h
  | cons m rest ih =>
    unfold StreamingSelection.addAll at hadd
    split at hadd
    · next s₁ hs₁ =>
      have hnext := h.add (hmessages m List.mem_cons_self) hs₁
      exact ih hnext (fun x hx => hmessages x (List.mem_cons_of_mem _ hx)) hadd
    · exact absurd hadd (by simp)

theorem finish (h : Given S s) {selection : ContextSelection} (hs : s.finish = .ok selection) :
    ∀ m ∈ selection.messages, S m := by
  unfold StreamingSelection.finish at hs
  split at hs
  · exact absurd hs (by simp)
  · split at hs
    · exact absurd hs (by simp)
    · dsimp only at hs
      split at hs
      · exact absurd hs (by simp)
      · rw [← Except.ok.inj hs]
        intro m hm
        obtain ⟨e, he, rfl⟩ := List.mem_map.mp hm
        have hclosed := h.closeGroup
        rcases List.mem_append.mp ((List.mergeSort_perm _ _).mem_iff.mp he) with he | he
        · exact hclosed.required e he
        · obtain ⟨g, hg, he⟩ := List.mem_flatMap.mp he
          exact hclosed.optional g hg e he

end Given

end AgentRuntimeKit
