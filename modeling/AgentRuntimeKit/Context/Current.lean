import AgentRuntimeKit.Context.Refinement

/-!
# The current messages

A selection gives up messages of the history only. The materialized selector starts from the
current messages. The incremental one puts them into mandatory groups, and a mandatory group is
kept unless the whole selection fails.

## Results

* `select_current` — `ContextWindow.select`.
* `Keeping.finish`    — the incremental selector, with `Keeping.add` and `Keeping.addAll`.
-/

namespace AgentRuntimeKit

open StreamingSelection

-- ---------------------------------------------------------------------------
-- The materialized selector
-- ---------------------------------------------------------------------------

theorem fill_selected (maxBytes : Nat) (sizes : List Nat) (groups : List (List Nat))
    (mandatory : Finset Nat) (k : Nat) : ∀ f : Fill,
      f.selected ⊆ (fill maxBytes sizes groups mandatory k f).selected := by
  induction k with
  | zero => exact fun _ => Finset.Subset.refl _
  | succ k ih =>
    intro f
    unfold fill
    split
    · exact ih f
    · have hgrow : f.selected ⊆ update f.selected (groups.getD k []) := Finset.subset_union_left
      -- the first selected group costs no separator
      dsimp only
      split
      all_goals split
      all_goals first
        | exact Finset.Subset.refl _
        | exact Finset.Subset.trans hgrow (ih ⟨_, _, _⟩)

theorem select_current {window : ContextWindow} {encode : Encoder} {history current : List Message}
    {selection : ContextSelection} (h : window.select encode history current = .ok selection) :
    ∀ m ∈ current, m ∈ selection.messages := by
  unfold ContextWindow.select at h
  dsimp only at h
  split at h
  · exact absurd h (by simp)
  · next s _ =>
    unfold Scan.select at h
    split at h
    · exact absurd h (by simp)
    · intro m hm
      obtain ⟨k, hk, hget⟩ := List.mem_iff_getElem.mp hm
      have hindex : (history ++ current)[history.length + k]? = some m := by
        rw [List.getElem?_append_right (by omega), Nat.add_sub_cancel_left,
          List.getElem?_eq_getElem hk, hget]
      have hrequired : history.length + k ∈
          s.protected_ ∪ Finset.Ico history.length (history ++ current).length := by
        refine Finset.mem_union_right _ (Finset.mem_Ico.mpr ⟨by omega, ?_⟩)
        rw [List.length_append]
        omega
      -- the last group may be open or closed
      dsimp only at h
      split at h
      all_goals split at h
      all_goals first
        | (rw [← Except.ok.inj h]
           refine List.mem_filterMap.mpr ⟨history.length + k, ?_, hindex⟩
           refine (Finset.mem_sort _).mpr (fill_selected _ _ _ _ _ _ ?_)
           exact Finset.mem_union_right _ hrequired)
        | exact absurd h (by simp)

-- ---------------------------------------------------------------------------
-- The incremental selector
-- ---------------------------------------------------------------------------

/-- The selection holds `m`, or it fails. -/
def Keeping (m : Message) (s : StreamingSelection) : Prop :=
  (∃ e ∈ s.required, e.2 = m) ∨
    (s.group.mandatory = true ∧ 0 < s.group.count ∧
      ((∃ e ∈ s.group.entries, e.2 = m) ∨ fits s.budget s.group.cost = false)) ∨
    s.requiredOverflow = true ∨ s.failure.isSome = true

namespace Keeping

variable {m : Message} {s s' : StreamingSelection} {encode : Encoder}

/-- What a mandatory message or group is worth. -/
theorem require_entries {cost history : Nat} {entries : List (Nat × Message)}
    (h : (∃ e ∈ entries, e.2 = m) ∨ fits s.budget cost = false) :
    Keeping m (s.require cost history entries) := by
  unfold StreamingSelection.require
  dsimp only
  split
  · next hfits =>
    rcases h with ⟨e, he, hm⟩ | hcost
    · exact Or.inl ⟨e, List.mem_append_right _ he, hm⟩
    · rw [fits_mono (Nat.le_add_left _ _) hfits] at hcost
      exact absurd hcost (by simp)
  · exact Or.inr (Or.inr (Or.inl rfl))

theorem require (h : Keeping m s) (cost history : Nat) (entries : List (Nat × Message)) :
    Keeping m (s.require cost history entries) := by
  unfold StreamingSelection.require
  dsimp only
  split
  · rcases h with ⟨e, he, hm⟩ | hrest
    · exact Or.inl ⟨e, List.mem_append_left _ he, hm⟩
    · exact Or.inr hrest
  · exact Or.inr (Or.inr (Or.inl rfl))

/-- A message of the last group moves to the required ones. -/
theorem closeGroup (h : Keeping m s) : Keeping m s.closeGroup := by
  unfold StreamingSelection.closeGroup
  dsimp only
  split
  · exact h
  · split
    · rcases h with hrequired | ⟨-, -, hgroup⟩ | hfails
      · exact require (s := s.openGroup s.group.mandatory) (Or.inl hrequired) _ _ _
      · exact require_entries hgroup
      · exact require (s := s.openGroup s.group.mandatory) (Or.inr (Or.inr hfails)) _ _ _
    · next hmandatory =>
      have hrest : (∃ e ∈ s.required, e.2 = m) ∨ s.requiredOverflow = true ∨
          s.failure.isSome = true := by
        rcases h with hrequired | ⟨hm, -⟩ | hfails
        · exact Or.inl hrequired
        · exact absurd hm hmandatory
        · exact Or.inr hfails
      split
      · exact hrest.imp id Or.inr
      · exact hrest.imp id Or.inr

theorem closeIf (h : Keeping m s) (c : Prop) [Decidable c] :
    Keeping m (if c then s.closeGroup else s) := by
  split
  · exact h.closeGroup
  · exact h

theorem extendGroup (h : Keeping m s) (index cost : Nat) (message : Message) (current : Bool) :
    Keeping m (s.extendGroup index cost message current) := by
  rcases h with hrequired | ⟨hmandatory, -, hgroup⟩ | hfails
  · exact Or.inl hrequired
  · refine Or.inr (Or.inl ⟨?_, Nat.succ_pos _, ?_⟩)
    · show (s.group.mandatory || current) = true
      rw [hmandatory]
      rfl
    · show (∃ e ∈ (if fits s.budget (s.group.cost + cost) then s.group.entries ++ [(index, message)]
        else []), e.2 = m) ∨ fits s.budget (s.group.cost + cost) = false
      cases hfits : fits s.budget (s.group.cost + cost) with
      | false => exact Or.inr rfl
      | true =>
        rcases hgroup with ⟨e, he, hm⟩ | hcost
        · exact Or.inl ⟨e, List.mem_append_left _ he, hm⟩
        · rw [fits_mono (Nat.le_add_right _ _) hfits] at hcost
          exact absurd hcost (by simp)
  · exact Or.inr (Or.inr hfails)

/-- A current message opens or extends a mandatory group. -/
theorem extendGroup_current (index cost : Nat) :
    Keeping m (s.extendGroup index cost m true) := by
  refine Or.inr (Or.inl ⟨Bool.or_true _, Nat.succ_pos _, ?_⟩)
  show (∃ e ∈ (if fits s.budget (s.group.cost + cost) then s.group.entries ++ [(index, m)]
    else []), e.2 = m) ∨ fits s.budget (s.group.cost + cost) = false
  cases hfits : fits s.budget (s.group.cost + cost) with
  | false => exact Or.inr rfl
  | true => exact Or.inl ⟨(index, m), List.mem_append_right _ List.mem_cons_self, rfl⟩


theorem fail (s : StreamingSelection) (e : Exn) : Keeping m { s with failure := some e } :=
  Or.inr (Or.inr (Or.inr rfl))

/-- `add` gives up nothing, and holds a current message. -/
theorem step {message : Message} {current : Bool} (hadd : s.add encode message current = .ok s')
    (h : Keeping m s ∨ current = true ∧ message = m) : Keeping m s' := by
  unfold StreamingSelection.add at hadd
  split at hadd
  · next hfailure =>
    rw [← Except.ok.inj hadd]
    exact Or.inr (Or.inr (Or.inr hfailure))
  · split at hadd
    · split at hadd
      · rw [← Except.ok.inj hadd]
        exact fail s _
      · exact absurd hadd (by simp)
    · next bytes _ =>
      dsimp only at hadd
      -- the open group may be closed, and the message is counted
      obtain ⟨t, ht⟩ :
        ∃ t, t = ((if (message.role = .user || (current && s.currentCount = 0)) = true ∧
          s.pending = ∅ then s.closeGroup else s).counted (1 + bytes.length) current) := ⟨_, rfl⟩
      have hheld : Keeping m s → Keeping m t := by
        intro h
        rw [ht]
        exact h.closeIf _
      rw [← ht] at hadd
      split at hadd
      · rw [← Except.ok.inj hadd]
        rcases h with h | ⟨-, rfl⟩
        · exact (hheld h).require _ _ _
        · exact require_entries (Or.inl ⟨_, List.mem_cons_self, rfl⟩)
      · have hnext : Keeping m (t.extendGroup (s.historyCount + s.currentCount) (1 + bytes.length)
            message current) := by
          rcases h with h | ⟨rfl, rfl⟩
          · exact (hheld h).extendGroup _ _ _ _
          · exact extendGroup_current _ _
        split at hadd
        · rw [← Except.ok.inj hadd]
          exact hnext
        · rw [← Except.ok.inj hadd]
          exact fail _ _

theorem addAll {messages : List Message} {current : Bool} (h : Keeping m s)
    (hadd : s.addAll encode current messages = .ok s') : Keeping m s' := by
  induction messages generalizing s with
  | nil =>
    rw [← Except.ok.inj hadd]
    exact h
  | cons message rest ih =>
    unfold StreamingSelection.addAll at hadd
    split at hadd
    · next hstep => exact ih (step hstep (Or.inl h)) hadd
    · exact absurd hadd (by simp)

theorem current {messages : List Message} (hm : m ∈ messages)
    (hadd : s.addAll encode true messages = .ok s') : Keeping m s' := by
  induction messages generalizing s with
  | nil => exact absurd hm List.not_mem_nil
  | cons message rest ih =>
    unfold StreamingSelection.addAll at hadd
    split at hadd
    · next hstep =>
      rcases List.mem_cons.mp hm with rfl | hrest
      · exact addAll (step hstep (Or.inr ⟨rfl, rfl⟩)) hadd
      · exact ih hrest hadd
    · exact absurd hadd (by simp)

/-- Closing the last group leaves an empty one, and does not fail. -/
theorem closeGroup_left (s : StreamingSelection) :
    s.closeGroup.group.count = 0 ∧ s.closeGroup.failure = s.failure := by
  have hrequire : ∀ (t : StreamingSelection) (cost history : Nat) (entries : List (Nat × Message)),
      (t.require cost history entries).group = t.group ∧
        (t.require cost history entries).failure = t.failure := by
    intro t cost history entries
    unfold StreamingSelection.require
    dsimp only
    split
    · exact ⟨rfl, rfl⟩
    · exact ⟨rfl, rfl⟩
  unfold StreamingSelection.closeGroup
  dsimp only
  split
  · next hcount => exact ⟨hcount, rfl⟩
  · split
    · rw [(hrequire _ _ _ _).1, (hrequire _ _ _ _).2]
      exact ⟨rfl, rfl⟩
    · split
      · exact ⟨rfl, rfl⟩
      · exact ⟨rfl, rfl⟩

/-- A selection that succeeds selects every message that it holds. -/
theorem finish (h : Keeping m s) {selection : ContextSelection} (hs : s.finish = .ok selection) :
    m ∈ selection.messages := by
  unfold StreamingSelection.finish at hs
  split at hs
  · exact absurd hs (by simp)
  · next hfailure =>
    split at hs
    · exact absurd hs (by simp)
    · dsimp only at hs
      split at hs
      · exact absurd hs (by simp)
      · next hoverflow =>
        rw [← Except.ok.inj hs]
        rcases h.closeGroup with ⟨e, he, hm⟩ | ⟨-, hcount, -⟩ | hfails | hfails
        · refine List.mem_map.mpr ⟨e, ?_, hm⟩
          unfold sortEntries
          exact List.mem_mergeSort.mpr (List.mem_append_left _ he)
        · rw [(closeGroup_left s).1] at hcount
          exact absurd hcount (Nat.lt_irrefl 0)
        · exact absurd hfails hoverflow
        · rw [(closeGroup_left s).2, hfailure] at hfails
          exact absurd hfails (by simp)

end Keeping

end AgentRuntimeKit
