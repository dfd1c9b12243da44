import AgentRuntimeKit.Adapters.NativeHistory
import AgentRuntimeKit.Context.Refinement
import AgentRuntimeKit.Context.Selection
import AgentRuntimeKit.Machine.World

/-!
# Balanced outputs and selections

The native loop answers every call that it records, in the round of the call, so what it puts out
is well formed by itself. A selection succeeds only on well-formed messages, and on well-formed
messages it fails only for an encoding or the budget.

## Results

* `NativeOutput.wellFormed`, `NativeSource.wellFormed` — what a native agent puts out.
* `select_wellFormed`, `passed_wellFormed`             — what a selection accepts.
* `select_fails`, `selectStream_fails`                 — why a selection of well-formed messages
  fails.
-/

namespace AgentRuntimeKit

open Lib

-- ---------------------------------------------------------------------------
-- Rounds
-- ---------------------------------------------------------------------------

section Rounds

/-- Calls under different ids, and then their results in the same order. -/
theorem wellFormed_round {ids : List PyStr} (h : ids.Nodup) :
    Exchange.WellFormed (ids.map Exchange.Event.opens ++ ids.map Exchange.Event.closes) := by
  have hopen : ∀ (xs : List PyStr) (pending : Finset PyStr), xs.Nodup → (∀ a ∈ xs, a ∉ pending) →
      Exchange.scan pending (xs.map .opens) = some (pending ∪ xs.toFinset) := by
    intro xs
    induction xs with
    | nil =>
      intro pending _ _
      rw [List.toFinset_nil, Finset.union_empty]
      rfl
    | cons a xs ih =>
      intro pending hnodup hfresh
      obtain ⟨ha, hxs⟩ := List.nodup_cons.mp hnodup
      have hstep : Exchange.step pending (.opens a) = some (insert a pending) :=
        if_neg (hfresh a List.mem_cons_self)
      have hrest : ∀ b ∈ xs, b ∉ insert a pending := by
        intro b hb hmem
        rcases Finset.mem_insert.mp hmem with rfl | hmem
        · exact ha hb
        · exact hfresh b (List.mem_cons_of_mem a hb) hmem
      show Exchange.step pending (.opens a) >>= (fun s => Exchange.scan s (xs.map .opens)) = _
      rw [hstep]
      refine (ih _ hxs hrest).trans ?_
      rw [List.toFinset_cons, Finset.insert_union, Finset.union_insert]
  have hclose : ∀ xs : List PyStr, xs.Nodup →
      Exchange.scan xs.toFinset (xs.map .closes) = some ∅ := by
    intro xs
    induction xs with
    | nil => exact fun _ => rfl
    | cons a xs ih =>
      intro hnodup
      obtain ⟨ha, hxs⟩ := List.nodup_cons.mp hnodup
      have hstep : Exchange.step (a :: xs).toFinset (.closes a) = some xs.toFinset := by
        rw [List.toFinset_cons, Exchange.step, if_pos (Finset.mem_insert_self _ _),
          Finset.erase_insert (fun hmem => ha (List.mem_toFinset.mp hmem))]
      show Exchange.step _ (.closes a) >>= (fun s => Exchange.scan s (xs.map .closes)) = _
      rw [hstep]
      exact ih hxs
  rw [Exchange.wellFormed_iff, Exchange.scan_append,
    hopen ids ∅ h (fun a _ => Finset.notMem_empty a), Finset.empty_union]
  exact hclose ids h

/-- What an assistant message opens. -/
theorem toolEvents_assistant {m : Message} (h : m.role = .assistant) :
    toolEvents [m] = (m.toolCalls.map ToolCall.id).map .opens := by
  have hvalid := m.validContent
  rw [validToolContent, h] at hvalid
  simp only [reduceCtorEq, if_false, Bool.and_eq_true, Bool.not_eq_true', List.any_eq_false]
    at hvalid
  have hparts : ∀ parts : List ContentPart, (∀ part ∈ parts, ¬part.isToolResult = true) →
      parts.filterMap ContentPart.exchange =
        ((parts.filterMap ContentPart.toolCall?).map ToolCall.id).map .opens := by
    intro parts
    induction parts with
    | nil => exact fun _ => rfl
    | cons part parts ih =>
      intro hnone
      have hrest := ih fun part' hpart' => hnone part' (List.mem_cons_of_mem part hpart')
      cases part with
      | text part => exact hrest
      | toolCall call => exact congrArg (Exchange.Event.opens call.id :: ·) hrest
      | toolResult part => exact absurd rfl (hnone _ List.mem_cons_self)
  show m.content.filterMap ContentPart.exchange ++ [] = _
  rw [List.append_nil]
  exact hparts m.content hvalid.1

/-- What the answers of some calls close. -/
theorem ToolAnswers.toolEvents {calls : List ToolCall} {results : List ToolResult}
    {ms : List Message} (h : ToolAnswers calls results ms) :
    AgentRuntimeKit.toolEvents ms = (calls.map ToolCall.id).map .closes := by
  induction h with
  | nil => rfl
  | @cons call result m cs results ms hanswer _ ih =>
    obtain ⟨-, part, hcontent, hid, -⟩ := hanswer
    have hone : AgentRuntimeKit.toolEvents [m] = [.closes call.id] := by
      show m.content.filterMap ContentPart.exchange ++ [] = _
      rw [hcontent, ← hid]
      rfl
    show AgentRuntimeKit.toolEvents ([m] ++ ms) = _
    rw [toolEvents_append, hone, ih]
    rfl

/-- One result of the model and the answers to its calls. -/
theorem wellFormed_answered (r : ModelResult) {outputs : List ToolResult} {answers : List Message}
    (h : ToolAnswers r.message.toolCalls outputs answers) : WellFormed (r.message :: answers) := by
  have hids : (r.message.toolCalls.map ToolCall.id).Nodup := by
    have hsame : r.message.toolCalls.map ToolCall.id = r.toolCalls.map ToolCall.id := by
      refine List.forall₂_eq_eq_eq ▸ ?_
      rw [List.forall₂_map_left_iff, List.forall₂_map_right_iff]
      refine r.dispatches.imp fun recorded executed hmatch => ?_
      rw [ToolCall.matches, Bool.and_eq_true, Bool.and_eq_true] at hmatch
      exact of_decide_eq_true hmatch.1.1
    rw [hsame]
    exact r.nodup_ids
  show Exchange.WellFormed (toolEvents ([r.message] ++ answers))
  rw [toolEvents_append, toolEvents_assistant r.assistant, h.toolEvents]
  exact wellFormed_round hids

/-- What a successful run of the loop records is well formed. -/
theorem Recorded.wellFormed {σ : Type} {tools : ToolRegistry σ} {context : RuntimeContext}
    {registry : σ} {results : List ModelResult} {executed : List ToolCall}
    {messages : List Message} {toolResults : List ToolResult}
    (h : Recorded tools context registry results executed messages toolResults) :
    WellFormed messages := by
  induction h with
  | @last registry r hcalls =>
    have hround : ToolAnswers r.message.toolCalls [] [] := by
      rw [hcalls]
      exact .nil
    exact wellFormed_answered r hround
  | @round registry next r outputs answers results executed messages toolResults _ _ hanswers
      _ ih =>
    show Exchange.WellFormed (toolEvents ((r.message :: answers) ++ messages))
    rw [toolEvents_append]
    exact Exchange.WellFormed.append (wellFormed_answered r hanswers) ih

end Rounds

-- ---------------------------------------------------------------------------
-- Native agents
-- ---------------------------------------------------------------------------

/-- A native agent, given these messages, returns this output. -/
def NativeOutput (messages : List Message) (output : InvocationOutput) : Prop :=
  ∃ (σ : Type) (inv : NativeAgentInvoker σ) (registry : σ) (request : InvocationInput),
    request.messages = messages ∧ (inv.invoke registry request).ending = .ok output

/-- A native agent, given these messages, streams from this source. -/
def NativeSource (messages : List Message) (source : Source) : Prop :=
  ∃ (σ : Type) (inv : NativeAgentInvoker σ) (registry : σ) (request : InvocationInput),
    request.messages = messages ∧ source.events = events (inv.stream registry request).yields ∧
      (source.ending = none → (inv.stream registry request).ending = .ok ())

section Native

variable {messages : List Message}

theorem NativeOutput.wellFormed {output : InvocationOutput} (h : NativeOutput messages output) :
    WellFormed output.messages := by
  obtain ⟨σ, inv, registry, request, -, hending⟩ := h
  have hmodel (input : ModelInput) : calls (inv.callModel input).yields = [.modelCall input] := by
    rw [NativeAgentInvoker.callModel_yields]
    rfl
  rw [NativeAgentInvoker.invoke, NativeAgentInvoker.invokeLoop_eq] at hending
  obtain ⟨outcome, hrun, hends⟩ := inv.run_of_loopWith request.context hmodel
    (fun _ => rfl : ∀ output, calls (pure output : Gen Exn LoopItem InvocationOutput).yields = [])
    inv.maxToolIterations (.start request registry)
  cases outcome with
  | error e =>
    have herror := hends.raised e rfl
    rw [hending] at herror
    cases herror
  | ok output' =>
    have hsame := (hends.finished output' rfl).2
    rw [hending] at hsame
    cases hsame
    obtain ⟨recorded, toolResults, hrecorded, hmessages, -⟩ := hrun.recorded rfl
    rw [show output.messages = recorded from hmessages]
    exact hrecorded.wellFormed

/-- The last event of a source that ends is the output of a run. -/
theorem NativeSource.wellFormed {source : Source} (h : NativeSource messages source)
    (hending : source.ending = none) {before : List AgentStreamEvent} {output : InvocationOutput}
    (hevents : source.events = before ++ [.completed output]) : WellFormed output.messages := by
  obtain ⟨σ, inv, registry, request, -, hsource, hends⟩ := h
  have hok := hends hending
  rw [hevents] at hsource
  rw [NativeAgentInvoker.stream, NativeAgentInvoker.streamLoop_eq] at hok hsource
  obtain ⟨outcome, hrun, hfinish⟩ := inv.run_of_loopWith request.context inv.calls_streamModel
    (fun _ => rfl : ∀ output, calls (Gen.yield (.event (.completed output))).yields = [])
    inv.maxToolIterations (.start request registry)
  cases outcome with
  | error e =>
    have herror := hfinish.raised e rfl
    rw [hok] at herror
    cases herror
  | ok output' =>
    obtain ⟨⟨earlier, hearlier⟩, -⟩ := hfinish.finished output' rfl
    have hlast : before ++ [.completed output] = events earlier ++ [.completed output'] := by
      rw [hsource, ← hearlier, events_append]
      rfl
    have hsame := (List.append_inj' hlast rfl).2
    cases hsame
    obtain ⟨recorded, toolResults, hrecorded, hmessages, -⟩ := hrun.recorded rfl
    rw [show output.messages = recorded from hmessages]
    exact hrecorded.wellFormed

end Native

-- ---------------------------------------------------------------------------
-- The selector
-- ---------------------------------------------------------------------------

section Selector

variable {window : ContextWindow} {encode : Encoder} {history current messages : List Message}

/-- A selection that succeeds has met no exchange out of place. -/
theorem select_wellFormed {sel : ContextSelection}
    (h : window.select encode history current = .ok sel) : WellFormed (history ++ current) := by
  rw [ContextWindow.select] at h
  cases hloop : Scan.start.loop encode history.length 0 (history ++ current) with
  | error e =>
    simp only [hloop] at h
    cases h
  | ok s =>
    simp only [hloop] at h
    obtain ⟨-, hgrouped, -⟩ := loop_of_select hloop
    refine (pending_eq_empty hgrouped).mp ?_
    by_contra hpending
    rw [Scan.select, if_pos hpending] at h
    cases h

/-- A pass over well-formed messages stops only at an encoding. -/
theorem loop_raises {n : Nat} {pending : Finset PyStr} {e : Exn} :
    ∀ {rest : List Message} {i : Nat} {s : Scan}, s.Grouped n messages i →
      messages.drop i = rest → Exchange.scan ∅ (toolEvents messages) = some pending →
        s.loop encode n i rest = .error e → ∃ m ∈ rest, encode m = .error e
  | [], _, _, _, _, _, h => by cases h
  | m :: rest, i, s, hgrouped, hdrop, hscan, h => by
    have hm : messages[i]? = some m := by
      rw [← List.head?_drop, hdrop]
      rfl
    have hrest : messages.drop (i + 1) = rest := by
      rw [← List.tail_drop, hdrop]
      rfl
    obtain ⟨next, hnext⟩ :
        ∃ next, Exchange.scan ∅ (toolEvents (messages.take (i + 1))) = some next := by
      have hsplit := hscan
      rw [← List.take_append_drop (i + 1) messages, toolEvents_append, Exchange.scan_append]
        at hsplit
      obtain ⟨next, hnext, -⟩ := Option.bind_eq_some_iff.mp hsplit
      exact ⟨next, hnext⟩
    rw [Scan.loop] at h
    cases hencode : encode m with
    | error e' =>
      have hstep : s.step encode n i m = .error e' := by rw [Scan.step, hencode]
      rw [hstep] at h
      have he : e' = e := Except.error.inj h
      exact ⟨m, List.mem_cons_self, he ▸ hencode⟩
    | ok bytes =>
      obtain ⟨s', hstep⟩ := step_succeeds hgrouped hm ⟨bytes, hencode⟩ hnext
      rw [hstep] at h
      obtain ⟨-, hgrouped', -⟩ := step_grouped hgrouped hm hstep
      obtain ⟨m', hm', he⟩ := loop_raises hgrouped' hrest hscan h
      exact ⟨m', List.mem_cons_of_mem m hm', he⟩

/-- Well-formed messages are refused only for an encoding or the budget. -/
theorem select_fails {e : Exn} (hwell : WellFormed (history ++ current))
    (h : window.select encode history current = .error e) :
    e = budgetExceeded ∨ ∃ m ∈ history ++ current, encode m = .error e := by
  have hscan := (Exchange.wellFormed_iff _).mp hwell
  rw [ContextWindow.select] at h
  cases hloop : Scan.start.loop encode history.length 0 (history ++ current) with
  | error e' =>
    simp only [hloop] at h
    obtain ⟨m, hm, he⟩ := loop_raises (Scan.Grouped.start history.length (history ++ current))
      List.drop_zero hscan hloop
    have hsame : e' = e := Except.error.inj h
    exact Or.inr ⟨m, hm, hsame ▸ he⟩
  | ok s =>
    simp only [hloop] at h
    obtain ⟨-, hgrouped, hsizes⟩ := loop_of_select hloop
    rcases select_eq hgrouped hsizes ((pending_eq_empty hgrouped).mpr hwell) window.maxBytes with
      hover | ⟨-, kept, -, hok⟩
    · rw [hover.2] at h
      exact Or.inl (Except.error.inj h).symm
    · rw [hok] at h
      cases h

end Selector

-- ---------------------------------------------------------------------------
-- The incremental selector
-- ---------------------------------------------------------------------------

namespace StreamingSelection

/-- How a selection passes over messages: to the exchanges that they leave open, or to a failure
of an encoding or of the exchanges. -/
inductive Passed (encode : Encoder) (s : StreamingSelection) (messages : List Message)
    (s' : StreamingSelection) : Prop
  | through (hfailure : s'.failure = none)
      (hscan : Exchange.scan s.pending (toolEvents messages) = some s'.pending)
  | encoding {m : Message} {e : Exn} (hm : m ∈ messages) (hencode : encode m = .error e)
      (hfailure : s'.failure = some e)
  | misplaced {e : Exn} (hscan : Exchange.scan s.pending (toolEvents messages) = none)
      (hfailure : s'.failure = some e)

section Passing

variable {encode : Encoder} {s s' : StreamingSelection} {current : Bool}

theorem closeGroup_same (s : StreamingSelection) :
    s.closeGroup.pending = s.pending ∧ s.closeGroup.failure = s.failure := by
  unfold closeGroup
  extract_lets group t
  split
  · exact ⟨rfl, rfl⟩
  · split
    · have hsame := require_samePlace t group.cost group.historyCount group.entries
      exact ⟨hsame.pending, hsame.failure⟩
    · split
      · exact ⟨rfl, rfl⟩
      · exact ⟨rfl, rfl⟩

theorem add_passed {m : Message} (hs : s.failure = none)
    (h : s.add encode m current = .ok s') : Passed encode s [m] s' := by
  have hevents : toolEvents [m] = m.content.filterMap ContentPart.exchange :=
    List.append_nil _
  unfold add at h
  rw [hs, Option.isSome_none, if_neg Bool.false_ne_true] at h
  cases hencode : encode m with
  | error e =>
    simp only [hencode] at h
    split at h
    · rw [← Except.ok.inj h]
      exact .encoding List.mem_cons_self hencode rfl
    · cases h
  | ok bytes =>
    simp only [hencode] at h
    obtain ⟨t, ht⟩ :
      ∃ t, t = if (decide (m.role = .user) || (current && decide (s.currentCount = 0)))
        = true ∧ s.pending = ∅ then s.closeGroup else s := ⟨_, rfl⟩
    have hplace : t.pending = s.pending ∧ t.failure = none := by
      rw [ht]
      split
      · rw [(closeGroup_same s).2, hs]
        exact ⟨(closeGroup_same s).1, rfl⟩
      · exact ⟨rfl, hs⟩
    rw [← ht] at h
    split at h
    · next hsystem =>
      have hsame := require_samePlace (t.counted (1 + bytes.length) current) (1 + bytes.length)
        (if current = true then 0 else 1) [(s.historyCount + s.currentCount, m)]
      rw [← Except.ok.inj h]
      refine .through (hsame.failure.trans hplace.2) ?_
      rw [hevents, system_exchange hsystem, hsame.pending]
      exact congrArg some hplace.1.symm
    · split at h
      · next pending hparts =>
        rw [← Except.ok.inj h]
        refine .through hplace.2 ?_
        rw [hevents, ← hplace.1]
        exact scanParts_eq_ok.mp hparts
      · next e hparts =>
        rw [← Except.ok.inj h]
        refine .misplaced (e := e) ?_ rfl
        rw [hevents, ← hplace.1]
        refine Option.eq_none_iff_forall_not_mem.mpr fun pending hpending => ?_
        have hok := (scanParts_eq_ok.mpr hpending).symm.trans hparts
        cases hok

theorem addAll_passed {messages : List Message} (hs : s.failure = none)
    (h : s.addAll encode current messages = .ok s') : Passed encode s messages s' := by
  induction messages generalizing s with
  | nil =>
    rw [addAll, Except.ok.injEq] at h
    rw [← h]
    exact .through hs rfl
  | cons m rest ih =>
    have hsplit : toolEvents (m :: rest) = toolEvents [m] ++ toolEvents rest :=
      toolEvents_append [m] rest
    rw [addAll] at h
    cases hadd : s.add encode m current with
    | error e =>
      rw [hadd] at h
      cases h
    | ok t =>
      rw [hadd] at h
      replace h : t.addAll encode current rest = .ok s' := h
      cases add_passed hs hadd with
      | through hfailure hscan =>
        have hevents : Exchange.scan s.pending (toolEvents (m :: rest)) =
            Exchange.scan t.pending (toolEvents rest) := by
          rw [hsplit, Exchange.scan_append, hscan]
          rfl
        cases ih hfailure h with
        | through hfailure' hscan' => exact .through hfailure' (hevents.trans hscan')
        | encoding hm hencode hfailure' =>
          exact .encoding (List.mem_cons_of_mem m hm) hencode hfailure'
        | misplaced hscan' hfailure' => exact .misplaced (hevents.trans hscan') hfailure'
      | @encoding m' e hm hencode hfailure =>
        rw [addAll_failed rest hfailure, Except.ok.injEq] at h
        rw [← h]
        exact .encoding (List.mem_cons.mpr (Or.inl (List.mem_singleton.mp hm))) hencode hfailure
      | @misplaced e hscan hfailure =>
        rw [addAll_failed rest hfailure, Except.ok.injEq] at h
        rw [← h]
        refine .misplaced ?_ hfailure
        rw [hsplit, Exchange.scan_append, hscan]
        rfl

/-- One pass after another. -/
theorem Passed.append {t : StreamingSelection} {as bs : List Message} (h : Passed encode s as t)
    (hnext : t.failure = none → Passed encode t bs s')
    (hsame : t.failure ≠ none → s' = t) : Passed encode s (as ++ bs) s' := by
  have hevents : toolEvents (as ++ bs) = toolEvents as ++ toolEvents bs := toolEvents_append as bs
  cases h with
  | through hfailure hscan =>
    have hscan' : Exchange.scan s.pending (toolEvents (as ++ bs)) =
        Exchange.scan t.pending (toolEvents bs) := by
      rw [hevents, Exchange.scan_append, hscan]
      rfl
    cases hnext hfailure with
    | through hfailure' h' => exact .through hfailure' (hscan'.trans h')
    | encoding hm hencode hfailure' =>
      exact .encoding (List.mem_append_right as hm) hencode hfailure'
    | misplaced h' hfailure' => exact .misplaced (hscan'.trans h') hfailure'
  | @encoding m e hm hencode hfailure =>
    rw [hsame (by rw [hfailure]; exact Option.some_ne_none e)]
    exact .encoding (List.mem_append_left bs hm) hencode hfailure
  | @misplaced e hscan hfailure =>
    rw [hsame (by rw [hfailure]; exact Option.some_ne_none e)]
    refine .misplaced ?_ hfailure
    rw [hevents, Exchange.scan_append, hscan]
    rfl

theorem add_raises {m : Message} {e : Exn} (h : s.add encode m current = .error e) :
    encode m = .error e := by
  unfold add at h
  split at h
  · cases h
  · split at h
    · next e' hencode =>
      split at h
      · cases h
      · have hsame : e' = e := Except.error.inj h
        exact hsame ▸ hencode
    · extract_lets at h
      split at h
      · cases h
      · split at h
        · cases h
        · cases h

theorem addAll_raises {messages : List Message} {e : Exn}
    (h : s.addAll encode current messages = .error e) : ∃ m ∈ messages, encode m = .error e := by
  induction messages generalizing s with
  | nil => cases h
  | cons m rest ih =>
    rw [addAll] at h
    cases hadd : s.add encode m current with
    | error e' =>
      rw [hadd] at h
      have hsame : e' = e := Except.error.inj h
      exact ⟨m, List.mem_cons_self, hsame ▸ add_raises hadd⟩
    | ok t =>
      rw [hadd] at h
      obtain ⟨m', hm', he⟩ := ih h
      exact ⟨m', List.mem_cons_of_mem m hm', he⟩

/-- A pass over the history and then over the request. -/
theorem passed_both {t : StreamingSelection} {history messages : List Message}
    (hs : s.failure = none) (h : s.addAll encode false history = .ok t)
    (h' : t.addAll encode true messages = .ok s') : Passed encode s (history ++ messages) s' := by
  refine (addAll_passed hs h).append (fun hfailure => addAll_passed hfailure h') fun hfailure => ?_
  obtain ⟨e, he⟩ := Option.ne_none_iff_exists'.mp hfailure
  rw [addAll_failed messages he] at h'
  exact (Except.ok.inj h').symm

theorem finish_ok {sel : ContextSelection} (h : s.finish = .ok sel) :
    s.failure = none ∧ s.pending = ∅ := by
  unfold finish at h
  split at h
  · cases h
  · next hfailure =>
    refine ⟨hfailure, ?_⟩
    by_contra hpending
    rw [if_pos hpending] at h
    cases h

theorem finish_fails {e : Exn} (h : s.finish = .error e) :
    s.failure = some e ∨ s.failure = none ∧ (s.pending ≠ ∅ ∨ e = budgetExceeded) := by
  unfold finish at h
  split at h
  · next e' hfailure =>
    exact Or.inl (hfailure.trans (congrArg some (Except.error.inj h)))
  · next hfailure =>
    refine Or.inr ⟨hfailure, ?_⟩
    split at h
    · next hpending => exact Or.inl hpending
    · extract_lets at h
      split at h
      · exact Or.inr (Except.error.inj h).symm
      · cases h

end Passing

end StreamingSelection

section Incremental

variable {window : ContextWindow} {encode : Encoder} {history current : List Message}

/-- What the incremental selector accepts. -/
theorem passed_wellFormed {s : StreamingSelection} {messages : List Message} {budget : Nat}
    {sel : ContextSelection} (h : (StreamingSelection.start budget).Passed encode messages s)
    (hok : s.finish = .ok sel) : WellFormed messages := by
  obtain ⟨hnone, hpending⟩ := StreamingSelection.finish_ok hok
  cases h with
  | through _ hscan =>
    rw [hpending] at hscan
    exact (Exchange.wellFormed_iff _).mpr hscan
  | encoding _ _ hfailure => cases hnone.symm.trans hfailure
  | misplaced _ hfailure => cases hnone.symm.trans hfailure

/-- Why the incremental selector refuses well-formed messages. -/
theorem selectStream_fails {e : Exn} (hwell : WellFormed (history ++ current))
    (h : window.selectStream encode history current = .error e) :
    e = budgetExceeded ∨ ∃ m ∈ history ++ current, encode m = .error e := by
  rw [ContextWindow.selectStream] at h
  have hscan := (Exchange.wellFormed_iff _).mp hwell
  cases hfirst : (StreamingSelection.start window.maxBytes).addAll encode false history with
  | error e' =>
    simp only [hfirst] at h
    obtain ⟨m, hm, he⟩ := StreamingSelection.addAll_raises hfirst
    have hsame : e' = e := Except.error.inj h
    exact Or.inr ⟨m, List.mem_append_left current hm, hsame ▸ he⟩
  | ok t =>
    simp only [hfirst] at h
    cases hsecond : t.addAll encode true current with
    | error e' =>
      simp only [hsecond] at h
      obtain ⟨m, hm, he⟩ := StreamingSelection.addAll_raises hsecond
      have hsame : e' = e := Except.error.inj h
      exact Or.inr ⟨m, List.mem_append_right history hm, hsame ▸ he⟩
    | ok s =>
      simp only [hsecond] at h
      have hstart : Exchange.scan (StreamingSelection.start window.maxBytes).pending
          (toolEvents (history ++ current)) = some ∅ := hscan
      cases StreamingSelection.passed_both rfl hfirst hsecond with
      | through hfailure hpassed =>
        rcases StreamingSelection.finish_fails h with hfail | ⟨-, hpending | hbudget⟩
        · cases hfailure.symm.trans hfail
        · exact absurd (Option.some.inj (hpassed.symm.trans hstart)) hpending
        · exact Or.inl hbudget
      | @encoding m e' hm hencode hfailure =>
        rcases StreamingSelection.finish_fails h with hfail | ⟨hnone, -⟩
        · have hsame : e' = e := Option.some.inj (hfailure.symm.trans hfail)
          exact Or.inr ⟨m, hm, hsame ▸ hencode⟩
        · cases hnone.symm.trans hfailure
      | misplaced hpassed hfailure => cases hpassed.symm.trans hstart

end Incremental

end AgentRuntimeKit
