import AgentRuntimeKit.Protocol.BalancedRuns
import AgentRuntimeKit.Results.Runs

/-!
# Transcripts stay selectable

A transcript in which a call has no result, or a result no call, is refused by the context window of
every later turn, and nothing could be said on its thread any more. Where messages are stored only
by the turns of native agents, under runtimes with a context window, no thread ever becomes useless:
whatever the models ask for, however runs fail, are cancelled or interleave, a later request of text
alone is refused only for its budget, for its thread or for an encoding.

The assumptions are those of `Selected`:

* turns are of runtimes with a context window, and nobody calls `append_messages()`;
* invokers put out what a native agent puts out for the messages it is given (`NativeAnswer`), with
  any model client and any tools, and sources stream likewise;
* hooks, models, tools and stores may fail in any way.

A selected request is well formed (`Context/Current`), the loop of a native agent goes on from it
with whole exchanges (`Adapters/Balance`), and `complete` stores both behind a history that is well
formed too. Since turns on one thread are serial, nothing stands between.

## Results

* `Selected.selectable` — every transcript is well formed, and accepted by the selectors and by
  the runtimes.
-/

namespace AgentRuntimeKit

open Lib Prog

/-- No part is a call or a result. -/
def TextOnly (messages : List Message) : Prop :=
  ∀ m ∈ messages, ∀ part ∈ m.content, ∃ text, part = .text text

/-- A thread that holds `rows` can be continued. -/
structure Selectable (rows : List MessageRow) : Prop where
  balanced : WellFormed (rows.map MessageRow.message)
  /-- Neither selector finds a request of text alone out of place. -/
  selects : ∀ (window : ContextWindow) encode current e, TextOnly current →
    (window.select encode (rows.map MessageRow.message) current = .error e ∨
      window.selectStream encode (rows.map MessageRow.message) current = .error e) →
    e = budgetExceeded ∨ ∃ m ∈ rows.map MessageRow.message ++ current, encode m = .error e
  /-- No runtime that reads these rows refuses it either, unless an operation fails. -/
  accepts : ∀ (rt : Runtime) t current, rt.contextWindow.isSome = true → TextOnly current →
    Tame (fun _ => True) (Op.Gives rows) (fun _ => True)
      (Refused rt.encode t (rows.map MessageRow.message ++ current)) (inputMessages rt t current)

section Selectable

variable {c : Cfg}

theorem toolEvents_text {messages : List Message} (h : TextOnly messages) :
    toolEvents messages = [] := by
  rw [toolEvents, List.flatMap_eq_nil_iff]
  intro m hm
  rw [List.filterMap_eq_nil_iff]
  intro part hpart
  obtain ⟨text, rfl⟩ := h m hm part hpart
  rfl

/-- A request of text alone opens and closes nothing. -/
theorem wellFormed_text {history current : List Message} (h : WellFormed history)
    (htext : TextOnly current) : WellFormed (history ++ current) := by
  show Exchange.WellFormed (toolEvents (history ++ current))
  rw [toolEvents_append, toolEvents_text htext, List.append_nil]
  exact h

/-- **Transcripts stay selectable**: on every thread of every such run, by the balance that each
turn keeps. What is refused for another reason than budget, thread or encoding is not well formed.
-/
theorem Selected.selectable (h : Selected c) (t : Uuid) :
    Selectable (c.world.db.transcript t) := by
  have hwell : WellFormed ((c.world.db.transcript t).map MessageRow.message) := by
    rw [h.reachable.inv.db.transcript]
    exact h.balanced.threads t
  refine ⟨hwell, fun window encode current e htext hfails => ?_,
    fun rt t' current hwindow htext => ?_⟩
  · have hboth := wellFormed_text hwell htext
    rcases hfails with hfails | hfails
    · exact select_fails hboth hfails
    · exact selectStream_fails hboth hfails
  · exact inputMessages_refuses hwindow t' (wellFormed_text hwell htext)

end Selectable

-- ---------------------------------------------------------------------------
-- A sample run
-- ---------------------------------------------------------------------------

/-- A move that starts such a task, or in which no invoker answers. -/
def isSelectingMove : Move Choice Env → Bool
  | .env (.start _ t) => t.selects
  | .run _ (.output _) | .run _ (.source _) => false
  | _ => true

theorem selecting_of_move {mv : Move Choice Env} (h : isSelectingMove mv = true) (c : Cfg) :
    Selecting c mv := by
  constructor
  · intro p t hmv
    rw [hmv] at h
    exact h
  · intro p ch o k hmv _
    rw [hmv] at h
    cases ch with
    | output output => exact absurd h Bool.false_ne_true
    | source source => exact absurd h Bool.false_ne_true
    | _ => cases o <;> trivial

namespace Sample

theorem one_iteration : 1 ≤ 1 := Nat.le_refl 1

/-- An agent whose model asks for its tool until the tool has run, and then replies. -/
def diligent : NativeAgentInvoker Bool where
  modelClient := .generateOnly fun input =>
    if input.tools.isEmpty then .ok (.fields reply [] none)
    else .ok (.fields asking asking.toolCalls none)
  tools := {
    definitions := fun done => if done then [] else [⟨[97], [], .none⟩]
    invoke := fun _ call _ =>
      (.ok ⟨0, call.id, call.name, .succeeded, .none, none, isJson_none⟩, true) }
  maxToolIterations := 1
  ids k := .ofNat 128 k
  validIterations := one_iteration

/-- What the agent puts out, whatever it is given. -/
def answered : InvocationOutput :=
  match (diligent.invoke false ⟨⟨0, 0, none⟩, [], []⟩).ending with
  | .ok output => output
  | .error _ => output

theorem diligent_answers (messages : List Message) : NativeOutput messages answered :=
  ⟨Bool, diligent, false, ⟨⟨0, 0, none⟩, messages, []⟩, rfl, rfl⟩

/-- A runtime that selects what its agents are given. -/
def selective : Runtime :=
  { runtime with contextWindow := some ⟨1000, by decide⟩, validHistory := by decide }

def question : RuntimeRequest := { request with messages := [.user 5 default] }

/-- The question up to its invoker, and from the answer to the response. -/
def asked : List (Move Choice Env) :=
  .env (.start 1 (.invoke selective "agent" question (some "key"))) :: ok 1 1 ++
    .run 1 (.uuid 30) :: ok 1 2 ++ .run 1 (.uuid 100) :: ok 1 4 ++ .run 1 (.uuid 10) :: ok 1 19

def told : List (Move Choice Env) :=
  ok 1 1 ++ .run 1 (.trace none) :: ok 1 12 ++ [.run 1 (.flag false)]

def exchange : List (Move Choice Env) := asked ++ .run 1 (.output answered) :: told

/-- Where `exchange` ends. -/
def exchanged : Cfg := (machine.run (Cfg.initial 0) exchange).get (by decide +kernel)

theorem exchange_selecting (c : Cfg) {mv : Move Choice Env} (h : mv ∈ exchange) :
    Selecting c mv := by
  have hplain : ∀ mv ∈ asked ++ told, isSelectingMove mv = true := by decide
  rcases List.mem_append.mp h with hmv | hmv
  · exact selecting_of_move (hplain mv (List.mem_append_left _ hmv)) c
  · rcases List.mem_cons.mp hmv with rfl | hmv
    · constructor
      · exact fun p t h => absurd h (by simp)
      · intro p ch o k hch _
        obtain ⟨-, rfl⟩ := Move.run.inj hch
        cases o with
        | awaitInvoker messages => exact diligent_answers messages
        | _ => trivial
    · exact selecting_of_move (hplain mv (List.mem_append_right _ hmv)) c

theorem selected_exchanged : Selected exchanged :=
  ⟨0, Machine.Reaches.of_run (fun c _ hmv => exchange_selecting c hmv) (Option.some_get _).symm⟩

end Sample

/-- The exchange of the sample run stores a question, a call, its result and a reply. -/
theorem Sample.selectable_exchanged :
    Sample.exchanged.world.db.messages.map (fun row => (row.threadId, row.message.role)) =
      [(100, .user), (100, .assistant), (100, .tool), (100, .assistant)] ∧
    Selectable (Sample.exchanged.world.db.transcript 100) :=
  ⟨by decide +kernel, Sample.selected_exchanged.selectable 100⟩

end AgentRuntimeKit
