import AgentRuntimeKit.Protocol.Screening
import AgentRuntimeKit.Results.Transcripts

/-!
# Guardrails

A guardrail is a hook that raises unless the texts of a message are good. No message gets around one
that every runtime has among its hooks, before and after the model: neither into a transcript, nor
to an agent, nor into an answer, whatever is retried, replayed, cancelled or settled on the way. The
text deltas of a stream are not among these messages; they are sent before the last hooks run.

The assumptions are those of `GuardedRun` and `Enforces`:

* every hook phase that passes was run by a manager that has the guardrail among its hooks, in both
  phases;
* the guardrail allows only messages whose texts are good. It may keep a state, and the hooks around
  it may do anything, but they cannot answer for it;
* besides turns, callers start only public calls, and append good messages only.

Each turn hands messages on only after the hooks have seen them: the request before the model, and
the output after it. `Screens` says so of the programs. What is stored has been passed then, and so
has an answer, which is stored with its run: a replay gives back what a turn has stored before. The
steps of a run keep this for all processes, sessions and commits together (`ScreenedCfg`).

## Results

* `ScreenedCfg.stored`, `ScreenedCfg.answered` — what is stored and what is answered.
* `GuardedRun.upheld` — in every run of this kind.
-/

namespace AgentRuntimeKit

open Lib Prog

/-- Whatever is stored, given to an agent or answered is good. -/
structure Upheld (good : List PyStr → Prop) (c : Cfg) : Prop where
  stored : ∀ row ∈ c.world.db.messages, good row.message.texts
  given : ∀ p messages k, c.procs p = some (.op (.awaitInvoker messages) k) → Clean good messages
  streamed : ∀ p messages k, c.procs p = some (.op (.openSource messages) k) → Clean good messages
  answered : ∀ p response, HasAnswered c p response → good response.message.texts

section Guards

variable {good : List PyStr → Prop} {c : Cfg}

/-- Equal messages have the same texts. -/
theorem Message.eq_texts {a b : Message} (h : a.eq b = true) : a.texts = b.texts := by
  have hparts : ∀ as bs : List ContentPart, partsEq as bs = true →
      as.filterMap ContentPart.text? = bs.filterMap ContentPart.text? := by
    intro as
    induction as with
    | nil =>
      intro bs hbs
      cases bs with
      | nil => rfl
      | cons b bs => exact absurd hbs Bool.false_ne_true
    | cons a as ih =>
      intro bs hbs
      cases bs with
      | nil => exact absurd hbs Bool.false_ne_true
      | cons b bs =>
        rw [partsEq, Bool.and_eq_true] at hbs
        have hrest := ih bs hbs.2
        cases a <;> cases b <;> first
          | exact absurd hbs.1 Bool.false_ne_true
          | exact hrest
          | (have htext := of_decide_eq_true hbs.1
             simp only [List.filterMap_cons, ContentPart.text?, htext, hrest])
  rw [Message.eq, Bool.and_eq_true] at h
  exact hparts _ _ h.2

theorem Call.Screens.batchOn {call : Call} (h : call.Screens good) (t : Uuid) :
    Clean good (call.batchOn t) := by
  intro m hm
  cases call with
  | complete runId token messages response =>
    rw [Call.batchOn] at hm
    split at hm
    · exact h m hm
    · exact absurd hm List.not_mem_nil
  | appendMessages t' messages name =>
    rw [Call.batchOn] at hm
    split at hm
    · exact h m hm
    · exact absurd hm List.not_mem_nil
  | _ => exact absurd hm List.not_mem_nil

/-- A transcript holds what was committed. -/
theorem ScreenedCfg.stored (h : ScreenedCfg good c) (hc : Reachable true c) {row : MessageRow}
    (hrow : row ∈ c.world.db.messages) : good row.message.texts := by
  have hmem : row.message ∈ (c.world.db.messagesOf row.threadId).map MessageRow.message :=
    List.mem_map_of_mem (Db.mem_messagesOf.mpr ⟨hrow, rfl⟩)
  rw [hc.inv.log.transcript] at hmem
  obtain ⟨e, he, hbatch⟩ := List.mem_flatMap.mp hmem
  cases e with
  | commit σ before =>
    exact (h.commits σ before (List.mem_reverse.mp he)).batchOn row.threadId _ hbatch
  | _ => exact absurd hbatch List.not_mem_nil

/-- An answer is the final message of a committed batch. -/
theorem ScreenedCfg.answered (h : ScreenedCfg good c) (hc : Reachable true c) {p : Pid}
    {response : RuntimeResponse} (ha : HasAnswered c p response) : good response.message.texts := by
  obtain ⟨row, hanswered⟩ := hc.answered ha
  obtain ⟨e, he, hcompletes⟩ :=
    List.mem_map.mp (hc.inv.log.covered row hanswered.mem hanswered.status)
  obtain ⟨σ, before, token, messages, stored, rfl, hcall⟩ := Event.commit_of_completes hcompletes
  obtain ⟨hmatch, row', hrow', hid, -, hresponse, -⟩ :=
    hc.inv.log.completed _ _ _ _ _ _ he hcall
  obtain rfl : row' = row := hc.inv.db.unique_id hrow' hanswered.mem hid
  have hforms : response.jsonForm = stored.jsonForm :=
    Option.some.inj (hanswered.response.symm.trans hresponse)
  have hmessages : response.jsonForm.message = stored.jsonForm.message :=
    congrArg RuntimeResponse.message hforms
  have hsame : response.message = stored.message := hmessages
  have hclean := h.commits σ before he
  rw [hcall] at hclean
  unfold matchesResponse at hmatch
  split at hmatch
  · next assistant hlast =>
    rw [hsame, ← Message.eq_texts hmatch]
    exact hclean assistant (List.mem_reverse.mp (List.mem_of_find?_eq_some hlast))
  · exact absurd hmatch Bool.false_ne_true

/-- **Guardrails hold**: in every run in which each hook phase is guarded, what is stored, given to
an agent or answered has been allowed, whichever of the hooks fail, and whichever turns are replayed
or reconciled. -/
theorem GuardedRun.upheld {σ : Type} {g : Guardrail σ} (hg : g.Enforces good)
    (h : GuardedRun g good c) : Upheld good c where
  stored _ hrow := (h.screened hg).stored h.reachable hrow
  given p _ _ hp := ((h.screened hg).procs p _ hp).1
  streamed p _ _ hp := ((h.screened hg).procs p _ hp).1
  answered _ _ ha := (h.screened hg).answered h.reachable ha

end Guards

-- ---------------------------------------------------------------------------
-- A sample run
-- ---------------------------------------------------------------------------

namespace Sample

/-- `str.casefold` on ASCII. -/
def lower (s : PyStr) : PyStr := s.map fun c => if 65 ≤ c ∧ c ≤ 90 then c + 32 else c

theorem bad_nonempty : [PyStr.ofString "bad"] ≠ [] := List.cons_ne_nil _ _

def phrases : PhraseBlockGuardrail := ⟨lower, [PyStr.ofString "bad"], bad_nonempty⟩

theorem both_supported : ∀ phase ∈ [LifecyclePhase.beforeModel, .afterModel],
    phase = .beforeModel ∨ phase = .afterModel := by decide

def phraseHook : GuardrailHook Unit :=
  ⟨phrases.guardrail, [.beforeModel, .afterModel], both_supported⟩

def hooks : HookManager Unit := ⟨[phraseHook.toLifecycleHook]⟩

theorem hooks_guards : hooks.Guards phrases.guardrail :=
  ⟨phraseHook, rfl, List.mem_cons_self, by decide, by decide⟩

def passesHooks : Op → Choice → Bool
  | .hook phase messages, .ok => (hooks.run (phase.event ⟨0, 0, none⟩ messages) ()).1.isOk
  | _, _ => true

/-- A move of a run whose hooks are these. -/
def isGuardedMove (c : Cfg) : Move Choice Env → Bool
  | .run p ch =>
    match c.procs p with
    | some (.op o _) => passesHooks o ch
    | _ => true
  | .env (.start _ (.call _)) => false
  | .env _ => true

theorem guarding_of_move {good : List PyStr → Prop} (c : Cfg) (mv : Move Choice Env)
    (h : isGuardedMove c mv = true) : Guarding (phrases.guardrail : Guardrail Unit) good c mv := by
  constructor
  · intro p t hmv
    rw [hmv] at h
    cases t with
    | call call => exact absurd h Bool.false_ne_true
    | _ => trivial
  · intro p ch o k hmv hp
    rw [hmv, isGuardedMove, hp] at h
    cases o with
    | hook phase messages =>
      cases ch with
      | ok =>
        refine ⟨hooks, ⟨0, 0, none⟩, (), (), hooks_guards, ?_⟩
        have hok : (hooks.run (phase.event ⟨0, 0, none⟩ messages) ()).1.isOk = true := h
        cases hrun : hooks.run (phase.event ⟨0, 0, none⟩ messages) () with
        | mk r s =>
          rw [hrun] at hok
          cases r with
          | ok u => rfl
          | error e => exact absurd hok Bool.false_ne_true
      | _ => trivial
    | _ => trivial

/-- Every move of a schedule is guarded. -/
def guardedAlong (c : Cfg) : List (Move Choice Env) → Bool
  | [] => true
  | mv :: rest =>
    isGuardedMove c mv &&
      match machine.step c mv with
      | some c' => guardedAlong c' rest
      | none => true

theorem guardedRun_along {good : List PyStr → Prop} {c c' : Cfg} {mvs : List (Move Choice Env)}
    (h : GuardedRun (phrases.guardrail : Guardrail Unit) good c)
    (hmvs : guardedAlong c mvs = true) (hrun : machine.run c mvs = some c') :
    GuardedRun (phrases.guardrail : Guardrail Unit) good c' := by
  induction mvs generalizing c with
  | nil =>
    rw [Machine.run, Option.some.injEq] at hrun
    exact hrun ▸ h
  | cons mv rest ih =>
    rw [guardedAlong, Bool.and_eq_true] at hmvs
    rw [Machine.run] at hrun
    cases hs : machine.step c mv with
    | none =>
      rw [hs] at hrun
      exact absurd hrun (by simp)
    | some c₁ =>
      rw [hs] at hrun hmvs
      obtain ⟨clock, hreaches⟩ := h
      exact ih ⟨clock, hreaches.step (guarding_of_move c mv hmvs.1) hs⟩ hmvs.2 hrun

set_option maxRecDepth 8000 in
theorem invocation_guarded : guardedAlong (Cfg.initial 0) invocation = true := by
  decide +kernel

theorem guarded_invoked {good : List PyStr → Prop} :
    GuardedRun (phrases.guardrail : Guardrail Unit) good invoked :=
  guardedRun_along ⟨0, .refl⟩ invocation_guarded (Option.some_get _).symm

end Sample

theorem Sample.bad_request_valid : isStrField 1 32000 (PyStr.ofString "A BAD request") = true := by
  decide

set_option maxRecDepth 8000 in
/-- A request that is blocked, and the transcript of a turn that is not. -/
theorem Sample.upheld_invoked :
    Sample.phrases.blocks (.user 0 ⟨PyStr.ofString "A BAD request", Sample.bad_request_valid⟩) =
      true ∧
    Sample.invoked.world.db.messages.length = 2 ∧
    Upheld (fun texts => ∀ text ∈ texts, ∀ phrase ∈ Sample.phrases.phrases,
      ¬ phrase <:+: Sample.phrases.casefold text) Sample.invoked :=
  ⟨by decide, by decide,
    Sample.guarded_invoked.upheld (PhraseBlockGuardrail.enforces (σ := Unit) Sample.phrases)⟩

end AgentRuntimeKit
