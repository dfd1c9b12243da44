import AgentRuntimeKit.Results.Runs

/-!
# Transcripts

What the threads hold, whatever `complete()` and `append_messages()` do in whatever order, and
whichever of them are rolled back.

* `TranscriptOk` — sequence numbers without a gap, every committed batch one block, and the
  batch of `complete()` together with the success of its run.
* `SerialTurn`   — a turn that is completed has read everything that stands before its own
  batch, where messages are written only by turns.

The first is about every reachable configuration, with any store calls by anybody. The second is
about one commit of an invocation in it, and assumes that no `append_messages()` has been committed
on the thread before (`hturns`): such a call takes no part in the slot of a thread, so its batch may
stand between what a turn has read and what it writes.

The world keeps a log of what has happened: commits with the tables before them, and the histories
that invocations read. It is not part of the program; nothing reads it. The tables are the commits
of the log played from the first on, which makes the first result a reading of the log
(`LogOk`). For the second, a turn holds the slot of its thread from its claim to its completion: who
else has completed on the thread since then would have needed it, so its batch is older than the
read (`HistoryCurrent`).

## Results

* `Reachable.transcriptOk` — transcripts have integrity.
* `Reachable.serialTurn`   — turns on one thread are serial.
-/

namespace AgentRuntimeKit

open Lib

-- ---------------------------------------------------------------------------
-- Integrity
-- ---------------------------------------------------------------------------

/-- The batch that was stored for the run of `r`: one committed call, and one block of the
thread. -/
structure StoredBatch (c : Cfg) (r : RunRow) (messages : List Message) : Prop where
  /-- One commit, and no other one for the run. -/
  commit : ∃ newer σ before older token response,
    c.world.log = newer ++ .commit σ before :: older ∧
      σ.call = .complete r.id token messages response ∧
      (∀ e ∈ newer ++ older, e.completes ≠ some r.id) ∧
      ∃ later, (c.world.db.messagesOf r.threadId).map MessageRow.message =
        (before.messagesOf r.threadId).map MessageRow.message ++ messages ++ later
  answer : ∃ response assistant, r.response = some response ∧
    lastAssistant messages = some assistant ∧ assistant.eq response.message = true

structure TranscriptOk (c : Cfg) : Prop where
  sequences : ∀ t, (c.world.db.messagesOf t).map MessageRow.sequence =
    List.range' 1 (c.world.db.messagesOf t).length
  /-- A thread holds the committed batches, and nothing else. -/
  written : ∀ t, (c.world.db.messagesOf t).map MessageRow.message =
    c.world.log.reverse.flatMap (Event.batchOn t)
  /-- Each batch goes behind all that the thread held, in one block. -/
  blocks : ∀ newer σ before older, c.world.log = newer ++ .commit σ before :: older →
    ∀ t, ∃ later, (c.world.db.messagesOf t).map MessageRow.message =
      (before.messagesOf t).map MessageRow.message ++ σ.call.batchOn t ++ later
  succeeded : ∀ r ∈ c.world.db.runs, r.status = .succeeded → ∃ messages, StoredBatch c r messages
  completed : ∀ e ∈ c.world.log, ∀ runId, e.completes = some runId →
    ∃ r ∈ c.world.db.runs, r.id = runId ∧ r.status = .succeeded

section Integrity

variable {priv : Bool} {c : Cfg}

theorem Event.commit_of_completes {e : Event} {runId : Uuid} (h : e.completes = some runId) :
    ∃ σ before token messages response, e = .commit σ before ∧
      σ.call = .complete runId token messages response := by
  cases e with
  | commit σ before =>
    cases hcall : σ.call with
    | complete runId' token messages response =>
      have hid : runId' = runId := by simpa [Event.completes, Call.completes, hcall] using h
      rw [hid] at hcall
      exact ⟨σ, before, token, messages, response, rfl, hcall⟩
    | _ => exact absurd h (by simp [Event.completes, Call.completes, hcall])
  | _ => exact absurd h (by simp [Event.completes])

/-- An entry that a list of labels holds once labels no other event. -/
theorem label_unique {β : Type} {label : Event → Option β} {newer older : List Event} {e : Event}
    {b : β} (h : ((newer ++ e :: older).filterMap label).Nodup) (he : label e = some b) :
    ∀ e' ∈ newer ++ older, label e' ≠ some b := by
  rw [List.filterMap_append, List.filterMap_cons_some he, List.nodup_middle,
    List.nodup_cons, ← List.filterMap_append] at h
  intro e' he' hb
  exact h.1 (List.mem_filterMap.mpr ⟨e', he', hb⟩)

/-- A committed batch is one block, behind all that the thread held. -/
theorem Reachable.block (h : Reachable priv c) {newer older : List Event} {σ : Session}
    {before : Db} (hlog : c.world.log = newer ++ .commit σ before :: older) (t : Uuid) :
    ∃ later, (c.world.db.messagesOf t).map MessageRow.message =
      (before.messagesOf t).map MessageRow.message ++ σ.call.batchOn t ++ later := by
  obtain ⟨c₀, hc₀, -, hold, hdb, -⟩ := h.past hlog
  have hbefore : (before.messagesOf t).map MessageRow.message =
      older.reverse.flatMap (Event.batchOn t) := by
    rw [← hdb, ← hold]
    exact hc₀.inv.log.transcript t
  refine ⟨newer.reverse.flatMap (Event.batchOn t), ?_⟩
  rw [h.inv.log.transcript t, hlog, hbefore, List.reverse_append, List.reverse_cons,
    List.flatMap_append, List.flatMap_append, List.flatMap_singleton]
  rfl

theorem matchesResponse_assistant {messages : List Message} {response : RuntimeResponse}
    (h : matchesResponse messages response = true) :
    ∃ assistant, lastAssistant messages = some assistant ∧
      assistant.eq response.message = true := by
  unfold matchesResponse at h
  split at h
  · next assistant hlast => exact ⟨assistant, hlast, h⟩
  · exact absurd h Bool.false_ne_true

/-- The batch of a run that has succeeded. -/
theorem Reachable.storedBatch (h : Reachable priv c) {r : RunRow} (hr : r ∈ c.world.db.runs)
    (hs : r.status = .succeeded) : ∃ messages, StoredBatch c r messages := by
  have hlog := h.inv.log
  obtain ⟨e, he, hcompletes⟩ := List.mem_map.mp (hlog.covered r hr hs)
  obtain ⟨σ, before, token, messages, response, rfl, hcall⟩ := Event.commit_of_completes hcompletes
  obtain ⟨hmatch, r', hr', hid, -, hresponse, hthread⟩ := hlog.completed _ _ _ _ _ _ he hcall
  obtain rfl : r' = r := h.inv.db.unique_id hr' hr hid
  obtain ⟨newer, older, hsplit⟩ := List.append_of_mem he
  have honce := hlog.once
  rw [hsplit] at honce
  have hbatch : σ.call.batchOn r'.threadId = messages := by
    rw [hcall, Call.batchOn, if_pos hthread.symm]
  refine ⟨messages, ⟨newer, σ, before, older, token, response, hsplit, hcall,
    label_unique honce hcompletes, ?_⟩, ?_⟩
  · rw [← hbatch]
    exact h.block hsplit r'.threadId
  · obtain ⟨assistant, hlast, heq⟩ := matchesResponse_assistant hmatch
    exact ⟨response.jsonForm, assistant, hresponse, hlast, heq⟩

/-- **Transcript integrity**, in every reachable configuration, whatever is called and whatever
fails. -/
theorem Reachable.transcriptOk (h : Reachable false c) : TranscriptOk c where
  sequences := h.inv.db.sequences
  written := h.inv.log.transcript
  blocks _ _ _ _ hlog t := h.block hlog t
  succeeded _ hr hs := h.storedBatch hr hs
  completed e he runId hruns := by
    obtain ⟨σ, before, token, messages, response, rfl, hcall⟩ := Event.commit_of_completes hruns
    obtain ⟨-, r, hr, hid, hs, -⟩ := h.inv.log.completed _ _ _ _ _ _ he hcall
    exact ⟨r, hr, hid, hs⟩

end Integrity

set_option maxRecDepth 4000 in
/-- The transcript of the sample run holds its request and its reply. -/
theorem Sample.transcript_invoked :
    (Sample.invoked.world.db.messagesOf 100).map MessageRow.sequence = [1, 2] ∧
      TranscriptOk Sample.invoked := by
  constructor
  · decide
  · exact (Sample.reachable_invoked false).transcriptOk

-- ---------------------------------------------------------------------------
-- Serial turns
-- ---------------------------------------------------------------------------

/-- An invocation committed `messages` for its run on thread `t`, with the log `older` and the
tables `before`: it had read `rows`, and nothing was stored on the thread since. -/
structure SerialTurn (c : Cfg) (client : Pid) (runId t : Uuid) (messages : List Message)
    (before : Db) (older since earlier : List Event) (rows : List MessageRow) : Prop where
  read : older = since ++ .history client t rows :: earlier
  started : StartedIn client runId earlier
  /-- There is no other history that it read. -/
  only : ∀ e ∈ c.world.log, e.reader = some client → e = .history client t rows
  current : rows = before.messagesOf t
  quiet : ∀ e ∈ since, e.batchOn t = []
  row : ∃ r ∈ c.world.db.runs, r.id = runId ∧ r.threadId = t ∧ r.status = .succeeded
  stored : ∃ later, (c.world.db.messagesOf t).map MessageRow.message =
    rows.map MessageRow.message ++ messages ++ later

theorem Serial.at {kind : Pid → Kind} {newer older : List Event} {σ : Session} {before : Db}
    (h : Serial kind (newer ++ .commit σ before :: older)) {runId token : Uuid}
    {messages : List Message} {response : RuntimeResponse}
    (hcall : σ.call = .complete runId token messages response)
    (hinvocation : (kind σ.client).isInvocation = true) :
    HistoryCurrent σ.client runId response.threadId before older := by
  induction newer with
  | nil => exact h.1 runId token messages response hcall hinvocation
  | cons e newer ih =>
    cases e with
    | commit => exact ih h.2
    | history => exact ih h
    | enter => exact ih h

/-- **Turns on one thread are serial**, where messages are written only by turns: what an invocation
commits stands behind the history that it has read, and nothing was stored on the thread in between.
The one condition is that no `append_messages()` was committed on the thread before. -/
theorem Reachable.serialTurn {c : Cfg} (h : Reachable false c) {newer older : List Event}
    {σ : Session} {before : Db} (hlog : c.world.log = newer ++ .commit σ before :: older)
    (hinvocation : (c.world.kind σ.client).isInvocation = true) {runId token : Uuid}
    {messages : List Message} {response : RuntimeResponse}
    (hcall : σ.call = .complete runId token messages response)
    (hturns : ∀ e ∈ older, e.appends response.threadId = false) :
    ∃ since earlier rows, SerialTurn c σ.client runId response.threadId messages before older
      since earlier rows := by
  have hinv := h.inv
  have hserial := hinv.serial
  rw [hlog] at hserial
  rcases hserial.at hcall hinvocation with
    ⟨e, he, happends⟩ | ⟨since, earlier, hread, hquiet, hstarted⟩
  · rw [hturns e he] at happends
    exact absurd happends Bool.false_ne_true
  · have hmem : .commit σ before ∈ c.world.log := by
      rw [hlog]
      exact List.mem_append_cons_self
    obtain ⟨-, r, hr, hid, hs, -, hthread⟩ := hinv.log.completed _ _ _ _ _ _ hmem hcall
    have hbatch : σ.call.batchOn response.threadId = messages := by
      rw [hcall, Call.batchOn, if_pos rfl]
    refine ⟨since, earlier, _, hread, hstarted, ?_, rfl, hquiet, ⟨r, hr, hid, hthread, hs⟩, ?_⟩
    · intro e he hreader
      have hsplit : c.world.log = (newer ++ .commit σ before :: since) ++
          .history σ.client response.threadId (before.messagesOf response.threadId) :: earlier := by
        rw [hlog, hread, List.append_assoc]
        rfl
      have honce := hinv.readOnce
      rw [hsplit] at honce he
      by_contra hne
      have hother : e ∈ (newer ++ .commit σ before :: since) ++ earlier := by
        rcases List.mem_append.mp he with he | he
        · exact List.mem_append_left _ he
        · rcases List.mem_cons.mp he with heq | he
          · exact absurd heq hne
          · exact List.mem_append_right _ he
      exact label_unique honce rfl e hother hreader
    · rw [← hbatch]
      exact h.block hlog response.threadId

namespace Sample

/-- A second request on the thread of the first one, and the answer to it. -/
def followUp : RuntimeRequest := ⟨21, some 100, none, [.user 3 default], []⟩

def secondReply : Message := { reply with id := 4 }

def secondResponse : RuntimeResponse := ⟨11, 21, 100, agent, secondReply, [], none, none, []⟩

/-- Its invocation, without a key, from its start to its response. -/
def following : List (Move Choice Env) :=
  .env (.start 2 (.invoke runtime "agent" followUp none)) :: ok 2 1 ++
    .run 2 (.uuid 31) :: ok 2 2 ++ .run 2 (.uuid 11) ::
  -- `claim`, `transition`, the history, and the invoker
    ok 2 18 ++ .run 2 (.output ⟨[secondReply], [], none, []⟩) :: ok 2 1 ++ .run 2 (.trace none) ::
  -- `complete`
    ok 2 12 ++ [.run 2 (.flag false)]

set_option maxRecDepth 8000 in
/-- Where both turns have ended. -/
def followed : Cfg := (machine.run invoked following).get (by decide)

theorem reachable_followed : Reachable false followed :=
  (reachable_invoked false).reaches
    (Machine.Reaches.of_run (fun c mv _ => legal_false c mv) (Option.some_get _).symm)

end Sample

set_option maxRecDepth 8000 in
/-- The second of two turns on a thread read the two messages that the first one had stored. -/
theorem Sample.turn_followed : ∃ before older since earlier rows,
    SerialTurn Sample.followed 2 11 100 [.user 3 default, Sample.secondReply] before older since
      earlier rows ∧
      rows.map MessageRow.message = [.user 1 default, Sample.reply] := by
  obtain ⟨σ, before, older, hlog, hclient, hcall, hstored, hturns⟩ : ∃ σ before older,
      Sample.followed.world.log = [] ++ .commit σ before :: older ∧ σ.client = 2 ∧
        σ.call = .complete 11 31 [.user 3 default, Sample.secondReply] Sample.secondResponse ∧
        (before.messagesOf 100).map MessageRow.message = [.user 1 default, Sample.reply] ∧
        ∀ e ∈ older, e.appends 100 = false :=
    ⟨_, _, _, rfl, rfl, rfl, rfl, by decide⟩
  have hinvocation : (Sample.followed.world.kind σ.client).isInvocation = true := by
    rw [hclient]
    rfl
  obtain ⟨since, earlier, rows, hturn⟩ := Sample.reachable_followed.serialTurn hlog
    hinvocation hcall hturns
  rw [hclient] at hturn
  refine ⟨before, older, since, earlier, rows, hturn, ?_⟩
  rw [hturn.current]
  exact hstored

end AgentRuntimeKit
