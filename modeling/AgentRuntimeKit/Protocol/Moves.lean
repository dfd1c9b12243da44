import AgentRuntimeKit.Machine.Exec

/-!
# How rows move

What a transaction may commit. `RowMove` is the change of one row under a call and
its reading of the database clock; `Staged` says that an open transaction has flushed
a complete set of writes of its call, under the locks the call takes. `DbOk` is what
holds of the tables after every commit.

## Results

* `RowMove.unmoved`   — the columns that no call changes.
* `RowMove.active`    — only active rows move.
* `DbOk.updateRun`, `DbOk.insertRun`, `DbOk.insertMessages` — the three kinds of writes.
-/

namespace AgentRuntimeKit

open Lib

-- ---------------------------------------------------------------------------
-- Rows
-- ---------------------------------------------------------------------------

/-- A call changes a row, by its reading `now` of the database clock. -/
inductive RowMove (call : Call) (now : Time) (old : RunRow) : RunRow → Prop
  | expire {new : RunRow} (h : expire old now = some new) : RowMove call now old new
  | transition {token : Uuid} {status : RunStatus} {response : Option RuntimeResponse}
      {code : Option String}
      (hcall : call = .transition old.id status token response code)
      (howner : ownedBy old token now = true) (hstatus : status ∈ transitions old.status) :
      RowMove call now old (transitioned old status code now)
  | complete {token : Uuid} {messages : List Message} {response : RuntimeResponse}
      (hcall : call = .complete old.id token messages response)
      (howner : ownedBy old token now = true)
      (hcheck : checkCompletion old messages response = .ok ()) :
      RowMove call now old (completed old response now)
  | settle {token : Uuid} {status : RunStatus} {code : String}
      (hcall : call = .failIfRunning old.id token code status)
      (hstatus : status = .failed ∨ status = .blocked)
      (hactive : old.status.isActive = true) (hlive : expire old now = none)
      (htoken : old.ownerToken = some token) : RowMove call now old (settled old status code now)

/-- The columns set by `claim` and never changed. -/
structure SameRun (a b : RunRow) : Prop where
  id : b.id = a.id
  requestId : b.requestId = a.requestId
  agentId : b.agentId = a.agentId
  agentVersion : b.agentVersion = a.agentVersion
  framework : b.framework = a.framework
  threadId : b.threadId = a.threadId
  idempotencyKey : b.idempotencyKey = a.idempotencyKey
  requestHash : b.requestHash = a.requestHash
  startedAt : b.startedAt = a.startedAt
  ownerToken : b.ownerToken = a.ownerToken
  leaseExpiresAt : b.leaseExpiresAt = a.leaseExpiresAt

theorem SameRun.refl (a : RunRow) : SameRun a a :=
  ⟨rfl, rfl, rfl, rfl, rfl, rfl, rfl, rfl, rfl, rfl, rfl⟩

theorem SameRun.trans {a b c : RunRow} (h : SameRun a b) (h' : SameRun b c) : SameRun a c :=
  ⟨h'.id.trans h.id, h'.requestId.trans h.requestId, h'.agentId.trans h.agentId,
    h'.agentVersion.trans h.agentVersion, h'.framework.trans h.framework,
    h'.threadId.trans h.threadId, h'.idempotencyKey.trans h.idempotencyKey,
    h'.requestHash.trans h.requestHash, h'.startedAt.trans h.startedAt,
    h'.ownerToken.trans h.ownerToken, h'.leaseExpiresAt.trans h.leaseExpiresAt⟩

/-- `_expire` writes one row, and only for an active run whose lease is over. -/
theorem expire_some {old new : RunRow} {now : Time} (h : expire old now = some new) :
    old.status.isActive = true ∧ Db.leaseExpired old now = true ∧
      new = { old with
        status := .failed
        errorCode := some "owner_lease_expired"
        completedAt := some now
        response := none } := by
  rw [expire] at h
  split at h
  next hcond =>
    rw [Bool.and_eq_true] at hcond
    exact ⟨hcond.1, hcond.2, (Option.some.inj h).symm⟩
  next => exact absurd h (by simp)

theorem checkOwner_ok {row : RunRow} {token : Uuid} {now : Time}
    (h : checkOwner row token now = .ok ()) : ownedBy row token now = true := by
  rw [checkOwner] at h
  split at h
  next hok => exact hok
  next => exact absurd h (by simp)

/-- The owner check of an active row: its token, before the end of its lease. -/
theorem ownedBy_active {row : RunRow} {token : Uuid} {now : Time}
    (h : ownedBy row token now = true) (hactive : row.status.isActive = true) :
    row.ownerToken = some token ∧ ∃ lease, row.leaseExpiresAt = some lease ∧ now < lease := by
  rw [ownedBy, Bool.and_eq_true, hactive] at h
  obtain ⟨htoken, hlease⟩ := h
  refine ⟨by simpa using htoken, ?_⟩
  rw [Bool.not_true, Bool.false_or, Bool.and_eq_true] at hlease
  obtain ⟨lease, hsome⟩ := Option.isSome_iff_exists.mp hlease.1
  refine ⟨lease, hsome, ?_⟩
  have hnot := hlease.2
  rw [Db.leaseExpired, hsome] at hnot
  simpa using hnot

theorem checkCompletion_ok {row : RunRow} {messages : List Message} {response : RuntimeResponse}
    (h : checkCompletion row messages response = .ok ()) :
    row.status = .running ∧ response.runId = row.id ∧ response.threadId = row.threadId ∧
      matchesResponse messages response = true := by
  rw [checkCompletion] at h
  split at h
  next => exact absurd h (by simp)
  next hstatus =>
    split at h
    next => exact absurd h (by simp)
    next hrow =>
      split at h
      next => exact absurd h (by simp)
      next hmatch =>
        simp only [not_or, ne_eq, not_not] at hstatus hrow
        exact ⟨hstatus, hrow.1, hrow.2.2.1, by simpa using hmatch⟩

theorem transitions_active {a b : RunStatus} (h : b ∈ transitions a) :
    a.isActive = true ∧ b ≠ .succeeded ∧ b ≠ .accepted := by
  cases a <;> simp only [transitions, List.mem_cons, List.not_mem_nil, or_false] at h
  · subst h
    decide
  · rcases h with rfl | rfl <;> decide

namespace RowMove

variable {call : Call} {now : Time} {old new : RunRow}

/-- Only active rows move. -/
theorem active (h : RowMove call now old new) : old.status.isActive = true := by
  cases h with
  | expire h => exact (expire_some h).1
  | transition _ _ hstatus => exact (transitions_active hstatus).1
  | complete _ _ hcheck =>
    rw [(checkCompletion_ok hcheck).1]
    rfl
  | settle _ _ hactive _ _ => exact hactive

/-- The columns that no call changes. -/
theorem unmoved (h : RowMove call now old new) : SameRun old new := by
  cases h with
  | expire h =>
    rw [(expire_some h).2.2]
    exact ⟨rfl, rfl, rfl, rfl, rfl, rfl, rfl, rfl, rfl, rfl, rfl⟩
  | transition => exact ⟨rfl, rfl, rfl, rfl, rfl, rfl, rfl, rfl, rfl, rfl, rfl⟩
  | complete => exact ⟨rfl, rfl, rfl, rfl, rfl, rfl, rfl, rfl, rfl, rfl, rfl⟩
  | settle => exact ⟨rfl, rfl, rfl, rfl, rfl, rfl, rfl, rfl, rfl, rfl, rfl⟩

theorem keys_subset (h : RowMove call now old new) : ∀ k ∈ new.keys, k ∈ old.keys := by
  intro k hk
  have hsame := h.unmoved
  rw [RunRow.keys, hsame.id, hsame.requestId, hsame.agentId, hsame.idempotencyKey,
    hsame.threadId] at hk
  rw [RunRow.keys, h.active]
  rcases List.mem_append.mp hk with hk | hk
  · exact List.mem_append_left _ hk
  · refine List.mem_append_right _ ?_
    split at hk
    · exact hk
    · exact absurd hk List.not_mem_nil

end RowMove

-- ---------------------------------------------------------------------------
-- The tables
-- ---------------------------------------------------------------------------

/-- What holds of every committed row. -/
structure RowOk (r : RunRow) : Prop where
  response : r.response.isSome = true ↔ r.status = .succeeded
  jsonForm : ∀ x, r.response = some x → x.jsonForm = x
  fenced : r.status = .succeeded →
    ∃ done lease, r.completedAt = some done ∧ r.leaseExpiresAt = some lease ∧ done < lease
  owner : r.status.isActive = true → r.ownerToken.isSome = true ∧ r.leaseExpiresAt.isSome = true

/-- No shared unique key. -/
def Apart (a b : RunRow) : Prop := ∀ k ∈ a.keys, k ∉ b.keys

theorem Apart.symm {a b : RunRow} (h : Apart a b) : Apart b a := fun k hb ha => h k ha hb

structure DbOk (db : Db) : Prop where
  apart : db.runs.Pairwise Apart
  rows : ∀ r ∈ db.runs, RowOk r
  sequences : ∀ t, (db.messagesOf t).map MessageRow.sequence =
    List.range' 1 (db.messagesOf t).length

theorem RunRow.run_mem_keys (r : RunRow) : .run r.id ∈ r.keys :=
  List.mem_append_left _ (List.mem_append_left _ List.mem_cons_self)

theorem RunRow.idempotency_mem_keys {r : RunRow} {k : String} (h : r.idempotencyKey = some k) :
    .idempotency r.agentId k ∈ r.keys := by
  rw [RunRow.keys, h]
  exact List.mem_append_left _ (List.mem_append_right _ List.mem_cons_self)

theorem RunRow.activeThread_mem_keys {r : RunRow} (h : r.status.isActive = true) :
    .activeThread r.threadId ∈ r.keys := by
  rw [RunRow.keys, h]
  exact List.mem_append_right _ List.mem_cons_self

namespace DbOk

variable {db : Db}

/-- Two rows that share a unique key are one row. -/
theorem unique (h : DbOk db) {a b : RunRow} (ha : a ∈ db.runs) (hb : b ∈ db.runs)
    {k : UniqueKey} (hka : k ∈ a.keys) (hkb : k ∈ b.keys) : a = b := by
  obtain ⟨i, hi, rfl⟩ := List.getElem_of_mem ha
  obtain ⟨j, hj, rfl⟩ := List.getElem_of_mem hb
  have hpair := List.pairwise_iff_getElem.mp h.apart
  rcases Nat.lt_trichotomy i j with hlt | rfl | hlt
  · exact absurd hkb (hpair i j hi hj hlt k hka)
  · rfl
  · exact absurd hka (hpair j i hj hi hlt k hkb)

theorem unique_id (h : DbOk db) {a b : RunRow} (ha : a ∈ db.runs) (hb : b ∈ db.runs)
    (hid : a.id = b.id) : a = b :=
  h.unique ha hb a.run_mem_keys (hid ▸ b.run_mem_keys)

/-- One key, one row. -/
theorem unique_key (h : DbOk db) {a b : RunRow} (ha : a ∈ db.runs) (hb : b ∈ db.runs)
    {k : String} (hagent : a.agentId = b.agentId) (hka : a.idempotencyKey = some k)
    (hkb : b.idempotencyKey = some k) : a = b :=
  h.unique ha hb (RunRow.idempotency_mem_keys hka)
    (hagent ▸ RunRow.idempotency_mem_keys hkb)

/-- One thread, one active row. -/
theorem unique_active (h : DbOk db) {a b : RunRow} (ha : a ∈ db.runs) (hb : b ∈ db.runs)
    (hthread : a.threadId = b.threadId) (haa : a.status.isActive = true)
    (hba : b.status.isActive = true) : a = b :=
  h.unique ha hb (RunRow.activeThread_mem_keys haa)
    (hthread ▸ RunRow.activeThread_mem_keys hba)

end DbOk

theorem RowOk.move {call : Call} {now : Time} {old new : RunRow} (h : RowOk old)
    (hm : RowMove call now old new) : RowOk new := by
  cases hm with
  | expire he =>
    rw [(expire_some he).2.2]
    constructor <;> simp [RunStatus.isActive]
  | @transition token status response code hcall howner hstatus =>
    obtain ⟨hactive, hsucceeded, -⟩ := transitions_active hstatus
    have hnone : old.response = none := by
      rw [← Option.not_isSome_iff_eq_none, h.response]
      rintro hs
      rw [hs] at hactive
      exact absurd hactive (by decide)
    constructor
    · simp [transitioned, hnone, hsucceeded]
    · simp [transitioned, hnone]
    · exact fun hs => absurd hs hsucceeded
    · exact fun _ => h.owner hactive
  | @complete token messages response hcall howner hcheck =>
    have hactive : old.status.isActive = true := by
      rw [(checkCompletion_ok hcheck).1]
      rfl
    obtain ⟨-, lease, hlease, hlt⟩ := ownedBy_active howner hactive
    constructor
    · simp [completed]
    · intro x hx
      rw [← Option.some.inj hx, RuntimeResponse.jsonForm_jsonForm]
    · exact fun _ => ⟨now, lease, rfl, hlease, hlt⟩
    · exact fun ha => absurd ha Bool.false_ne_true
  | settle _ hstatus _ _ _ =>
    constructor
    · rcases hstatus with rfl | rfl <;> simp [settled]
    · exact fun x hx => absurd hx (by simp [settled])
    · rcases hstatus with rfl | rfl <;> exact fun hs => RunStatus.noConfusion hs
    · rcases hstatus with rfl | rfl <;> exact fun ha => absurd ha Bool.false_ne_true

/-- A move of one row keeps the tables in order. -/
theorem DbOk.updateRun {db : Db} {call : Call} {now : Time} {old new : RunRow} (h : DbOk db)
    (hold : old ∈ db.runs) (hm : RowMove call now old new) :
    DbOk (Write.apply db (.updateRun new)) := by
  have hid := hm.unmoved.id
  -- each row keeps its keys or loses some
  have hkeys : ∀ r ∈ db.runs, ∀ k ∈ (if r.id = new.id then new else r).keys, k ∈ r.keys := by
    intro r hr k hk
    by_cases hrid : r.id = new.id
    · rw [if_pos hrid] at hk
      rw [h.unique_id hr hold (hrid.trans hid)]
      exact hm.keys_subset k hk
    · rwa [if_neg hrid] at hk
  constructor
  · show (AgentRuntimeKit.updateRun new db.runs).Pairwise Apart
    rw [AgentRuntimeKit.updateRun, List.pairwise_map]
    refine List.Pairwise.imp_of_mem ?_ h.apart
    exact fun ha hb hapart k hk hk' => hapart k (hkeys _ ha k hk) (hkeys _ hb k hk')
  · intro r hr
    rcases mem_updateRun.mp hr with ⟨rfl, -⟩ | ⟨hr, -⟩
    · exact (h.rows old hold).move hm
    · exact h.rows r hr
  · exact h.sequences

theorem DbOk.insertRun {db : Db} {row : RunRow} (h : DbOk db) (hrow : RowOk row)
    (hapart : ∀ r ∈ db.runs, Apart r row) : DbOk (Write.apply db (.insertRun row)) := by
  constructor
  · refine List.pairwise_append.mpr ⟨h.apart, List.pairwise_singleton _ _, ?_⟩
    intro r hr r' hr'
    rw [List.mem_singleton.mp hr']
    exact hapart r hr
  · intro r hr
    rcases List.mem_append.mp hr with hr | hr
    · exact h.rows r hr
    · rw [List.mem_singleton.mp hr]
      exact hrow
  · exact h.sequences

theorem DbOk.insertThread {db : Db} {row : ThreadRow} (h : DbOk db) :
    DbOk (Write.apply db (.insertThread row)) := ⟨h.apart, h.rows, h.sequences⟩

-- ---------------------------------------------------------------------------
-- Message batches
-- ---------------------------------------------------------------------------

theorem numbered_thread {t : Uuid} {messages : List Message} :
    ∀ last, ∀ row ∈ numbered t last messages, row.threadId = t := by
  induction messages with
  | nil => exact fun _ row hrow => absurd hrow List.not_mem_nil
  | cons m rest ih =>
    intro last row hrow
    rcases List.mem_cons.mp hrow with rfl | hrow
    · rfl
    · exact ih _ row hrow

theorem numbered_sequence (t : Uuid) (messages : List Message) :
    ∀ last, (numbered t last messages).map MessageRow.sequence =
      List.range' (last + 1) messages.length := by
  induction messages with
  | nil => exact fun _ => rfl
  | cons m rest ih =>
    intro last
    rw [numbered, List.map_cons, ih, List.length_cons, List.range'_succ]

theorem numbered_message (t : Uuid) (messages : List Message) :
    ∀ last, (numbered t last messages).map MessageRow.message = messages := by
  induction messages with
  | nil => exact fun _ => rfl
  | cons m rest ih =>
    intro last
    rw [numbered, List.map_cons, ih]

theorem numbered_length (t : Uuid) (messages : List Message) (last : Nat) :
    (numbered t last messages).length = messages.length := by
  have h := congrArg List.length (numbered_message t messages last)
  rwa [List.length_map] at h

/-- A batch goes to the end of its own thread and leaves the others alone. -/
theorem messagesOf_insert (db : Db) (t t' : Uuid) (last : Nat) (messages : List Message) :
    (Write.apply db (.insertMessages (numbered t last messages))).messagesOf t' =
      db.messagesOf t' ++ (if t = t' then numbered t last messages else []) := by
  show (db.messages ++ numbered t last messages).filter _ = _
  rw [List.filter_append, Db.messagesOf]
  congr 1
  by_cases ht : t = t'
  · rw [if_pos ht, List.filter_eq_self]
    intro row hrow
    rw [numbered_thread last row hrow, ht]
    exact decide_eq_true rfl
  · rw [if_neg ht, List.filter_eq_nil_iff]
    intro row hrow
    rw [numbered_thread last row hrow]
    simpa using ht

theorem foldr_max_range' (n : Nat) : ∀ s, (List.range' (s + 1) n).foldr max 0 =
    if n = 0 then 0 else s + n := by
  induction n with
  | zero => exact fun _ => rfl
  | succ n ih =>
    intro s
    rw [List.range'_succ, List.foldr_cons, ih, if_neg (Nat.succ_ne_zero n)]
    split
    · omega
    · omega

/-- The last sequence number of a thread is the number of its messages. -/
theorem DbOk.lastSequence {db : Db} (h : DbOk db) (t : Uuid) :
    db.lastSequence t = (db.messagesOf t).length := by
  rw [Db.lastSequence, h.sequences t, foldr_max_range']
  split
  next hzero => exact hzero.symm
  next => omega

/-- `ORDER BY sequence` changes nothing: the table is in order already. -/
theorem DbOk.transcript {db : Db} (h : DbOk db) (t : Uuid) : db.transcript t = db.messagesOf t := by
  rw [Db.transcript]
  refine List.mergeSort_of_pairwise ?_
  have hsorted : ((db.messagesOf t).map MessageRow.sequence).Pairwise (· ≤ ·) := by
    rw [h.sequences t]
    exact List.pairwise_le_range'
  rw [List.pairwise_map] at hsorted
  exact hsorted.imp fun hle => decide_eq_true hle

theorem DbOk.insertMessages {db : Db} {t : Uuid} {messages : List Message} (h : DbOk db) :
    DbOk (Write.apply db (.insertMessages (numbered t (db.lastSequence t) messages))) := by
  refine ⟨h.apart, h.rows, fun t' => ?_⟩
  rw [messagesOf_insert]
  by_cases ht : t = t'
  · subst ht
    rw [if_pos rfl, List.map_append, h.sequences, numbered_sequence, List.length_append,
      numbered_length, h.lastSequence, Nat.add_comm _ 1, List.range'_append_1]
  · rw [if_neg ht, List.append_nil]
    exact h.sequences t'

end AgentRuntimeKit
