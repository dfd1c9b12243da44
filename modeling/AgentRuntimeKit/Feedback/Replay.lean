import AgentRuntimeKit.Feedback.Invariant

/-!
# Replays

What becomes of one submission, amid any steps of anybody else. A submission looks for its key
twice, when it begins and when it inserts. Where it finds the key in use, it ends in what the row
with that key answers; where it ends in an exception, it has left the table alone.

## Results

* `watch_replay` — the key in use leads to a replay.
* `watch_spare`  — an exception leaves nothing behind.
-/

namespace AgentRuntimeKit.Feedback

open Lib Prog

/-- A row with the key of the submission is committed. -/
def Occupied (submission : FeedbackSubmission) (w : World) : Prop :=
  ∃ row ∈ w.rows, row.idempotencyKey = submission.idempotencyKey

/-- The statements that look for a key. -/
def Op.looks : Op → Bool
  | byKey _ | insert _ => true
  | _ => false

/-- The statement does not meet the key of the submission. -/
def KeyFree (submission : FeedbackSubmission) (w : World) (o : Op) : Prop :=
  o.looks = true → ¬Occupied submission w

/-- The statement changes neither the table nor what is inserted in it. -/
def Spares (p : Pid) (w : World) (o : Op) : Prop :=
  ∀ ch r w' fs, exec p w o ch = some (r, w', fs) → w'.rows = w.rows ∧ w'.inserted = w.inserted

/-- No statement fails. -/
def replayWatch (submission : FeedbackSubmission) : Watch World Op Choice where
  may _ _ ch := ch = .ok
  must _ _ := True
  good := KeyFree submission

def spareWatch (p : Pid) : Watch World Op Choice where
  may _ _ ch := ch = .ok
  must _ _ := True
  good := Spares p

/-- A row with the key of the submission answers it. -/
def Replayed (submission : FeedbackSubmission) (hash : String) (r : Except Exn FeedbackRecord)
    (w : World) : Prop :=
  ∃ row ∈ w.rows, row.idempotencyKey = submission.idempotencyKey ∧ r = replay row hash

section Watches

variable {payloadHash : FeedbackSubmission → String} {p : Pid} {α : Type}
  {V : Watch World Op Choice} {φ : Prop} {A : World → Prop}
  {Q : Prop → Except Exn α → World → Prop}

theorem Occupied.stable (submission : FeedbackSubmission) :
    (feedback payloadHash).Stable p (Occupied submission) := by
  rintro w w' - - ho ⟨row, hrow, hkey⟩
  exact ⟨row, ho.1.rows.subset hrow, hkey⟩

theorem Replayed.stable (submission : FeedbackSubmission) (hash : String)
    (r : Except Exn FeedbackRecord) :
    (feedback payloadHash).Stable p (Replayed submission hash r) := by
  rintro w w' - - ho ⟨row, hrow, hkey⟩
  exact ⟨row, ho.1.rows.subset hrow, hkey⟩

/-- The one row with a key. -/
theorem Inv.filter_key {w : World} (h : Inv w) {row : FeedbackRow} (hrow : row ∈ w.rows) :
    w.rows.filter (fun r => r.idempotencyKey = row.idempotencyKey) = [row] := by
  have hnodup : (w.rows.map FeedbackRow.idempotencyKey).Nodup := by
    have hkeys := h.keys
    rw [World.all, List.map_append] at hkeys
    exact hkeys.of_append_left
  generalize w.rows = rows at hrow hnodup
  induction rows with
  | nil => exact absurd hrow List.not_mem_nil
  | cons r rest ih =>
    obtain ⟨hnotin, hrest⟩ := List.nodup_cons.mp hnodup
    rcases List.mem_cons.mp hrow with rfl | hmem
    · rw [List.filter_cons_of_pos (by simp), List.filter_eq_nil_iff.mpr fun r hr heq => ?_]
      exact hnotin (of_decide_eq_true heq ▸ List.mem_map_of_mem hr)
    · rw [List.filter_cons_of_neg (fun heq => ?_), ih hmem hrest]
      exact hnotin (of_decide_eq_true heq ▸ List.mem_map_of_mem hmem)

/-- A query that is good. -/
theorem watches_query {o : Op} {f : Res o → P α} (hmay : ∀ w o ch, V.may w o ch → ch = .ok)
    (hmust : ∀ w o, V.must w o) (hgood : ∀ w, V.good w o) (ho : o.isQuery = true)
    (hA : (feedback payloadHash).Stable p A)
    (hf : ∀ a, (feedback payloadHash).Watches (machine payloadHash) p V φ A (f a) Q) :
    (feedback payloadHash).Watches (machine payloadHash) p V φ A (perform o >>= f) Q := by
  refine Discipline.Watches.op (B := fun r w => (∃ a, r = .ok a) ∧ A w) hA
    (fun w _ _ => hmust w o) hgood (fun w ch r w' fs _ _ ha hch hx => ?_) fun r => ?_
  · obtain rfl := hmay w o ch hch
    replace hx : exec p w o .ok = some (r, w', fs) := hx
    obtain ⟨rfl, -⟩ := exec_query ho hx
    refine ⟨?_, ha⟩
    cases o <;> first
      | exact absurd ho Bool.false_ne_true
      | (obtain ⟨rfl, -⟩ : _ ∧ _ := by
          simpa only [exec, execOk, answer, Option.some.injEq, Prod.mk.injEq] using hx
         exact ⟨_, rfl⟩)
  · cases r with
    | error e =>
      rintro w - ⟨⟨a, h⟩, -⟩
      exact absurd h (by simp)
    | ok a => exact (hf a).pre fun w _ h => h.2

theorem watches_lift {β : Type} {r : Except Exn β} {f : β → P α}
    (hA : (feedback payloadHash).Stable p A) (herror : ∀ e w, A w → Q φ (.error e) w)
    (hf : ∀ b, r = .ok b →
      (feedback payloadHash).Watches (machine payloadHash) p V φ A (f b) Q) :
    (feedback payloadHash).Watches (machine payloadHash) p V φ A (lift r >>= f) Q := by
  cases r with
  | error e => exact .done hA fun w _ ha => herror e w ha
  | ok b => exact hf b rfl

/-- The checks before the insert. -/
theorem watches_recordNew {submission : FeedbackSubmission} {hash : String}
    {Q : Prop → Except Exn FeedbackRecord → World → Prop}
    (hmay : ∀ w o ch, V.may w o ch → ch = .ok) (hmust : ∀ w o, V.must w o)
    (hgood : ∀ w o, o.isQuery = true → o.looks = false → V.good w o)
    (hA : (feedback payloadHash).Stable p A) (herror : ∀ e w, A w → Q φ (.error e) w)
    (hinsert : (feedback payloadHash).Watches (machine payloadHash) p V φ A
      (insertRow submission hash) Q) :
    (feedback payloadHash).Watches (machine payloadHash) p V φ A (recordNew submission hash) Q := by
  unfold recordNew
  refine watches_query hmay hmust (fun w => hgood w _ rfl rfl) rfl hA fun runs => ?_
  refine watches_lift hA herror fun run _ => watches_lift hA herror fun _ _ => ?_
  cases submission.supersedesFeedbackId with
  | none => exact hinsert
  | some id =>
    refine watches_query hmay hmust (fun w => hgood w _ rfl rfl) rfl hA fun rows => ?_
    exact watches_lift hA herror fun superseded _ => watches_lift hA herror fun _ _ => hinsert

/-- The last statement of a transaction. -/
theorem watches_last {o : Op} {r : Except Exn α} {f : Except Exn (Res o) → P α} {b : Bool}
    (hmay : ∀ w o ch, V.may w o ch → ch = .ok) (hmust : ∀ w o, V.must w o)
    (hQ : ∀ φ, (feedback payloadHash).Stable p (Q φ r))
    (hok : ∀ w a w' fs, exec p w o .ok = some (a, w', fs) →
      (∃ u, a = .ok u) ∧ w' = w.endSession p b)
    (hlast : ∀ w, Q φ r w → Q (φ ∧ V.good w o) r (w.endSession p b))
    (hf : ∀ u, f (.ok u) = .done r) :
    (feedback payloadHash).Watches (machine payloadHash) p V φ (Q φ r) (.op o f) Q := by
  have hdone : ∀ φ' a, (feedback payloadHash).Watches (machine payloadHash) p V φ'
      (fun w => (∃ u, a = .ok u) ∧ Q φ' r w) (f a) Q := by
    rintro φ' (e | u)
    · rintro w - ⟨⟨u, h⟩, -⟩
      exact absurd h (by simp)
    · rw [hf u]
      exact Discipline.Watches.pre (fun w _ h => h.2) (.done (hQ φ') fun _ _ h => h)
  refine Discipline.Watches.branch (B := fun a w => (∃ u, a = .ok u) ∧ Q φ r w)
    (C := fun a w => (∃ u, a = .ok u) ∧ Q False r w) (hQ φ) (fun w _ _ => hmust w o)
    (fun w ch a w' fs _ _ hq hch hx => ?_) (hdone φ) (hdone False)
  obtain rfl := hmay w o ch hch
  obtain ⟨hanswer, rfl⟩ := hok w a w' fs hx
  have hend := hlast w hq
  refine ⟨fun hgood => ⟨hanswer, ?_⟩, fun hbad => ⟨hanswer, ?_⟩⟩
  · rwa [propext (and_iff_left hgood)] at hend
  · rwa [show (φ ∧ V.good w o) = False from propext (iff_false_intro fun h => hbad h.2)] at hend

/-- A transaction ends as its body does. -/
theorem watches_inTransaction {body : P α} (hmay : ∀ w o ch, V.may w o ch → ch = .ok)
    (hmust : ∀ w o, V.must w o) (hA : (feedback payloadHash).Stable p A)
    (hbegin : ∀ w, V.good w .begin)
    (hstart : ∀ w r w' fs, A w → exec p w .begin .ok = some (r, w', fs) → A w')
    (hQ : ∀ φ r, (feedback payloadHash).Stable p (Q φ r))
    (hcommit : ∀ φ a w, Q φ (.ok a) w →
      Q (φ ∧ V.good w .commit) (.ok a) (w.endSession p true))
    (hrollback : ∀ φ e w, Q φ (.error e) w →
      Q (φ ∧ V.good w .rollback) (.error e) (w.endSession p false))
    (hbody : (feedback payloadHash).Watches (machine payloadHash) p V φ A body Q) :
    (feedback payloadHash).Watches (machine payloadHash) p V φ A (inTransaction body) Q := by
  unfold inTransaction
  refine Discipline.Watches.op (B := fun r w => (∃ u, r = .ok u) ∧ A w) hA
    (fun w _ _ => hmust w .begin) hbegin (fun w ch r w' fs _ _ ha hch hx => ?_) fun r => ?_
  · obtain rfl := hmay w .begin ch hch
    replace hx : exec p w .begin .ok = some (r, w', fs) := hx
    refine ⟨?_, hstart w r w' fs ha hx⟩
    simp only [exec, execOk, answer] at hx
    split at hx
    · obtain ⟨rfl, -⟩ : _ ∧ _ := by
        simpa only [Option.some.injEq, Prod.mk.injEq] using hx
      exact ⟨(), rfl⟩
    · exact absurd hx (by simp)
  · rcases r with e | u
    · rintro w - ⟨⟨u, h⟩, -⟩
      exact absurd h (by simp)
    · refine Discipline.Watches.pre (fun w _ h => h.2) ?_
      refine Discipline.Watches.handle (m := body.attempt)
        (R := fun φ r w => ∃ r', r = .ok r' ∧ Q φ r' w) ?_ fun φ' r => ?_
      · exact Discipline.Watches.handle hbody fun φ' r =>
          .done (hQ φ' r) fun w _ hq => ⟨r, rfl, hq⟩
      · refine Discipline.Watches.exists fun r' => ?_
        rintro w hw ⟨rfl, hq⟩
        cases r' with
        | error e =>
          refine watches_last (b := false) hmay hmust (fun φ => hQ φ (.error e))
            (fun w a w' fs hx => ?_) (fun w hq => hrollback φ' e w hq) (fun u => rfl) w hw hq
          obtain ⟨rfl, rfl, -⟩ : _ ∧ _ ∧ _ := by
            simpa only [exec, execOk, answer, Option.some.injEq, Prod.mk.injEq] using hx
          exact ⟨⟨(), rfl⟩, rfl⟩
        | ok a =>
          refine watches_last (b := true) hmay hmust (fun φ => hQ φ (.ok a))
            (fun w a' w' fs hx => ?_) (fun w hq => hcommit φ' a w hq) (fun u => rfl) w hw hq
          obtain ⟨rfl, rfl, -⟩ : _ ∧ _ ∧ _ := by
            simpa only [exec, execOk, answer, Option.some.injEq, Prod.mk.injEq] using hx
          exact ⟨⟨(), rfl⟩, rfl⟩

-- ---------------------------------------------------------------------------
-- The key in use
-- ---------------------------------------------------------------------------

/-- What a submission ends in, if it has met its key. -/
def ReplayPost (submission : FeedbackSubmission) (hash : String) (φ : Prop)
    (r : Except Exn FeedbackRecord) (w : World) : Prop :=
  ¬φ → Replayed submission hash r w

theorem ReplayPost.stable (submission : FeedbackSubmission) (hash : String) (φ : Prop)
    (r : Except Exn FeedbackRecord) :
    (feedback payloadHash).Stable p (ReplayPost submission hash φ r) :=
  fun w w' hi hi' ho h hφ => Replayed.stable submission hash r w w' hi hi' ho (h hφ)

/-- The answer of the query by key. -/
theorem exec_byKey {w w' : World} {key : String} {r : Except Exn (List FeedbackRow)} {fs : Forks}
    (hown : w.own p = []) (h : exec p w (.byKey key) .ok = some (r, w', fs)) :
    w' = w ∧ r = .ok (w.rows.filter fun row => row.idempotencyKey = key) := by
  obtain ⟨rfl, rfl, -⟩ : _ ∧ _ ∧ _ := by
    simpa only [exec, execOk, answer, Option.some.injEq, Prod.mk.injEq] using h
  rw [World.view, hown, List.append_nil]
  exact ⟨rfl, rfl⟩

/-- The insert does nothing iff the key is in use. -/
theorem exec_insert {w w' : World} {row : FeedbackRow} {r : Except Exn (Option FeedbackRow)}
    {fs : Forks} (hown : w.own p = [])
    (h : exec p w (.insert row) .ok = some (r, w', fs)) :
    (r = .ok none ↔ ∃ old ∈ w.rows, old.idempotencyKey = row.idempotencyKey) ∧
      (r = .ok none → w' = w) := by
  replace h : execOk p w (.insert row) = some (r, w', fs) := h
  have hview : w.view p = w.rows := by rw [World.view, hown, List.append_nil]
  simp only [execOk, answer, hview] at h
  split at h
  · split at h
    · next hused =>
      obtain ⟨rfl, rfl, -⟩ : _ ∧ _ ∧ _ := by
        simpa only [Option.some.injEq, Prod.mk.injEq] using h
      exact ⟨iff_of_true rfl (by simpa using hused), fun _ => rfl⟩
    · next hfree =>
      have hr : r ≠ .ok none := by
        rintro rfl
        repeat' split at h
        all_goals exact absurd h (by simp)
      exact ⟨iff_of_false hr (by simpa using hfree), fun h => absurd h hr⟩
  · exact absurd h (by simp)

variable (submission : FeedbackSubmission) (hash : String)

/-- What a lookup of the key finds in use. -/
theorem watch_existing {rows : List FeedbackRow} {row : FeedbackRow} (hrows : rows = [row]) :
    (feedback payloadHash).Watches (machine payloadHash) p (replayWatch submission) φ
      (fun w => row ∈ w.rows ∧ row.idempotencyKey = submission.idempotencyKey)
      (lift (scalarOne rows) >>= fun existing => lift (replay existing hash))
      (ReplayPost submission hash) := by
  subst hrows
  show (feedback payloadHash).Watches _ p _ φ _ (.done (replay row hash)) _
  refine Discipline.Watches.done (fun w w' _ _ ho h => ⟨ho.1.rows.subset h.1, h.2⟩) ?_
  exact fun w _ h _ => ⟨row, h.1, h.2, rfl⟩

theorem watch_insertRow :
    (feedback payloadHash).Watches (machine payloadHash) p (replayWatch submission) φ
      (fun w => Started p w ∧ φ) (insertRow submission hash) (ReplayPost submission hash) := by
  unfold insertRow
  refine Discipline.Watches.branch (B := fun r _ => r ≠ .ok none ∧ φ)
    (C := fun r w => r = .ok none ∧ Started p w ∧ Occupied submission w)
    (Started.stable.and (.const φ)) (fun _ _ _ => trivial)
    (fun w ch r w' fs _ _ h hch hx => ⟨fun hgood => ⟨?_, h.2⟩, fun hbad => ?_⟩) ?_ ?_
  · obtain rfl : ch = .ok := hch
    exact fun hnone => hgood rfl ((exec_insert h.1.own hx).1.mp hnone)
  · obtain rfl : ch = .ok := hch
    have hused : Occupied submission w := by
      by_contra hfree
      exact hbad fun _ => hfree
    obtain ⟨hiff, hsame⟩ := exec_insert h.1.own hx
    have hnone := hiff.mpr hused
    obtain rfl := hsame hnone
    exact ⟨hnone, h.1, hused⟩
  · rintro (e | _ | row)
    · exact .done (.const _) fun w _ h hφ => absurd h.2 hφ
    · rintro w - ⟨h, -⟩
      exact absurd rfl h
    · exact .done (.const _) fun w _ h hφ => absurd h.2 hφ
  · rintro (e | _ | row)
    · rintro w - ⟨h, -⟩
      exact absurd h (by simp)
    · refine Discipline.Watches.branch (B := fun _ _ => False)
        (C := fun r w => ∃ row, r = .ok [row] ∧ row ∈ w.rows ∧
          row.idempotencyKey = submission.idempotencyKey)
        ((Discipline.Stable.const _).and (Started.stable.and (Occupied.stable _)))
        (fun _ _ _ => trivial) (fun w ch r w' fs hi _ h hch hx => ?_)
        (fun _ _ _ h => h.elim) fun r => ?_
      · obtain rfl : ch = .ok := hch
        obtain ⟨rfl, rfl⟩ := exec_byKey h.2.1.own hx
        refine ⟨fun hgood => hgood rfl h.2.2, fun _ => ?_⟩
        obtain ⟨row, hrow, hkey⟩ := h.2.2
        refine ⟨row, ?_, hrow, hkey⟩
        rw [← hkey]
        exact congrArg Except.ok (hi.filter_key hrow)
      · refine Discipline.Watches.exists fun row => ?_
        rintro w hw ⟨rfl, h⟩
        exact watch_existing submission hash rfl w hw h
    · rintro w - ⟨h, -⟩
      exact absurd h (by simp)

theorem watch_recordIn :
    (feedback payloadHash).Watches (machine payloadHash) p (replayWatch submission) φ
      (fun w => Started p w ∧ (¬φ → Occupied submission w)) (recordIn submission hash)
      (ReplayPost submission hash) := by
  have hoccupied : (feedback payloadHash).Stable p fun w => ¬φ → Occupied submission w :=
    fun w w' hi hi' ho h hφ => Occupied.stable submission w w' hi hi' ho (h hφ)
  unfold recordIn
  refine Discipline.Watches.branch (B := fun r w => r = .ok [] ∧ Started p w ∧ φ)
    (C := fun r w => ∃ row, r = .ok [row] ∧ row ∈ w.rows ∧
      row.idempotencyKey = submission.idempotencyKey) (Started.stable.and hoccupied)
    (fun _ _ _ => trivial) (fun w ch r w' fs hi _ h hch hx => ?_) ?_ fun r => ?_
  · obtain rfl : ch = .ok := hch
    obtain ⟨rfl, rfl⟩ := exec_byKey h.1.own hx
    refine ⟨fun hgood => ⟨?_, h.1, by_contra fun hφ => hgood rfl (h.2 hφ)⟩, fun hbad => ?_⟩
    · refine congrArg Except.ok (List.filter_eq_nil_iff.mpr fun row hrow heq => ?_)
      exact hgood rfl ⟨row, hrow, of_decide_eq_true heq⟩
    · obtain ⟨row, hrow, hkey⟩ : Occupied submission w' := by
        by_contra hfree
        exact hbad fun _ => hfree
      refine ⟨row, ?_, hrow, hkey⟩
      rw [← hkey]
      exact congrArg Except.ok (hi.filter_key hrow)
  · rintro (e | rows) w hw ⟨h, hstarted⟩
    · exact absurd h (by simp)
    · injection h with h
      subst h
      refine watches_recordNew (A := fun w => Started p w ∧ φ) (fun _ _ _ h => h)
        (fun _ _ => trivial) (fun w o _ hlooks h => ?_) (Started.stable.and (.const φ))
        (fun e w h hφ => absurd h.2 hφ) (watch_insertRow submission hash) w hw hstarted
      rw [hlooks] at h
      exact absurd h Bool.false_ne_true
  · refine Discipline.Watches.exists fun row => ?_
    rintro w hw ⟨rfl, h⟩
    exact watch_existing submission hash rfl w hw h

/-- The key in use leads to a replay. -/
theorem watch_replay :
    (feedback payloadHash).Watches (machine payloadHash) p (replayWatch submission) φ
      (fun w => Started p w ∧ (¬φ → Occupied submission w)) (record payloadHash submission)
      (ReplayPost submission (payloadHash submission)) := by
  have hlooks : ∀ w o, o.looks = false → (replayWatch submission).good w o := by
    intro w o ho h
    rw [ho] at h
    exact absurd h Bool.false_ne_true
  have hend : ∀ (φ : Prop) r w (o : Op) b, o.looks = false →
      ReplayPost submission (payloadHash submission) φ r w →
      ReplayPost submission (payloadHash submission) (φ ∧ (replayWatch submission).good w o) r
        (w.endSession p b) := by
    intro φ r w o b ho h hφ
    obtain ⟨row, hrow, hkey⟩ := h fun hφ' => hφ ⟨hφ', hlooks w o ho⟩
    exact ⟨row, List.mem_append_left _ hrow, hkey⟩
  refine watches_inTransaction (fun _ _ _ h => h) (fun _ _ => trivial)
    (Started.stable.and fun w w' hi hi' ho h hφ =>
      Occupied.stable submission w w' hi hi' ho (h hφ))
    (fun w => hlooks w _ rfl) (fun w r w' fs h hx => ?_)
    (ReplayPost.stable submission _) (fun φ a w => hend φ _ w _ _ rfl)
    (fun φ e w => hend φ _ w _ _ rfl) (watch_recordIn submission _)
  obtain ⟨htask, hinserted, hrows⟩ := exec_begin hx
  refine ⟨⟨by rw [htask]; exact h.1.task, ?_⟩, ?_⟩
  · rw [World.own, hinserted]
    exact h.1.own
  · unfold Occupied
    rw [hrows]
    exact h.2

-- ---------------------------------------------------------------------------
-- Exceptions
-- ---------------------------------------------------------------------------

/-- What an exception leaves behind. -/
def SparePost (p : Pid) (φ : Prop) (r : Except Exn α) (w : World) : Prop :=
  ∀ e, r = .error e → φ ∧ w.own p = []

theorem SparePost.stable (φ : Prop) (r : Except Exn α) :
    (feedback payloadHash).Stable p (SparePost p φ r) := by
  intro w w' _ _ ho h e he
  exact ⟨(h e he).1, ho.1.own.trans (h e he).2⟩

theorem spares_query {w : World} {o : Op} (ho : o.isQuery = true) : Spares p w o := by
  intro ch r w' fs hx
  rw [(exec_query ho hx).1]
  exact ⟨rfl, rfl⟩

theorem spares_begin (w : World) : Spares p w .begin :=
  fun _ _ _ _ hx => ⟨(exec_begin hx).2.2, (exec_begin hx).2.1⟩

/-- To end a transaction that has inserted nothing is to change nothing. -/
theorem endSession_spares {w : World} (hown : w.own p = []) (committed : Bool) :
    (w.endSession p committed).rows = w.rows ∧
      (w.endSession p committed).inserted = w.inserted := by
  constructor
  · show w.rows ++ (if committed then w.own p else []) = w.rows
    rw [hown, ite_self, List.append_nil]
  · refine List.filter_eq_self.mpr fun e he => ?_
    have hnot : e.1 ≠ some p := by
      intro hp
      have hmem : e.2 ∈ w.own p := mem_own.mpr (hp ▸ he)
      rw [hown] at hmem
      exact absurd hmem List.not_mem_nil
    simp [hnot]

theorem spares_rollback {w : World} (hown : w.own p = []) : Spares p w .rollback := by
  intro ch r w' fs hx
  cases ch
  all_goals simp only [exec, execOk, answer] at hx
  case ok =>
    obtain ⟨-, rfl, -⟩ : _ ∧ _ ∧ _ := by
      simpa only [Option.some.injEq, Prod.mk.injEq] using hx
    exact endSession_spares hown false
  case fail e =>
    split at hx
    · obtain ⟨-, rfl, -⟩ : _ ∧ _ ∧ _ := by
        simpa only [Option.some.injEq, Prod.mk.injEq] using hx
      exact endSession_spares hown false
    · exact absurd hx (by simp)
  all_goals exact absurd hx (by simp)

/-- The insert spares the table unless it succeeds. -/
theorem spares_insert {w : World} {row : FeedbackRow} {r : Except Exn (Option FeedbackRow)}
    {fs : Forks} (h : exec p w (.insert row) .ok = some (r, w, fs)) : Spares p w (.insert row) := by
  intro ch a w' fs' hx
  cases ch with
  | ok =>
    obtain ⟨-, rfl, -⟩ : _ ∧ _ ∧ _ := by
      simpa only [Option.some.injEq, Prod.mk.injEq] using hx.symm.trans h
    exact ⟨rfl, rfl⟩
  | fail e =>
    simp only [exec, answer] at hx
    split at hx
    · obtain ⟨-, rfl, -⟩ : _ ∧ _ ∧ _ := by
        simpa only [Option.some.injEq, Prod.mk.injEq] using hx
      exact ⟨rfl, rfl⟩
    · exact absurd hx (by simp)
  | _ => exact absurd hx (by simp [exec])

theorem spare_insertRow :
    (feedback payloadHash).Watches (machine payloadHash) p (spareWatch p) φ
      (fun w => Started p w ∧ φ) (insertRow submission hash) (SparePost p) := by
  unfold insertRow
  refine Discipline.Watches.branch (B := fun _ w => Started p w ∧ φ)
    (C := fun r _ => ∃ row, r = .ok (some row)) (Started.stable.and (.const φ))
    (fun _ _ _ => trivial) (fun w ch r w' fs _ _ h hch hx => ?_) ?_ ?_
  · obtain rfl : ch = .ok := hch
    replace hx : exec p w (.insert (submission.row hash)) .ok = some (r, w', fs) := hx
    refine ⟨fun hgood => ⟨⟨?_, ?_⟩, h.2⟩, fun hbad => ?_⟩
    · obtain ⟨-, rfl | ⟨begun, -, -, -, -, rfl⟩⟩ := execOk_insert hx
      · exact h.1.task
      · exact h.1.task
    · rw [World.own, (hgood _ _ _ _ hx).2]
      exact h.1.own
    · obtain ⟨-, rfl | ⟨begun, -, -, -, hr, -⟩⟩ := execOk_insert hx
      · exact absurd (spares_insert hx) hbad
      · exact ⟨_, hr⟩
  · have hdone : ∀ r : Except Exn FeedbackRecord,
        (feedback payloadHash).Watches (machine payloadHash) p (spareWatch p) φ
          (fun w => Started p w ∧ φ) (.done r) (SparePost p) := fun r =>
      .done (Started.stable.and (.const φ)) fun w _ h _ _ => ⟨h.2, h.1.own⟩
    rintro (e | _ | row)
    · exact hdone _
    · refine watches_query (fun _ _ _ h => h) (fun _ _ => trivial) (fun w => spares_query rfl) rfl
        (Started.stable.and (.const φ)) fun rows => ?_
      refine watches_lift (Started.stable.and (.const φ)) (fun e w h _ _ => ⟨h.2, h.1.own⟩) ?_
      exact fun existing _ => hdone _
    · exact hdone _
  · intro r
    refine Discipline.Watches.exists fun row => ?_
    rintro w hw rfl
    exact Discipline.Watches.done (.const True) (fun _ _ _ e he => absurd he (by simp)) w hw trivial

/-- An exception leaves nothing behind. -/
theorem watch_spare :
    (feedback payloadHash).Watches (machine payloadHash) p (spareWatch p) φ
      (fun w => Started p w ∧ φ) (record payloadHash submission) (SparePost p) := by
  have hA : (feedback payloadHash).Stable p fun w => Started p w ∧ φ :=
    Started.stable.and (.const φ)
  have herror : ∀ e w, Started p w ∧ φ →
      SparePost p φ (.error e : Except Exn FeedbackRecord) w :=
    fun e w h _ _ => ⟨h.2, h.1.own⟩
  refine watches_inTransaction (fun _ _ _ h => h) (fun _ _ => trivial) hA spares_begin
    (fun w r w' fs h hx => ?_) SparePost.stable (fun φ a w _ e he => absurd he (by simp))
    (fun φ e w h e' he => ?_) ?_
  · obtain ⟨htask, hinserted, -⟩ := exec_begin hx
    refine ⟨⟨by rw [htask]; exact h.1.task, ?_⟩, h.2⟩
    rw [World.own, hinserted]
    exact h.1.own
  · obtain ⟨hφ, hown⟩ := h e rfl
    refine ⟨⟨hφ, spares_rollback hown⟩, ?_⟩
    rw [World.own, (endSession_spares hown false).2]
    exact hown
  · unfold recordIn
    refine watches_query (fun _ _ _ h => h) (fun _ _ => trivial) (fun w => spares_query rfl) rfl hA
      fun rows => watches_lift hA herror fun existing _ => ?_
    cases existing with
    | some existing => exact .done hA fun w _ h _ _ => ⟨h.2, h.1.own⟩
    | none =>
      exact watches_recordNew (fun _ _ _ h => h) (fun _ _ => trivial)
        (fun w o ho _ => spares_query ho) hA herror (spare_insertRow submission _)

end Watches

end AgentRuntimeKit.Feedback
