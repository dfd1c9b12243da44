import AgentRuntimeKit.Feedback.Exec
import AgentRuntimeKit.Lib.Watching
import AgentRuntimeKit.Protocol.History

/-!
# The invariant of the feedback store

The table only grows, and `Grown` says how: each row is on target, and supersedes a row before it.
What a target needs of the run store stays as it is, since the run has succeeded.

## Results

* `exec_effect`   — what a statement can do.
* `Inv.effect`    — it keeps the invariant, if what it inserts may be inserted.
* `sound`         — the invariant holds in every reachable configuration.
-/

namespace AgentRuntimeKit.Feedback

open Lib Prog

-- ---------------------------------------------------------------------------
-- Rows
-- ---------------------------------------------------------------------------

/-- The rows have one target. -/
structure SameTarget (a b : FeedbackRow) : Prop where
  runId : a.runId = b.runId
  targetType : a.targetType = b.targetType
  targetId : a.targetId = b.targetId

/-- The target of the row is part of its run, which has succeeded. -/
def OnTarget (store : AgentRuntimeKit.Cfg) (row : FeedbackRow) : Prop :=
  ∃ run ∈ store.world.db.runs, run.id = row.runId ∧ run.status = .succeeded ∧
    ∃ response, run.response = some response ∧
      isTarget row.targetType row.targetId run response = true

/-- What the row supersedes is among these, with the same target. -/
def SupersedesIn (rows : List FeedbackRow) (row : FeedbackRow) : Prop :=
  ∀ id, row.supersedesFeedbackId = some id → ∃ old ∈ rows, old.id = id ∧ SameTarget old row

/-- A table of feedback: each row is on target and supersedes a row before it. -/
inductive Grown (store : AgentRuntimeKit.Cfg) : List FeedbackRow → Prop
  | nil : Grown store []
  | snoc {rows : List FeedbackRow} {row : FeedbackRow} (h : Grown store rows)
      (htarget : OnTarget store row) (hsupersedes : SupersedesIn rows row) :
      Grown store (rows ++ [row])

theorem SupersedesIn.mono {rows rows' : List FeedbackRow} {row : FeedbackRow}
    (h : SupersedesIn rows row) (hsub : rows ⊆ rows') : SupersedesIn rows' row := by
  intro id hid
  obtain ⟨old, hold, hsame⟩ := h id hid
  exact ⟨old, hsub hold, hsame⟩

theorem Grown.append {store : AgentRuntimeKit.Cfg} {rows new : List FeedbackRow}
    (h : Grown store rows) (hnew : ∀ row ∈ new, OnTarget store row ∧ SupersedesIn rows row) :
    Grown store (rows ++ new) := by
  induction new using List.reverseRecOn with
  | nil => rwa [List.append_nil]
  | append_singleton new row ih =>
    have hlast := hnew row List.mem_append_cons_self
    rw [← List.append_assoc]
    refine .snoc (ih fun r hr => hnew r (List.mem_append_left _ hr)) hlast.1 ?_
    exact hlast.2.mono fun _ => List.mem_append_left _

/-- A run that has succeeded stays what it is. -/
theorem OnTarget.reaches {store store' : AgentRuntimeKit.Cfg} {row : FeedbackRow}
    (h : OnTarget store row) (hstore : AgentRuntimeKit.Reachable false store)
    (hr : AgentRuntimeKit.machine.Reaches (Legal false) store store') : OnTarget store' row := by
  obtain ⟨run, hrun, hid, hstatus, htarget⟩ := h
  refine ⟨run, ?_, hid, hstatus, htarget⟩
  refine hstore.preserved (A := fun w => run ∈ w.db.runs) (fun w w' hi _ hevo hmem => ?_) hr hrun
  exact hevo.terminal hi.db hmem (by rw [hstatus]; rfl)

theorem Grown.reaches {store store' : AgentRuntimeKit.Cfg} {rows : List FeedbackRow}
    (h : Grown store rows) (hstore : AgentRuntimeKit.Reachable false store)
    (hr : AgentRuntimeKit.machine.Reaches (Legal false) store store') : Grown store' rows := by
  induction h with
  | nil => exact .nil
  | snoc _ htarget hsupersedes ih => exact .snoc ih (htarget.reaches hstore hr) hsupersedes

-- ---------------------------------------------------------------------------
-- What a statement can do
-- ---------------------------------------------------------------------------

/-- All rows, committed or not. -/
def World.all (w : World) : List FeedbackRow := w.rows ++ w.inserted.map Prod.snd

/-- What may be inserted. -/
structure Insertable (p : Pid) (w : World) (row : FeedbackRow) : Prop where
  own : w.own p = []
  target : OnTarget w.store row
  supersedes : SupersedesIn w.rows row

/-- What a statement of `p` may do. -/
inductive Effect (p : Pid) (w : World) : World → Prop
  | same : Effect p w w
  | begun : Effect p w { w with begun := Function.update w.begun p (some w.clock) }
  | ended (committed : Bool) : Effect p w (w.endSession p committed)
  | abandoned : Effect p w (w.abandon p)
  | inserted {row : FeedbackRow} (hbegun : w.begun p = some row.createdAt)
      (hkey : ∀ r ∈ w.all, r.idempotencyKey ≠ row.idempotencyKey)
      (hid : ∀ r ∈ w.all, r.id ≠ row.id) (hrow : Insertable p w row) :
      Effect p w { w with inserted := w.inserted ++ [(some p, row)] }

section Effects

variable {p q : Pid} {w w' : World} {o : Op} {ch : Choice} {r : Except Exn (Res o)} {fs : Forks}

theorem mem_own {row : FeedbackRow} : row ∈ w.own p ↔ (some p, row) ∈ w.inserted := by
  simp [World.own]

/-- All rows are those that `p` sees and those that others have inserted. -/
theorem forall_all {P : FeedbackRow → Prop} (hview : ∀ r ∈ w.view p, P r)
    (hothers : ∀ e ∈ w.inserted, e.1 ≠ some p → P e.2) : ∀ r ∈ w.all, P r := by
  intro r hr
  rcases List.mem_append.mp hr with hr | hr
  · exact hview r (List.mem_append_left _ hr)
  · obtain ⟨e, he, rfl⟩ := List.mem_map.mp hr
    by_cases hp : e.1 = some p
    · exact hview e.2 (List.mem_append_right _ (mem_own.mpr (hp ▸ he)))
    · exact hothers e he hp

/-- The time of a row is not asked for. -/
theorem Insertable.stamped {row : FeedbackRow} (h : Insertable p w row) (t : Time) :
    Insertable p w { row with createdAt := t } := by
  refine ⟨h.own, h.target, fun id hid => ?_⟩
  obtain ⟨old, hold, holdId, hsame⟩ := h.supersedes id hid
  exact ⟨old, hold, holdId, hsame.runId, hsame.targetType, hsame.targetId⟩

/-- What `INSERT` has found when it inserts. -/
theorem execOk_insert {row : FeedbackRow} {a : Except Exn (Option FeedbackRow)}
    (h : execOk p w (.insert row) = some (a, w', fs)) :
    fs = [] ∧ (w' = w ∨ ∃ begun, w.begun p = some begun ∧
      (∀ r ∈ w.all, r.idempotencyKey ≠ row.idempotencyKey) ∧ (∀ r ∈ w.all, r.id ≠ row.id) ∧
      a = .ok (some { row with createdAt := begun }) ∧
      w' = { w with inserted := w.inserted ++ [(some p, { row with createdAt := begun })] }) := by
  simp only [execOk, answer] at h
  split at h
  · next begun hbegun =>
    split at h
    · obtain ⟨rfl, rfl, rfl⟩ : _ ∧ _ ∧ _ := by simpa using h
      exact ⟨rfl, .inl rfl⟩
    · next hkey =>
      split at h
      · exact absurd h (by simp)
      · next hawaits =>
        split at h
        · obtain ⟨rfl, rfl, rfl⟩ : _ ∧ _ ∧ _ := by simpa using h
          exact ⟨rfl, .inl rfl⟩
        · next hid =>
          split at h
          · obtain ⟨rfl, rfl, rfl⟩ : _ ∧ _ ∧ _ := by simpa using h
            exact ⟨rfl, .inl rfl⟩
          · obtain ⟨rfl, rfl, rfl⟩ : _ ∧ _ ∧ _ := by
              simpa only [Option.some.injEq, Prod.mk.injEq] using h
            have hothers : ∀ e ∈ w.inserted, e.1 ≠ some p →
                e.2.idempotencyKey ≠ row.idempotencyKey ∧ e.2.id ≠ row.id := by
              simpa [World.awaits] using hawaits
            refine ⟨rfl, .inr ⟨begun, hbegun, ?_, ?_, rfl, rfl⟩⟩
            · exact forall_all (by simpa using hkey) fun e he hp => (hothers e he hp).1
            · exact forall_all (by simpa using hid) fun e he hp => (hothers e he hp).2
  · exact absurd h (by simp)

/-- What a statement does, if a row that it inserts may be inserted. -/
theorem exec_effect (h : exec p w o ch = some (r, w', fs))
    (hins : ∀ row, o = .insert row → Insertable p w row) : fs = [] ∧ Effect p w w' := by
  cases ch with
  | ok =>
    replace h : execOk p w o = some (r, w', fs) := by
      rw [← h]
      cases o <;> rfl
    cases o with
    | insert row =>
      obtain ⟨rfl, rfl | ⟨begun, hbegun, hkey, hid, -, rfl⟩⟩ := execOk_insert h
      · exact ⟨rfl, .same⟩
      · exact ⟨rfl, .inserted hbegun hkey hid ((hins row rfl).stamped begun)⟩
    | begin =>
      simp only [execOk, answer] at h
      split at h
      · obtain ⟨-, rfl, rfl⟩ : _ ∧ _ ∧ _ := by
          simpa only [Option.some.injEq, Prod.mk.injEq] using h
        exact ⟨rfl, .begun⟩
      · exact absurd h (by simp)
    | commit =>
      obtain ⟨-, rfl, rfl⟩ : _ ∧ _ ∧ _ := by
        simpa only [execOk, answer, Option.some.injEq, Prod.mk.injEq] using h
      exact ⟨rfl, .ended true⟩
    | rollback =>
      obtain ⟨-, rfl, rfl⟩ : _ ∧ _ ∧ _ := by
        simpa only [execOk, answer, Option.some.injEq, Prod.mk.injEq] using h
      exact ⟨rfl, .ended false⟩
    | _ =>
      obtain ⟨-, rfl, rfl⟩ : _ ∧ _ ∧ _ := by
        simpa only [execOk, answer, Option.some.injEq, Prod.mk.injEq] using h
      exact ⟨rfl, .same⟩
  | _ =>
    cases o
    all_goals simp only [exec, answer] at h
    all_goals first
      | split at h
      | exact absurd h (by simp)
    all_goals first
      | obtain ⟨-, rfl, rfl⟩ : _ ∧ _ ∧ _ := by
          simpa only [Option.some.injEq, Prod.mk.injEq] using h
      | exact absurd h (by simp)
    all_goals first
      | exact ⟨rfl, .same⟩
      | exact ⟨rfl, .ended false⟩
      | exact ⟨rfl, .ended true⟩
      | exact ⟨rfl, .abandoned⟩

end Effects

-- ---------------------------------------------------------------------------
-- The invariant
-- ---------------------------------------------------------------------------

structure Inv (w : World) : Prop where
  store : AgentRuntimeKit.Reachable false w.store
  grown : Grown w.store w.rows
  inserted : ∀ entry ∈ w.inserted, OnTarget w.store entry.2 ∧ SupersedesIn w.rows entry.2
  ids : (w.all.map FeedbackRow.id).Nodup
  keys : (w.all.map FeedbackRow.idempotencyKey).Nodup
  /-- Who has not started has no transaction. -/
  idle : ∀ p, w.task p = none → w.begun p = none ∧ w.own p = []

/-- What one step of anybody but `p` may do. -/
structure Other (p : Pid) (w w' : World) : Prop where
  rows : w.rows <+: w'.rows
  store : AgentRuntimeKit.machine.Reaches (Legal false) w.store w'.store
  begun : w'.begun p = w.begun p
  own : w'.own p = w.own p
  task : ∀ q s, w.task q = some s → w'.task q = some s

/-- What one move may do. -/
inductive Step (w : World) : World → Prop
  | statement {p : Pid} {w' : World} (hp : w.task p ≠ none) (h : Effect p w w') : Step w w'
  | started {p : Pid} (submission : FeedbackSubmission) (hp : w.task p = none) :
      Step w { w with task := Function.update w.task p (some submission) }
  | store {store : AgentRuntimeKit.Cfg}
      (h : AgentRuntimeKit.machine.Reaches (Legal false) w.store store) : Step w { w with store }
  | settled (id : Uuid) (committed : Bool) : Step w (w.settle id committed)

section Invariant

variable {p q : Pid} {w w' : World}

theorem Inv.initial (clock : Time) : Inv (.initial clock) where
  store := ⟨clock, .refl⟩
  grown := .nil
  inserted _ h := absurd h List.not_mem_nil
  ids := .nil
  keys := .nil
  idle _ _ := ⟨rfl, rfl⟩

theorem Inv.nodup_ids (h : Inv w) : (w.rows.map FeedbackRow.id).Nodup := by
  have hids := h.ids
  rw [World.all, List.map_append] at hids
  exact hids.of_append_left

theorem Other.refl (p : Pid) (w : World) : Other p w w :=
  ⟨List.prefix_rfl, .refl, rfl, rfl, fun _ _ h => h⟩

/-- Ending transactions moves rows, or drops them. -/
theorem finish_all (ends : Option Pid × FeedbackRow → Bool) (committed : Bool) :
    ∃ rest, ((w.finish ends committed).all ++ rest).Perm w.all := by
  have hsplit : ((w.inserted.filter ends).map Prod.snd ++
      (w.inserted.filter fun e => !ends e).map Prod.snd).Perm (w.inserted.map Prod.snd) := by
    rw [← List.map_append]
    exact (List.filter_append_perm ends w.inserted).map Prod.snd
  cases committed with
  | true =>
    refine ⟨[], ?_⟩
    rw [List.append_nil]
    show (w.rows ++ (w.inserted.filter ends).map Prod.snd ++ _).Perm _
    rw [List.append_assoc]
    exact hsplit.append_left w.rows
  | false =>
    refine ⟨(w.inserted.filter ends).map Prod.snd, ?_⟩
    show (w.rows ++ [] ++ _ ++ _).Perm _
    rw [List.append_nil, List.append_assoc]
    exact (List.perm_append_comm.trans hsplit).append_left w.rows

/-- Nothing that was unique is not so any more. -/
theorem nodup_finish {κ : Type} {f : FeedbackRow → κ} (h : (w.all.map f).Nodup)
    (ends : Option Pid × FeedbackRow → Bool) (committed : Bool) :
    ((w.finish ends committed).all.map f).Nodup := by
  obtain ⟨rest, hperm⟩ := finish_all (w := w) ends committed
  have hnodup := (hperm.map f).nodup_iff.mpr h
  rw [List.map_append] at hnodup
  exact hnodup.of_append_left

theorem own_finish {ends : Option Pid × FeedbackRow → Bool} (committed : Bool)
    (hp : ∀ row, ends (some p, row) = false) : (w.finish ends committed).own p = w.own p := by
  show ((w.inserted.filter _).filter _).map _ = _
  rw [List.filter_filter]
  congr 1
  refine List.filter_congr fun e _ => ?_
  by_cases h : e.1 = some p
  · have hends : ends e = false := by
      obtain ⟨owner, row⟩ := e
      subst h
      exact hp row
    simp [h, hends]
  · simp [h]

/-- Transactions end. -/
theorem Inv.finish (h : Inv w) (ends : Option Pid × FeedbackRow → Bool) (committed : Bool)
    (begun : Pid → Option Time) (hbegun : ∀ p, w.begun p = none → begun p = none) :
    Inv { w.finish ends committed with begun } where
  store := h.store
  grown := by
    refine h.grown.append fun row hrow => ?_
    cases committed with
    | true =>
      obtain ⟨e, he, rfl⟩ := List.mem_map.mp hrow
      exact h.inserted e (List.mem_filter.mp he).1
    | false => exact absurd hrow List.not_mem_nil
  inserted e he := by
    obtain ⟨htarget, hsupersedes⟩ := h.inserted e (List.mem_filter.mp he).1
    exact ⟨htarget, hsupersedes.mono fun _ => List.mem_append_left _⟩
  ids := nodup_finish h.ids ends committed
  keys := nodup_finish h.keys ends committed
  idle p hp := by
    obtain ⟨hnone, hown⟩ := h.idle p hp
    refine ⟨hbegun p hnone, List.eq_nil_iff_forall_not_mem.mpr fun row hrow => ?_⟩
    have hmem : (some p, row) ∈ w.inserted.filter fun e => !ends e := mem_own.mp hrow
    have hown' : row ∈ w.own p := mem_own.mpr (List.mem_filter.mp hmem).1
    rw [hown] at hown'
    exact absurd hown' List.not_mem_nil

/-- Abandoned rows stay where they are. -/
theorem abandon_all : (w.abandon p).all = w.all := by
  show w.rows ++ (w.inserted.map fun e => if e.1 = some p then (none, e.2) else e).map Prod.snd = _
  rw [List.map_map]
  congr 1
  refine List.map_congr_left fun e _ => ?_
  show (if e.1 = some p then ((none : Option Pid), e.2) else e).2 = e.2
  split <;> rfl

theorem own_abandon (hpq : q ≠ p) : (w.abandon p).own q = w.own q := by
  have hone : ∀ e : Option Pid × FeedbackRow,
      (if e.1 = some p then (none, e.2) else e).1 = some q ↔ e.1 = some q := by
    intro e
    split
    · next he =>
      rw [he]
      exact iff_of_false (by simp) fun h => hpq (Option.some.inj h).symm
    · exact Iff.rfl
  show ((w.inserted.map fun e => if e.1 = some p then (none, e.2) else e).filter _).map _ = _
  rw [List.filter_map, List.map_map]
  have hfilter : w.inserted.filter ((fun e : Option Pid × FeedbackRow => decide (e.1 = some q)) ∘
      fun e => if e.1 = some p then (none, e.2) else e) =
      w.inserted.filter fun e => decide (e.1 = some q) :=
    List.filter_congr fun e _ => decide_eq_decide.mpr (hone e)
  rw [hfilter]
  refine List.map_congr_left fun e _ => ?_
  show (if e.1 = some p then ((none : Option Pid), e.2) else e).2 = e.2
  split <;> rfl

theorem Inv.abandon (h : Inv w) (hp : w.task p ≠ none) : Inv (w.abandon p) where
  store := h.store
  grown := h.grown
  inserted e he := by
    obtain ⟨e', he', rfl⟩ := List.mem_map.mp he
    have hrow := h.inserted e' he'
    show OnTarget w.store (if e'.1 = some p then (none, e'.2) else e').2 ∧ _
    split <;> exact hrow
  ids := by
    rw [abandon_all]
    exact h.ids
  keys := by
    rw [abandon_all]
    exact h.keys
  idle q hq := by
    have hqp : q ≠ p := by
      rintro rfl
      exact hp hq
    rw [own_abandon hqp]
    exact ⟨(Function.update_of_ne hqp _ _).trans (h.idle q hq).1, (h.idle q hq).2⟩

theorem own_insert (row : FeedbackRow) (hpq : q ≠ p) :
    World.own { w with inserted := w.inserted ++ [(some p, row)] } q = w.own q := by
  show ((w.inserted ++ [(some p, row)]).filter _).map _ = _
  rw [List.filter_append, List.filter_singleton]
  have hne : ¬(some p : Option Pid) = some q := fun h => hpq (Option.some.inj h).symm
  simp [hne, World.own]

theorem Inv.insert (h : Inv w) (hp : w.task p ≠ none) {row : FeedbackRow}
    (hkey : ∀ r ∈ w.all, r.idempotencyKey ≠ row.idempotencyKey) (hid : ∀ r ∈ w.all, r.id ≠ row.id)
    (hrow : Insertable p w row) : Inv { w with inserted := w.inserted ++ [(some p, row)] } := by
  have hall : World.all { w with inserted := w.inserted ++ [(some p, row)] } = w.all ++ [row] := by
    show w.rows ++ (w.inserted ++ [(some p, row)]).map Prod.snd = _
    rw [List.map_append, ← List.append_assoc]
    rfl
  have hnodup : ∀ {κ : Type} {f : FeedbackRow → κ}, (w.all.map f).Nodup →
      (∀ r ∈ w.all, f r ≠ f row) → ((w.all ++ [row]).map f).Nodup := by
    intro κ f hf hne
    rw [List.map_append, List.nodup_append]
    refine ⟨hf, List.nodup_singleton _, fun a ha b hb => ?_⟩
    obtain ⟨r, hr, rfl⟩ := List.mem_map.mp ha
    rw [List.mem_singleton.mp hb]
    exact hne r hr
  refine ⟨h.store, h.grown, fun e he => ?_, ?_, ?_, fun q hq => ?_⟩
  · rcases List.mem_append.mp he with he | he
    · exact h.inserted e he
    · rw [List.mem_singleton.mp he]
      exact ⟨hrow.target, hrow.supersedes⟩
  · rw [hall]
    exact hnodup h.ids hid
  · rw [hall]
    exact hnodup h.keys hkey
  · have hqp : q ≠ p := by
      rintro rfl
      exact hp hq
    rw [own_insert row hqp]
    exact h.idle q hq

/-- A statement keeps the invariant, and leaves the transactions of others alone. -/
theorem Inv.effect (h : Inv w) (hp : w.task p ≠ none) (he : Effect p w w') :
    Inv w' ∧ ∀ q, q ≠ p → Other q w w' := by
  have hupdate : ∀ b q, w.begun q = none → q ≠ p → Function.update w.begun p b q = none :=
    fun b q hq hqp => (Function.update_of_ne hqp _ _).trans hq
  cases he with
  | same => exact ⟨h, fun q _ => .refl q w⟩
  | begun =>
    refine ⟨⟨h.store, h.grown, h.inserted, h.ids, h.keys, fun q hq => ?_⟩, fun q hqp => ?_⟩
    · have hqp : q ≠ p := by
        rintro rfl
        exact hp hq
      exact ⟨hupdate _ q (h.idle q hq).1 hqp, (h.idle q hq).2⟩
    · exact { Other.refl q w with begun := Function.update_of_ne hqp _ _ }
  | ended committed =>
    refine ⟨h.finish _ committed _ fun q hq => ?_, fun q hqp => ?_⟩
    · by_cases hqp : q = p
      · rw [hqp]
        exact Function.update_self _ _ _
      · exact hupdate _ q hq hqp
    · refine { Other.refl q w with
        rows := List.prefix_append _ _
        begun := Function.update_of_ne hqp _ _
        own := own_finish committed fun row => decide_eq_false fun heq => ?_ }
      exact hqp (Option.some.inj heq)
  | abandoned =>
    refine ⟨h.abandon hp, fun q hqp => ?_⟩
    exact { Other.refl q w with
      begun := Function.update_of_ne hqp _ _
      own := own_abandon hqp }
  | inserted hbegun hkey hid hrow =>
    exact ⟨h.insert hp hkey hid hrow, fun q hqp => { Other.refl q w with own := own_insert _ hqp }⟩

end Invariant

-- ---------------------------------------------------------------------------
-- Soundness
-- ---------------------------------------------------------------------------

/-- A started process whose transaction has inserted nothing. -/
structure Started (p : Pid) (w : World) : Prop where
  task : w.task p ≠ none
  own : w.own p = []

def feedback (payloadHash : FeedbackSubmission → String) :
    Discipline World Op Res Exn FeedbackRecord where
  inv := Inv
  other p w w' := Other p w w' ∧ Step w w'
  task p m w := Started p w ∧ ∃ submission, m = record payloadHash submission
  post _ _ _ := True

section Sound

variable {payloadHash : FeedbackSubmission → String} {p : Pid} {α : Type}

theorem Started.stable : (feedback payloadHash).Stable p (Started p) := by
  intro w w' _ _ ho h
  obtain ⟨submission, hs⟩ := Option.ne_none_iff_exists'.mp h.task
  exact ⟨by rw [ho.1.task p submission hs]; simp, ho.1.own.trans h.own⟩

theorem OnTarget.stable (row : FeedbackRow) :
    (feedback payloadHash).Stable p fun w => OnTarget w.store row :=
  fun _ _ hi _ ho h => h.reaches hi.store ho.1.store

theorem SupersedesIn.stable (row : FeedbackRow) :
    (feedback payloadHash).Stable p fun w => SupersedesIn w.rows row :=
  fun _ _ _ _ ho h => h.mono ho.1.rows.subset

theorem task_stable : (feedback payloadHash).Stable p fun w => w.task p ≠ none := by
  intro w w' _ _ ho h
  obtain ⟨submission, hs⟩ := Option.ne_none_iff_exists'.mp h
  rw [ho.1.task p submission hs]
  simp

/-- The program keeps the invariant. -/
def Keeps (payloadHash : FeedbackSubmission → String) (p : Pid) (A : World → Prop) (m : P α) :
    Prop :=
  (feedback payloadHash).Triple (machine payloadHash) p (fun _ _ => True) A m
    fun _ w => w.task p ≠ none

variable {A : World → Prop}

theorem Keeps.pre {A' : World → Prop} {m : P α} (h : Keeps payloadHash p A m)
    (hA : ∀ w, A' w → A w) : Keeps payloadHash p A' m :=
  Discipline.Triple.pre (fun w _ => hA w) h

theorem Keeps.done {r : Except Exn α} (hA : ∀ w, A w → w.task p ≠ none) :
    Keeps payloadHash p A (.done r) :=
  Keeps.pre (Discipline.Triple.done task_stable fun _ _ h => h) hA

/-- A process goes on with the submission it has. -/
theorem Effect.task {w w' : World} (h : Effect p w w') : w'.task = w.task := by
  cases h <;> rfl

/-- One statement. -/
theorem keeps_op {o : Op} {f : Except Exn (Res o) → P α}
    {B : Except Exn (Res o) → World → Prop} (hA : (feedback payloadHash).Stable p A)
    (htask : ∀ w, A w → w.task p ≠ none)
    (hins : ∀ w row, A w → o = .insert row → Insertable p w row)
    (hB : ∀ w ch r w' fs, A w → exec p w o ch = some (r, w', fs) → B r w')
    (hf : ∀ r, Keeps payloadHash p (fun w => w.task p ≠ none ∧ B r w) (f r)) :
    Keeps payloadHash p A (.op o f) := by
  refine Discipline.Triple.op hA (fun w ch r w' fs hi ha hx => ?_) hf
  obtain ⟨rfl, heffect⟩ := exec_effect hx fun row => hins w row ha
  obtain ⟨hi', hother⟩ := hi.effect (htask w ha) heffect
  have htask' : w'.task p ≠ none := by
    rw [heffect.task]
    exact htask w ha
  exact ⟨hi', fun q hq => ⟨hother q hq, .statement (htask w ha) heffect⟩,
    fun f hf => absurd hf List.not_mem_nil, trivial, htask', hB w ch r w' [] ha hx⟩

/-- A statement after which nothing is asked of the transaction. -/
theorem keeps_plain {o : Op} {f : Except Exn (Res o) → P α} (ho : ∀ row, o ≠ .insert row)
    (hf : ∀ r, Keeps payloadHash p (fun w => w.task p ≠ none) (f r)) :
    Keeps payloadHash p (fun w => w.task p ≠ none) (.op o f) :=
  keeps_op (B := fun _ _ => True) task_stable (fun _ h => h) (fun _ row _ h => absurd h (ho row))
    (fun _ _ _ _ _ _ _ => trivial) fun r => (hf r).pre fun _ h => h.1

def Op.isQuery : Op → Bool
  | byKey _ | run _ | byId _ => true
  | _ => false

/-- A query leaves the world alone, and answers or raises an exception of the driver. -/
theorem exec_query {w w' : World} {o : Op} {ch : Choice} {r : Except Exn (Res o)} {fs : Forks}
    (ho : o.isQuery = true) (h : exec p w o ch = some (r, w', fs)) :
    w' = w ∧ (execOk p w o = some (r, w, fs) ∨ ∃ e, r = .error e ∧ e.isForeign = true) := by
  cases ch with
  | ok =>
    cases o <;> first
      | exact absurd ho Bool.false_ne_true
      | (obtain ⟨rfl, rfl, rfl⟩ : _ ∧ _ ∧ _ := by
          simpa only [exec, execOk, answer, Option.some.injEq, Prod.mk.injEq] using h
         exact ⟨rfl, .inl rfl⟩)
  | fail e =>
    cases o <;> first
      | exact absurd ho Bool.false_ne_true
      | (simp only [exec, answer] at h
         split at h
         · next he =>
           obtain ⟨rfl, rfl, rfl⟩ : _ ∧ _ ∧ _ := by
             simpa only [Option.some.injEq, Prod.mk.injEq] using h
           exact ⟨rfl, .inr ⟨e, rfl, he⟩⟩
         · exact absurd h (by simp))
  | _ => cases o <;> first
      | exact absurd ho Bool.false_ne_true
      | exact absurd h (by simp [exec])

/-- A query, and what is known of its answer. -/
theorem keeps_query {o : Op} {f : Res o → P α} {B : Res o → World → Prop}
    (hA : (feedback payloadHash).Stable p A) (htask : ∀ w, A w → w.task p ≠ none)
    (ho : o.isQuery = true)
    (hok : ∀ w r fs, A w → execOk p w o = some (r, w, fs) → ∃ a, r = .ok a ∧ B a w)
    (hf : ∀ a, Keeps payloadHash p (fun w => A w ∧ B a w) (f a)) :
    Keeps payloadHash p A (perform o >>= f) := by
  refine keeps_op
    (B := fun r w => A w ∧ ∀ a, r = .ok a → B a w) hA htask (fun w row _ h => ?_)
    (fun w ch r w' fs ha hx => ?_) fun r => ?_
  · rw [h] at ho
    exact absurd ho Bool.false_ne_true
  · obtain ⟨rfl, hx | ⟨e, rfl, -⟩⟩ := exec_query ho hx
    · obtain ⟨a, rfl, hb⟩ := hok _ r fs ha hx
      exact ⟨ha, fun a' h => Except.ok.inj h ▸ hb⟩
    · exact ⟨ha, fun a h => absurd h (by simp)⟩
  · cases r with
    | error e => exact Keeps.done fun _ h => h.1
    | ok a => exact (hf a).pre fun _ h => ⟨h.2.1, h.2.2 a rfl⟩

theorem keeps_lift {β : Type} {r : Except Exn β} {f : β → P α} (hA : ∀ w, A w → w.task p ≠ none)
    (hf : ∀ b, r = .ok b → Keeps payloadHash p A (f b)) : Keeps payloadHash p A (lift r >>= f) := by
  cases r with
  | error e => exact Keeps.done hA
  | ok b => exact hf b rfl

theorem exec_begin {w w' : World} {ch : Choice} {r : Except Exn Unit} {fs : Forks}
    (h : exec p w .begin ch = some (r, w', fs)) :
    w'.task = w.task ∧ w'.inserted = w.inserted ∧ w'.rows = w.rows := by
  cases ch
  all_goals simp only [exec, execOk, answer] at h
  all_goals first
    | split at h
    | exact absurd h (by simp)
  all_goals first
    | (obtain ⟨-, rfl, -⟩ : _ ∧ _ ∧ _ := by
        simpa only [Option.some.injEq, Prod.mk.injEq] using h
       exact ⟨rfl, rfl, rfl⟩)
    | exact absurd h (by simp)

/-- A submission that `validateTarget` accepts is on target. -/
theorem onTarget_of_validate {store : AgentRuntimeKit.Cfg} {run : Option RunRow}
    {submission : FeedbackSubmission} {hash : String}
    (h : validateTarget run submission = .ok ())
    (hrun : ∀ r, run = some r → r ∈ store.world.db.runs ∧ r.id = submission.runId) :
    OnTarget store (submission.row hash) := by
  unfold validateTarget at h
  split at h
  · exact absurd h (by simp)
  · next run =>
    obtain ⟨hmem, hid⟩ := hrun run rfl
    split at h
    · next response hstatus hresponse =>
      split at h
      · next htarget => exact ⟨run, hmem, hid, hstatus, response, hresponse, htarget⟩
      · exact absurd h (by simp)
    · exact absurd h (by simp)

theorem supersedesIn_of_check {rows : List FeedbackRow} {superseded : Option FeedbackRow}
    {submission : FeedbackSubmission} {hash : String} {id : Uuid}
    (hsubmission : submission.supersedesFeedbackId = some id)
    (h : checkSuperseded superseded submission = .ok ())
    (hrow : ∀ r, superseded = some r → r ∈ rows ∧ r.id = id) :
    SupersedesIn rows (submission.row hash) := by
  intro id' hid'
  obtain rfl : id = id' := Option.some.inj (hsubmission.symm.trans hid')
  unfold checkSuperseded at h
  split at h
  · next row =>
    obtain ⟨hmem, hid⟩ := hrow row rfl
    split at h
    · next hsame => exact ⟨row, hmem, hid, hsame.1, hsame.2.1, hsame.2.2⟩
    · exact absurd h (by simp)
  · exact absurd h (by simp)

variable (submission : FeedbackSubmission) (hash : String)

theorem keeps_insertRow : Keeps payloadHash p
    (fun w => Started p w ∧ OnTarget w.store (submission.row hash) ∧
      SupersedesIn w.rows (submission.row hash)) (insertRow submission hash) := by
  unfold insertRow
  refine keeps_op (B := fun _ _ => True)
    (Started.stable.and ((OnTarget.stable _).and (SupersedesIn.stable _))) (fun _ h => h.1.task)
    (fun w row h heq => ?_) (fun _ _ _ _ _ _ _ => trivial) fun r => ?_
  · injection heq with heq
    exact heq ▸ ⟨h.1.own, h.2.1, h.2.2⟩
  · refine Keeps.pre (A := fun w => w.task p ≠ none) ?_ fun _ h => h.1
    rcases r with e | _ | row
    · exact .done fun _ h => h
    · refine keeps_query (B := fun _ _ => True) task_stable (fun _ h => h) rfl
        (fun w r fs _ hx => ?_) fun rows => keeps_lift (fun _ h => h.1) fun existing _ =>
          Keeps.done fun _ h => h.1
      obtain ⟨rfl, -⟩ : _ ∧ _ := by simpa [execOk, answer] using hx
      exact ⟨_, rfl, trivial⟩
    · exact .done fun _ h => h

theorem keeps_recordNew : Keeps payloadHash p (Started p) (recordNew submission hash) := by
  unfold recordNew
  refine keeps_query
    (B := fun rows w => ∀ r ∈ rows, r ∈ w.store.world.db.runs ∧ r.id = submission.runId)
    Started.stable (fun _ h => h.task) rfl (fun w r fs _ hx => ?_) fun runs => ?_
  · obtain ⟨rfl, -⟩ : _ ∧ _ := by simpa [execOk, answer] using hx
    exact ⟨_, rfl, fun r hr => ⟨(List.mem_filter.mp hr).1,
      of_decide_eq_true (List.mem_filter.mp hr).2⟩⟩
  refine keeps_lift (fun _ h => h.1.task) fun run hrun => ?_
  refine keeps_lift (fun _ h => h.1.task) fun _ hvalid => ?_
  -- the run has succeeded, so that the target is settled from here on
  refine Keeps.pre (A := fun w => Started p w ∧ OnTarget w.store (submission.row hash)) ?_ ?_
  · cases hsupersedes : submission.supersedesFeedbackId with
    | none =>
      refine (keeps_insertRow submission hash).pre fun w h => ⟨h.1, h.2, fun id hid => ?_⟩
      exact absurd (hsupersedes.symm.trans hid) (by simp)
    | some id =>
      refine keeps_query (B := fun rows w => ∀ r ∈ rows, r ∈ w.rows ∧ r.id = id)
        (Started.stable.and (OnTarget.stable _)) (fun _ h => h.1.task) rfl
        (fun w r fs h hx => ?_) fun rows => ?_
      · obtain ⟨rfl, -⟩ : _ ∧ _ := by simpa [execOk, answer] using hx
        refine ⟨_, rfl, fun r hr => ?_⟩
        obtain ⟨hmem, hid⟩ := List.mem_filter.mp hr
        rw [World.view, h.1.own, List.append_nil] at hmem
        exact ⟨hmem, of_decide_eq_true hid⟩
      · refine keeps_lift (fun _ h => h.1.1.task) fun superseded hsuperseded => ?_
        refine keeps_lift (fun _ h => h.1.1.task) fun _ hcheck => ?_
        refine (keeps_insertRow submission hash).pre fun w h => ⟨h.1.1, h.1.2, ?_⟩
        refine supersedesIn_of_check hsupersedes hcheck fun r hr => h.2 r ?_
        rw [hr] at hsuperseded
        exact scalarOneOrNone_some hsuperseded ▸ List.mem_singleton_self r
  · intro w h
    refine ⟨h.1, onTarget_of_validate hvalid fun r hr => h.2 r ?_⟩
    rw [hr] at hrun
    exact scalarOneOrNone_some hrun ▸ List.mem_singleton_self r

theorem keeps_recordIn : Keeps payloadHash p (Started p) (recordIn submission hash) := by
  unfold recordIn
  refine keeps_query (B := fun _ _ => True) Started.stable (fun _ h => h.task) rfl
    (fun w r fs _ hx => ?_) fun rows => ?_
  · obtain ⟨rfl, -⟩ : _ ∧ _ := by simpa [execOk, answer] using hx
    exact ⟨_, rfl, trivial⟩
  refine keeps_lift (fun _ h => h.1.task) fun existing _ => ?_
  cases existing with
  | none => exact (keeps_recordNew submission hash).pre fun _ h => h.1
  | some existing => exact .done fun _ h => h.1.task

theorem keeps_inTransaction {body : P α} (hbody : Keeps payloadHash p (Started p) body) :
    Keeps payloadHash p (Started p) (inTransaction body) := by
  unfold inTransaction
  refine keeps_op (B := fun _ w => Started p w) Started.stable (fun _ h => h.task)
    (fun _ _ _ h => absurd h (by simp)) (fun w ch r w' fs h hx => ?_) fun r => ?_
  · obtain ⟨htask, hinserted, -⟩ := exec_begin hx
    refine ⟨by rw [htask]; exact h.task, ?_⟩
    rw [World.own, hinserted]
    exact h.own
  · refine Keeps.pre (A := Started p) ?_ fun _ h => h.2
    rcases r with e | u
    · exact .done fun _ h => h.task
    · refine Discipline.Triple.handle (R := fun _ w => w.task p ≠ none)
        (m := body.attempt) ?_ ?_
      · exact Discipline.Triple.handle hbody fun _ => Keeps.done fun _ h => h
      · rintro (e | e | a)
        · exact Keeps.done fun _ h => h
        · refine keeps_plain (fun _ h => absurd h (by simp)) ?_
          rintro (e' | u) <;> exact .done fun _ h => h
        · refine keeps_plain (fun _ h => absurd h (by simp)) ?_
          rintro (e' | u) <;> exact .done fun _ h => h

theorem keeps_record : Keeps payloadHash p (Started p) (record payloadHash submission) :=
  keeps_inTransaction (keeps_recordIn submission _)

theorem tasksSafe : (feedback payloadHash).TasksSafe (machine payloadHash) := by
  rintro p m w hi ⟨hstarted, submission, rfl⟩
  exact (keeps_record submission w hi hstarted).mono (fun _ _ h => h) fun _ _ _ => trivial

theorem envOk : (feedback payloadHash).EnvOk (machine payloadHash) fun _ => True := by
  intro w e w' fs _ hi hx
  cases e with
  | start q submission =>
    simp only [machine, env] at hx
    split at hx
    · next hidle =>
      obtain ⟨rfl, rfl⟩ : _ ∧ _ := by simpa using hx
      have hnone : w.task q = none := Option.isNone_iff_eq_none.mp hidle
      refine ⟨⟨hi.store, hi.grown, hi.inserted, hi.ids, hi.keys, fun p hp => ?_⟩,
        fun p => ⟨?_, .started submission hnone⟩, ?_⟩
      · refine hi.idle p ?_
        by_cases hpq : p = q
        · exact hpq ▸ hnone
        · exact (Function.update_of_ne hpq _ _).symm.trans hp
      · refine { Other.refl p w with task := fun x s hs => ?_ }
        refine (Function.update_of_ne ?_ _ _).trans hs
        rintro rfl
        exact absurd (hnone.symm.trans hs) (by simp)
      · intro f hf
        rw [List.mem_singleton.mp hf]
        refine ⟨⟨?_, (hi.idle q hnone).2⟩, submission, rfl⟩
        show Function.update w.task q (some submission) q ≠ none
        rw [Function.update_self]
        simp
    · exact absurd hx (by simp)
  | store mv =>
    obtain ⟨store, hs, heq⟩ := Option.map_eq_some_iff.mp hx
    obtain ⟨rfl, rfl⟩ := Prod.mk.inj heq
    have hstep : AgentRuntimeKit.machine.Reaches (Legal false) w.store store :=
      Machine.Reaches.refl.step (legal_false _ mv) hs
    refine ⟨⟨hi.store.step (legal_false _ mv) hs, hi.grown.reaches hi.store hstep, fun e he => ?_,
      hi.ids, hi.keys, hi.idle⟩, fun p => ⟨{ Other.refl p w with store := hstep }, .store hstep⟩,
      fun f hf => absurd hf List.not_mem_nil⟩
    exact ⟨(hi.inserted e he).1.reaches hi.store hstep, (hi.inserted e he).2⟩
  | settle id committed =>
    obtain ⟨rfl, rfl⟩ := Prod.mk.inj (Option.some.inj hx)
    refine ⟨hi.finish _ committed w.begun fun _ h => h, fun p => ⟨?_, .settled id committed⟩,
      fun f hf => absurd hf List.not_mem_nil⟩
    exact { Other.refl p w with
      rows := List.prefix_append _ _
      own := own_finish committed fun row => rfl }

end Sound

-- ---------------------------------------------------------------------------
-- Reachable configurations
-- ---------------------------------------------------------------------------

section Reachable

variable {payloadHash : FeedbackSubmission → String} {c c' : Cfg}

theorem Reachable.sound (h : Reachable payloadHash c) : Inv c.world ∧ ∀ p m, c.procs p = some m →
    (feedback payloadHash).Safe (machine payloadHash) p (fun _ _ => True) (fun _ _ => True) m
      c.world := by
  obtain ⟨clock, h⟩ := h
  refine Discipline.sound envOk tasksSafe (fun _ _ _ => trivial) ?_ ?_ h
  · exact Inv.initial clock
  · exact fun _ => rfl

theorem Reachable.inv (h : Reachable payloadHash c) : Inv c.world := h.sound.1

theorem Reachable.reaches (h : Reachable payloadHash c)
    (hr : (machine payloadHash).Reaches AnyMove c c') : Reachable payloadHash c' := by
  obtain ⟨clock, h⟩ := h
  exact ⟨clock, h.trans hr⟩

theorem Reachable.step (h : Reachable payloadHash c) {mv : Move Choice Env}
    (hs : (machine payloadHash).step c mv = some c') : Reachable payloadHash c' :=
  h.reaches (Machine.Reaches.refl.step trivial hs)

/-- What a move does, seen by everybody who did not make it. -/
theorem Reachable.next (h : Reachable payloadHash c) {mv : Move Choice Env}
    (hs : (machine payloadHash).step c mv = some c') :
    (feedback payloadHash).Seen mv c.world c'.world := by
  have hany : AnyMove c mv := trivial
  exact (Discipline.sound_step envOk tasksSafe (fun _ _ _ => trivial) hany hs h.sound.1
    h.sound.2).2.1

theorem Reachable.moved (h : Reachable payloadHash c) {mv : Move Choice Env}
    (hs : (machine payloadHash).step c mv = some c') :
    ∃ p, Other p c.world c'.world ∧ Step c.world c'.world := by
  have hseen := h.next hs
  cases mv with
  | run p ch =>
    refine ⟨p + 1, hseen (p + 1) fun ch' heq => ?_⟩
    injection heq with hp
    exact absurd hp (Nat.ne_of_lt (Nat.lt_succ_self p))
  | env e => exact ⟨0, hseen 0 fun ch' heq => absurd heq (by simp)⟩

/-- What anybody may do to what all share. -/
theorem Reachable.grows (h : Reachable payloadHash c)
    (hr : (machine payloadHash).Reaches AnyMove c c') :
    c.world.rows <+: c'.world.rows ∧
      AgentRuntimeKit.machine.Reaches (Legal false) c.world.store c'.world.store := by
  induction hr with
  | refl => exact ⟨List.prefix_rfl, .refl⟩
  | step hr _ hs ih =>
    obtain ⟨p, hother, -⟩ := (h.reaches hr).moved hs
    exact ⟨ih.1.trans hother.rows, ih.2.trans hother.store⟩

end Reachable

end AgentRuntimeKit.Feedback
