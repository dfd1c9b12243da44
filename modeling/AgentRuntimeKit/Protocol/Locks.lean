import AgentRuntimeKit.Lib.Watching
import AgentRuntimeKit.Protocol.Frame
import AgentRuntimeKit.Protocol.History

/-!
# What a transaction holds

Row locks and uncommitted inserts are what others wait for. Here every store call is watched
for the order in which it takes them: the thread, then a run of that thread, and its inserts
last, after which it takes nothing more. `InOrder` is what that means for one operation.

## Results

* `exec_hold`      — an operation of one process changes what no other holds, but a commit that
                     is handed over.
* `Calls.inOrder`  — wherever callers start store calls only, each process is about to perform
                     an operation in order.
-/

namespace AgentRuntimeKit

open Lib Prog

-- ---------------------------------------------------------------------------
-- Who holds what
-- ---------------------------------------------------------------------------

/-- `p` holds in `w'` what it holds in `w`. -/
structure Hands (p : Pid) (w w' : World) : Prop where
  locks : ∀ k, w'.holder k = some p ↔ w.holder k = some p
  inserts : ∀ k, (p, k) ∈ w'.inserting ↔ (p, k) ∈ w.inserting

/-- `p` holds no lock, and has inserted nothing that is not committed. -/
structure EmptyHanded (p : Pid) (w : World) : Prop where
  locks : ∀ k, w.holder k ≠ some p
  inserts : ∀ k, (p, k) ∉ w.inserting

theorem Hands.same {p : Pid} {w w' : World} (hholder : w'.holder = w.holder)
    (hinserting : w'.inserting = w.inserting) : Hands p w w' :=
  ⟨fun _ => by rw [hholder], fun _ => by rw [hinserting]⟩

theorem Hands.empty {p : Pid} {w w' : World} (h : Hands p w w') (he : EmptyHanded p w) :
    EmptyHanded p w' :=
  ⟨fun k hk => he.locks k ((h.locks k).mp hk), fun k hk => he.inserts k ((h.inserts k).mp hk)⟩

section Hands

variable {p q : Pid} {w w' : World} {o : Op} {c : Choice} {r : Except Exn (Res o)} {fs : Forks}

theorem lockAll_holder (ks : List LockKey) (k : LockKey) :
    (w.lockAll q ks).holder k = if k ∈ ks then some q else w.holder k := by
  unfold World.lockAll
  induction ks generalizing w with
  | nil => rw [if_neg List.not_mem_nil, List.foldl_nil]
  | cons k' rest ih =>
    rw [List.foldl_cons, ih]
    show (if k ∈ rest then some q else Function.update w.holder k' (some q) k) = _
    by_cases hk : k = k'
    · rw [hk, Function.update_self, ite_self, if_pos List.mem_cons_self]
    · rw [Function.update_of_ne hk]
      simp only [List.mem_cons, hk, false_or]

theorem holder_ne_of_free (hpq : p ≠ q) {k : LockKey} (hfree : w.free q k = true) :
    w.holder k ≠ some p := by
  intro h
  rw [World.free, h] at hfree
  exact hpq (of_decide_eq_true hfree)

/-- Only free locks are taken. -/
theorem Hands.lockAll (hpq : p ≠ q) {ks : List LockKey} (hfree : ∀ k ∈ ks, w.free q k = true) :
    Hands p w (w.lockAll q ks) := by
  refine ⟨fun k => ?_, fun k => by rw [lockAll_eq]⟩
  rw [lockAll_holder]
  split
  · next hk =>
    exact iff_of_false (fun h => hpq (Option.some.inj h).symm) (holder_ne_of_free hpq (hfree k hk))
  · exact Iff.rfl

theorem Hands.flush (hpq : p ≠ q) (σ : Session) (x : Write) (keys : List UniqueKey) :
    Hands p w (w.flush q σ x keys) := by
  refine ⟨fun _ => Iff.rfl, fun k => ?_⟩
  show (p, k) ∈ keys.map (fun k => (q, k)) ++ w.inserting ↔ _
  rw [List.mem_append]
  refine or_iff_right fun h => ?_
  obtain ⟨k', -, heq⟩ := List.mem_map.mp h
  exact hpq (Prod.mk.inj heq).1.symm

theorem Hands.endSession (hpq : p ≠ q) : Hands p w (w.endSession q) := by
  constructor
  · intro k
    show (if w.holder k = some q then none else w.holder k) = some p ↔ _
    split
    · next hk =>
      rw [hk]
      exact iff_of_false (by simp) fun h => hpq (Option.some.inj h).symm
    · exact Iff.rfl
  · intro k
    show (p, k) ∈ w.inserting.filter (fun entry => entry.1 ≠ q) ↔ _
    rw [List.mem_filter]
    exact and_iff_left (decide_eq_true hpq)

/-- Who is neither the client nor the process that takes its transaction over. -/
theorem Hands.handOver {x : Pid} (hpq : p ≠ q) (hpx : p ≠ x) (σ : Session) :
    Hands p w (w.handOver q x σ) := by
  constructor
  · intro k
    show (if w.holder k = some q then some x else w.holder k) = some p ↔ _
    split
    · next hk =>
      rw [hk]
      exact iff_of_false (fun h => hpx (Option.some.inj h).symm) fun h =>
        hpq (Option.some.inj h).symm
    · exact Iff.rfl
  · intro k
    show (p, k) ∈ w.inserting.map (fun entry => if entry.1 = q then (x, entry.2) else entry) ↔ _
    rw [List.mem_map]
    constructor
    · rintro ⟨entry, hmem, heq⟩
      split at heq
      · exact absurd (Prod.mk.inj heq).1.symm hpx
      · exact heq ▸ hmem
    · intro hmem
      exact ⟨(p, k), hmem, if_neg hpq⟩

/-- What a process holds goes over whole. -/
theorem handOver_locks {x : Pid} (σ : Session) (hx : EmptyHanded x w) (k : LockKey) :
    (w.handOver q x σ).holder k = some x ↔ w.holder k = some q := by
  show (if w.holder k = some q then some x else w.holder k) = some x ↔ _
  split
  · next hk => exact iff_of_true rfl hk
  · next hk => exact iff_of_false (hx.locks k) hk

theorem handOver_empty {x : Pid} (σ : Session) (hqx : q ≠ x) :
    EmptyHanded q (w.handOver q x σ) := by
  refine ⟨fun k => ?_, fun k hk => ?_⟩
  · show (if w.holder k = some q then some x else w.holder k) ≠ some q
    split
    · exact fun h => hqx (Option.some.inj h).symm
    · next hk => exact hk
  · obtain ⟨entry, -, heq⟩ := List.mem_map.mp
      (show (q, k) ∈ w.inserting.map fun entry =>
        if entry.1 = q then (x, entry.2) else entry from hk)
    split at heq
    · exact hqx (Prod.mk.inj heq).1.symm
    · next hne => exact hne (congrArg Prod.fst heq)

theorem endSession_empty : EmptyHanded q (w.endSession q) := by
  constructor
  · intro k h
    change (if w.holder k = some q then none else w.holder k) = some q at h
    split at h
    · exact absurd h (by simp)
    · next hk => exact hk h
  · intro k h
    have hmem : (q, k) ∈ w.inserting.filter fun entry => entry.1 ≠ q := h
    exact of_decide_eq_true (List.mem_filter.mp hmem).2 rfl

theorem Hands.commit (hpq : p ≠ q) (σ : Session) : Hands p w (w.commit q σ) :=
  ⟨(Hands.endSession hpq).locks, (Hands.endSession hpq).inserts⟩

theorem Hands.acknowledge (hpq : p ≠ q) (σ : Session) (call : Call) :
    Hands p w ((w.commit q σ).acknowledge q call) :=
  ⟨(Hands.commit hpq σ).locks, (Hands.commit hpq σ).inserts⟩

/-- What becomes of an operation of `q` for the others. -/
inductive Hold (q : Pid) (w w' : World) : Op → Forks → Prop
  | alone {o : Op} (h : ∀ p, p ≠ q → Hands p w w') : Hold q w w' o []
  | handed {x : Pid} {σ : Session} (hx : w.kind x = .idle) (h : w' = w.handOver q x σ) :
      Hold q w w' .commit [(x, resolverProgram)]
  | spawned {runId token : Uuid} {code : String} {status : RunStatus} {timeout : Time}
      {fs : Forks} (h : ∀ p, Hands p w w') :
      Hold q w w' (.spawnCleanup runId token code status timeout) fs

theorem execOk_hold (h : execOk q w o = some (r, w', fs)) : Hold q w w' o fs := by
  have hone : ∀ k, w.free q k = true → ∀ p, p ≠ q → Hands p w (w.lock q k) :=
    fun k hfree p hpq => Hands.lockAll hpq fun k' (hk' : k' ∈ [k]) => by
      rw [List.mem_singleton.mp hk']
      exact hfree
  cases o with
  | lockActiveRuns t =>
    simp only [execOk] at h
    split at h
    · next hfree =>
      obtain ⟨rfl, rfl, rfl⟩ : _ ∧ _ ∧ _ := by
        simpa only [answer, Option.some.injEq, Prod.mk.injEq] using h
      refine .alone fun p hpq => Hands.lockAll hpq fun k hk => ?_
      obtain ⟨row, hrow, rfl⟩ := List.mem_map.mp hk
      exact List.all_eq_true.mp hfree row hrow
    · exact absurd h (by simp)
  | insertRun row quiet =>
    simp only [execOk, answer] at h
    cases hs : w.session q with
    | none =>
      rw [hs] at h
      exact absurd h (by simp)
    | some σ =>
      rw [hs] at h
      dsimp only at h
      split at h
      · obtain ⟨rfl, rfl, rfl⟩ : _ ∧ _ ∧ _ := by simpa using h
        exact .alone fun _ _ => .same rfl rfl
      · split at h
        · exact absurd h (by simp)
        · split at h
          · obtain ⟨rfl, rfl, rfl⟩ : _ ∧ _ ∧ _ := by
              simpa only [Option.some.injEq, Prod.mk.injEq] using h
            exact .alone fun _ _ => .same rfl rfl
          · obtain ⟨rfl, rfl, rfl⟩ : _ ∧ _ ∧ _ := by
              simpa only [Option.some.injEq, Prod.mk.injEq] using h
            exact .alone fun _ hpq => .flush hpq ..
  | _ =>
    simp only [execOk, answer] at h
    repeat' split at h
    all_goals first
      | obtain ⟨rfl, rfl, rfl⟩ : _ ∧ _ ∧ _ := by
          simpa only [Option.some.injEq, Prod.mk.injEq] using h
      | exact absurd h (by simp)
    all_goals first
      | exact .alone fun _ _ => .same rfl rfl
      | exact .alone fun _ hpq => .flush hpq ..
      | exact .alone (hone _ (by assumption))
      | exact .alone fun _ hpq => .acknowledge hpq ..
      | exact .alone fun _ hpq => .endSession hpq

/-- What an operation of `q` changes for the others. -/
theorem exec_hold (h : exec q w o c = some (r, w', fs)) : Hold q w w' o fs := by
  by_cases hplain : o.isPlain = true
  · rcases exec_plain hplain h with hok | ⟨e, rfl, rfl, rfl, -⟩
    · exact execOk_hold hok
    · exact .alone fun _ _ => .same rfl rfl
  · cases o with
    | commit =>
      cases hs : w.session q with
      | none =>
        cases c
        all_goals simp only [exec, execOk, hs, answer] at h
        all_goals repeat' split at h
        all_goals first
          | obtain ⟨rfl, rfl, rfl⟩ : _ ∧ _ ∧ _ := by
              simpa only [Option.some.injEq, Prod.mk.injEq] using h
          | exact absurd h (by simp)
        exact .alone fun _ hpq => .endSession hpq
      | some σ =>
        rcases exec_commit hs h with ⟨-, rfl, rfl⟩ |
          ⟨e, -, -, ⟨rfl, rfl⟩ | ⟨rfl, rfl⟩ | ⟨x, hidle, rfl, rfl⟩⟩
        · exact .alone fun _ hpq => .acknowledge hpq ..
        · exact .alone fun _ hpq => .endSession hpq
        · exact .alone fun _ hpq => .commit hpq σ
        · exact .handed hidle rfl
    | rollback =>
      obtain ⟨rfl, rfl, -⟩ := exec_rollback h
      exact .alone fun _ hpq => .endSession hpq
    | resolve =>
      cases c with
      | flag b =>
        simp only [exec] at h
        split at h
        · next σ _ =>
          obtain ⟨rfl, rfl, rfl⟩ : _ ∧ _ ∧ _ := by simpa [answer] using h
          cases b
          · exact .alone fun _ hpq => ⟨(Hands.endSession hpq).locks, (Hands.endSession hpq).inserts⟩
          · exact .alone fun _ hpq => ⟨(Hands.commit hpq σ).locks, (Hands.commit hpq σ).inserts⟩
        · exact absurd h (by simp)
      | fail e =>
        exact absurd h (by
          cases e <;> simp [exec, Op.mayRaise, Op.suspends, Op.isStatement, Op.isForeign])
      | _ => exact absurd h (by simp [exec, execOk])
    | spawnCleanup runId token code status timeout =>
      refine .spawned fun p => ?_
      cases c
      all_goals simp only [exec, execOk, answer] at h
      all_goals repeat' split at h
      all_goals first
        | (obtain ⟨-, rfl, -⟩ : _ ∧ _ ∧ _ := by
            simpa only [Option.some.injEq, Prod.mk.injEq] using h
           exact .same rfl rfl)
        | exact absurd h (by simp)
    | _ =>
      cases c
      all_goals first
        | exact absurd rfl hplain
        | skip
      all_goals simp only [exec, execOk, answer] at h
      all_goals repeat' split at h
      all_goals first
        | (obtain ⟨rfl, rfl, rfl⟩ : _ ∧ _ ∧ _ := by
            simpa only [Option.some.injEq, Prod.mk.injEq] using h
           exact .alone fun _ _ => .same rfl rfl)
        | exact absurd h (by simp)

end Hands

-- ---------------------------------------------------------------------------
-- The order
-- ---------------------------------------------------------------------------

/-- Each run that `p` has locked belongs to a thread that `p` has locked. -/
def Ordered (p : Pid) (w : World) : Prop :=
  ∀ id, w.holder (.run id) = some p →
    ∃ r ∈ w.db.runs, r.id = id ∧ w.holder (.thread r.threadId) = some p

/-- The statements that insert rows. -/
def Op.inserts : Op → Bool
  | .insertRun _ _ | .insertMessages _ | .insertThread _ => true
  | _ => false

/-- What `p` holds, and does not hold, when it is about to perform an operation that can wait. -/
def InOrder (p : Pid) (w : World) (o : Op) : Prop :=
  Ordered p w ∧ match o with
    | .lockThread id _ => w.holder (.thread id) = some p ∨ EmptyHanded p w
    | .lockRun runId => ∃ r ∈ w.db.runs, r.id = runId ∧ w.holder (.thread r.threadId) = some p
    | .lockActiveRuns t => w.holder (.thread t) = some p ∧ w.view p = w.db
    | .insertRun _ _ | .insertMessages _ | .insertThread _ => ∀ k, (p, k) ∉ w.inserting
    | .spawnCleanup _ _ _ _ _ => False
    | _ => True

/-- What others leave of what `p` holds. -/
def custody : Discipline World Op Res Exn Answer where
  inv := Inv false
  other p w w' := Other p w w' ∧ (w.kind p ≠ .idle → Hands p w w')
  task _ _ _ := True
  post _ _ _ := True

def orderWatch (p : Pid) : Watch World Op Choice where
  may _ _ _ := True
  must w o := InOrder p w o
  good _ _ := True

/-- `p` has started, and `F` holds. -/
def Working (p : Pid) (F : World → Prop) (w : World) : Prop := w.kind p ≠ .idle ∧ F w

/-- Guarded by the steps of others. -/
def Guarded (p : Pid) (F : World → Prop) : Prop :=
  ∀ w w', Inv false w → Aside p w w' → Hands p w w' → F w → F w'

/-- The row of a run, and the thread it belongs to. -/
def RowOf (runId t : Uuid) (w : World) : Prop := ∃ r ∈ w.db.runs, r.id = runId ∧ r.threadId = t

/-- `p` is in a transaction that has written nothing, and has locked the thread, if any. -/
structure Reads (p : Pid) (t : Option Uuid) (w : World) : Prop where
  ordered : Ordered p w
  session : ∃ σ, w.session p = some σ ∧ σ.writes = []
  inserts : ∀ k, (p, k) ∉ w.inserting
  locks : match t with
    | none => ∀ k, w.holder k ≠ some p
    | some t => w.holder (.thread t) = some p

/-- `p` has inserted nothing yet. -/
structure Writes (p : Pid) (w : World) : Prop where
  ordered : Ordered p w
  inserts : ∀ k, (p, k) ∉ w.inserting

section Guarded

variable {p : Pid} {F G : World → Prop}

theorem Guarded.and (hF : Guarded p F) (hG : Guarded p G) : Guarded p fun w => F w ∧ G w :=
  fun w w' hi ha hh h => ⟨hF w w' hi ha hh h.1, hG w w' hi ha hh h.2⟩

theorem Guarded.const (φ : Prop) : Guarded p fun _ => φ := fun _ _ _ _ _ h => h

theorem Guarded.stable (hF : Guarded p F) : custody.Stable p (Working p F) := by
  rintro w w' hi - ho ⟨hstarted, hf⟩
  have ha := ho.1.2 hstarted
  refine ⟨?_, hF w w' hi ha (ho.2 hstarted) hf⟩
  rw [ha.quiet.kind]
  exact hstarted

theorem RowOf.guarded (runId t : Uuid) : Guarded p (RowOf runId t) := by
  rintro w w' hi ha - ⟨r, hr, hid, ht⟩
  rcases ha.quiet.evolution.row hi.db hr with hkept | ⟨q, σ, r', -, hr', n, -, -, hmove⟩
  · exact ⟨r, hkept, hid, ht⟩
  · exact ⟨r', hr', hmove.unmoved.id.trans hid, hmove.unmoved.threadId.trans ht⟩

theorem Ordered.guarded : Guarded p (Ordered p) := by
  intro w w' hi ha hh h id hid
  obtain ⟨r, hr, hrid, hlock⟩ := h id ((hh.locks _).mp hid)
  obtain ⟨r', hr', hid', ht⟩ := RowOf.guarded id r.threadId w w' hi ha hh ⟨r, hr, hrid, rfl⟩
  refine ⟨r', hr', hid', ?_⟩
  rw [ht]
  exact (hh.locks _).mpr hlock

theorem EmptyHanded.guarded : Guarded p (EmptyHanded p) := fun _ _ _ _ hh h => hh.empty h

theorem Reads.guarded (t : Option Uuid) : Guarded p (Reads p t) := by
  intro w w' hi ha hh h
  refine ⟨Ordered.guarded w w' hi ha hh h.ordered, ?_, ?_, ?_⟩
  · rw [ha.session]
    exact h.session
  · exact fun k hk => h.inserts k ((hh.inserts k).mp hk)
  · cases t with
    | none => exact fun k hk => h.locks k ((hh.locks k).mp hk)
    | some t => exact (hh.locks _).mpr h.locks

theorem Writes.guarded : Guarded p (Writes p) := fun w w' hi ha hh h =>
  ⟨Ordered.guarded w w' hi ha hh h.ordered, fun k hk => h.inserts k ((hh.inserts k).mp hk)⟩

theorem Reads.writes {t : Option Uuid} {w : World} (h : Reads p t w) : Writes p w :=
  ⟨h.ordered, h.inserts⟩

theorem EmptyHanded.ordered {w : World} (h : EmptyHanded p w) : Ordered p w :=
  fun _ hid => absurd hid (h.locks _)

/-- What a transaction sees before it has written. -/
theorem Reads.view {t : Option Uuid} {w : World} (h : Reads p t w) : w.view p = w.db := by
  obtain ⟨σ, hσ, hwrites⟩ := h.session
  rw [World.view, hσ]
  show w.db.after σ.writes = w.db
  rw [hwrites, Db.after_nil]

end Guarded

-- ---------------------------------------------------------------------------
-- Statements
-- ---------------------------------------------------------------------------

section Statements

variable {p : Pid} {α : Type} {F : World → Prop} {t : Option Uuid}

/-- The program takes what it takes in order. -/
def Obeys (p : Pid) (F : World → Prop) (m : P α) (G : World → Prop) : Prop :=
  ∀ φ, custody.Watches machine p (orderWatch p) φ (Working p F) m fun _ _ => Working p G

theorem Obeys.pre {F' G : World → Prop} {m : P α} (h : Obeys p F m G) (hF : ∀ w, F' w → F w) :
    Obeys p F' m G :=
  fun φ => Discipline.Watches.pre (fun w _ hw => ⟨hw.1, hF w hw.2⟩) (h φ)

theorem Obeys.done {G : World → Prop} {r : Except Exn α} (hF : Guarded p F) (hG : ∀ w, F w → G w) :
    Obeys p F (.done r) G :=
  fun _ => Discipline.Watches.done hF.stable fun w _ h => ⟨h.1, hG w h.2⟩

theorem Obeys.handle {β : Type} {G H : World → Prop} {m : P β} {f : Except Exn β → P α}
    (hm : Obeys p F m H) (hf : ∀ r, Obeys p H (f r) G) : Obeys p F (m.handle f) G :=
  fun φ => Discipline.Watches.handle (hm φ) fun φ' r => hf r φ'

theorem started_of_exec {w w' : World} {o : Op} {c : Choice} {r : Except Exn (Res o)} {fs : Forks}
    (h : exec p w o c = some (r, w', fs)) (hstarted : w.kind p ≠ .idle) : w'.kind p ≠ .idle := by
  rcases (exec_frame h).kind p with hsame | ⟨hidle, -⟩
  · rw [hsame]
    exact hstarted
  · exact absurd hidle hstarted

/-- One statement of a transaction. -/
theorem obeys_statement {o : Op} {f : Res o → P α} {C : Res o → World → Prop} (hF : Guarded p F)
    (hordered : ∀ w, F w → Ordered p w) (hplain : o.isPlain = true)
    (horder : ∀ w, Inv false w → F w → InOrder p w o)
    (hok : ∀ w r w' fs, Inv false w → F w → execOk p w o = some (r, w', fs) →
      (∃ a, r = .ok a ∧ C a w') ∨ ∃ e, r = .error e ∧ w' = w)
    (hf : ∀ a, Obeys p (C a) (f a) (Ordered p)) :
    Obeys p F (perform o >>= f) (Ordered p) := by
  intro φ
  refine Discipline.Watches.op
    (B := fun r w => w.kind p ≠ .idle ∧ ifOk C (fun _ => Ordered p) r w)
    hF.stable (fun w hi h => horder w hi h.2) (fun _ => trivial) ?_ ?_
  · rintro w c r w' fs hi - ⟨hstarted, hf⟩ - hx
    refine ⟨started_of_exec hx hstarted, ?_⟩
    rcases exec_plain hplain hx with hx | ⟨e, rfl, rfl, -, -⟩
    · rcases hok w r w' fs hi hf hx with ⟨a, rfl, hc⟩ | ⟨e, rfl, rfl⟩
      · exact hc
      · exact hordered _ hf
    · exact hordered _ hf
  · rintro (e | a)
    · exact Obeys.done Ordered.guarded (fun _ h => h) φ
    · exact hf a φ

/-- A statement that only reads. -/
theorem obeys_read {o : Op} {f : Res o → P α} {C : Res o → Prop} (hF : Guarded p F)
    (hordered : ∀ w, F w → Ordered p w) (hplain : o.isPlain = true)
    (horder : ∀ w, F w → InOrder p w o)
    (hok : ∀ w r w' fs, execOk p w o = some (r, w', fs) → w' = w ∧ ∃ a, r = .ok a ∧ C a)
    (hf : ∀ a, C a → Obeys p F (f a) (Ordered p)) : Obeys p F (perform o >>= f) (Ordered p) := by
  refine obeys_statement (C := fun a w => C a ∧ F w) hF hordered hplain (fun w _ => horder w) ?_ ?_
  · intro w r w' fs _ ha hx
    obtain ⟨rfl, a, rfl, hc⟩ := hok w r w' fs hx
    exact Or.inl ⟨a, rfl, hc, ha⟩
  · exact fun a φ w hi h => hf a h.2.1 φ w hi ⟨h.1, h.2.2⟩

/-- The clock: the transaction goes on as it was. -/
theorem obeys_now {f : Time → P α} (hf : ∀ n, Obeys p (Reads p t) (f n) (Ordered p)) :
    Obeys p (Reads p t) (perform .now >>= f) (Ordered p) := by
  refine obeys_statement (Reads.guarded t) (fun _ h => h.ordered) rfl
    (fun w _ h => ⟨h.ordered, trivial⟩) (fun w r w' fs _ h hx => ?_) hf
  obtain ⟨σ, hσ, hwrites⟩ := h.session
  simp only [execOk, hσ] at hx
  obtain ⟨rfl, rfl, rfl⟩ : _ ∧ _ ∧ _ := by simpa [answer] using hx
  refine Or.inl
    ⟨_, rfl, h.ordered, ⟨{ σ with now := some w.clock }, ?_, hwrites⟩, h.inserts, h.locks⟩
  exact Function.update_self _ _ _

/-- The clock, after the writes. -/
theorem obeys_now_late {f : Time → P α} (hf : ∀ n, Obeys p (Ordered p) (f n) (Ordered p)) :
    Obeys p (Ordered p) (perform .now >>= f) (Ordered p) := by
  refine obeys_statement Ordered.guarded (fun _ h => h) rfl (fun w _ h => ⟨h, trivial⟩)
    (fun w r w' fs _ h hx => ?_) hf
  simp only [execOk] at hx
  split at hx
  · obtain ⟨rfl, rfl, rfl⟩ : _ ∧ _ ∧ _ := by simpa [answer] using hx
    exact Or.inl ⟨_, rfl, h⟩
  · exact absurd hx (by simp)

theorem obeys_updateRun {row : RunRow} {f : Unit → P α}
    (hf : Obeys p (Writes p) (f ()) (Ordered p)) :
    Obeys p (Writes p) (perform (.updateRun row) >>= f) (Ordered p) := by
  refine obeys_statement Writes.guarded (fun _ h => h.ordered) rfl
    (fun w _ h => ⟨h.ordered, trivial⟩)
    (fun w r w' fs _ h hx => ?_) fun _ => hf
  simp only [execOk] at hx
  split at hx
  · obtain ⟨rfl, rfl, rfl⟩ : _ ∧ _ ∧ _ := by simpa [answer] using hx
    exact Or.inl ⟨(), rfl, h.ordered, h.inserts⟩
  · exact absurd hx (by simp)

theorem obeys_updateRun_late {row : RunRow} {f : Unit → P α}
    (hf : Obeys p (Ordered p) (f ()) (Ordered p)) :
    Obeys p (Ordered p) (perform (.updateRun row) >>= f) (Ordered p) := by
  refine obeys_statement Ordered.guarded (fun _ h => h) rfl (fun w _ h => ⟨h, trivial⟩)
    (fun w r w' fs _ h hx => ?_) fun _ => hf
  simp only [execOk] at hx
  split at hx
  · obtain ⟨rfl, rfl, rfl⟩ : _ ∧ _ ∧ _ := by simpa [answer] using hx
    exact Or.inl ⟨(), rfl, h⟩
  · exact absurd hx (by simp)

/-- The row locks stay in order when a thread is locked. -/
theorem Ordered.lockThread {w : World} (h : Ordered p w) {id : Uuid}
    (hfree : w.free p (.thread id) = true) : Ordered p (w.lock p (.thread id)) := by
  intro runId hid
  have hid' : w.holder (.run runId) = some p := by
    change Function.update w.holder (.thread id) (some p) (.run runId) = some p at hid
    rwa [Function.update_of_ne (by simp)] at hid
  obtain ⟨r, hr, hrid, hlock⟩ := h runId hid'
  exact ⟨r, hr, hrid, holder_lock hfree hlock⟩

theorem obeys_lockThread {id : Uuid} {name : Option String} {f : Option ThreadRow → P α}
    {F : World → Prop} (hF : Guarded p F) (hdb : ∀ w k, F w → F (w.lock p k))
    (hnone : Obeys p (fun w => Reads p none w ∧ F w) (f none) (Ordered p))
    (hsome : ∀ row, Obeys p (fun w => Reads p (some id) w ∧ F w) (f (some row)) (Ordered p)) :
    Obeys p (fun w => Reads p none w ∧ F w) (perform (.lockThread id name) >>= f) (Ordered p) := by
  refine obeys_statement
    (C := ifSome (fun w => Reads p none w ∧ F w) fun _ w => Reads p (some id) w ∧ F w)
    ((Reads.guarded none).and hF) (fun _ h => h.1.ordered) rfl
    (fun w _ h => ⟨h.1.ordered, Or.inr ⟨h.1.locks, h.1.inserts⟩⟩) (fun w r w' fs _ h hx => ?_) ?_
  · simp only [execOk] at hx
    split at hx
    · obtain ⟨rfl, rfl, rfl⟩ : _ ∧ _ ∧ _ := by simpa [answer] using hx
      exact Or.inl ⟨none, rfl, h⟩
    · split at hx
      · next row _ hfree =>
        obtain ⟨rfl, rfl, rfl⟩ : _ ∧ _ ∧ _ := by simpa [answer] using hx
        exact Or.inl ⟨some row, rfl, ⟨h.1.ordered.lockThread hfree, h.1.session, h.1.inserts,
          Function.update_self _ _ _⟩, hdb w _ h.2⟩
      · exact absurd hx (by simp)
  · rintro (_ | row)
    · exact hnone
    · exact hsome row

/-- A thread that is locked already. -/
theorem obeys_relock {id : Uuid} {name : Option String} {f : Option ThreadRow → P α}
    (hf : ∀ a, Obeys p (Reads p (some id)) (f a) (Ordered p)) :
    Obeys p (Reads p (some id)) (perform (.lockThread id name) >>= f) (Ordered p) := by
  refine obeys_statement (Reads.guarded _) (fun _ h => h.ordered) rfl
    (fun w _ h => ⟨h.ordered, Or.inl h.locks⟩) (fun w r w' fs _ h hx => ?_) hf
  simp only [execOk] at hx
  split at hx
  · obtain ⟨rfl, rfl, rfl⟩ : _ ∧ _ ∧ _ := by simpa [answer] using hx
    exact Or.inl ⟨none, rfl, h⟩
  · split at hx
    · next row _ hfree =>
      obtain ⟨rfl, rfl, rfl⟩ : _ ∧ _ ∧ _ := by simpa [answer] using hx
      exact Or.inl ⟨some row, rfl, h.ordered.lockThread hfree, h.session, h.inserts,
        Function.update_self _ _ _⟩
    · exact absurd hx (by simp)

theorem obeys_tryLockThread {id : Uuid} {f : Option ThreadRow → P α} {F : World → Prop}
    (hF : Guarded p F) (hdb : ∀ w k, F w → F (w.lock p k))
    (hnone : Obeys p (fun w => Reads p none w ∧ F w) (f none) (Ordered p))
    (hsome : ∀ row, Obeys p (fun w => Reads p (some id) w ∧ F w) (f (some row)) (Ordered p)) :
    Obeys p (fun w => Reads p none w ∧ F w) (perform (.tryLockThread id) >>= f) (Ordered p) := by
  refine obeys_statement
    (C := ifSome (fun w => Reads p none w ∧ F w) fun _ w => Reads p (some id) w ∧ F w)
    ((Reads.guarded none).and hF) (fun _ h => h.1.ordered) rfl
    (fun w _ h => ⟨h.1.ordered, trivial⟩) (fun w r w' fs _ h hx => ?_) ?_
  · simp only [execOk] at hx
    split at hx
    · obtain ⟨rfl, rfl, rfl⟩ : _ ∧ _ ∧ _ := by simpa [answer] using hx
      exact Or.inl ⟨none, rfl, h⟩
    · split at hx
      · next row _ hfree =>
        obtain ⟨rfl, rfl, rfl⟩ : _ ∧ _ ∧ _ := by simpa [answer] using hx
        exact Or.inl ⟨some row, rfl, ⟨h.1.ordered.lockThread hfree, h.1.session, h.1.inserts,
          Function.update_self _ _ _⟩, hdb w _ h.2⟩
      · obtain ⟨rfl, rfl, rfl⟩ : _ ∧ _ ∧ _ := by simpa [answer] using hx
        exact Or.inl ⟨none, rfl, h⟩
  · rintro (_ | row)
    · exact hnone
    · exact hsome row

theorem obeys_threadOf {runId : Uuid} {f : Option Uuid → P α}
    (hnone : Obeys p (Reads p none) (f none) (Ordered p))
    (hsome : ∀ t, Obeys p (fun w => Reads p none w ∧ RowOf runId t w) (f (some t)) (Ordered p)) :
    Obeys p (Reads p none) (perform (.threadOf runId) >>= f) (Ordered p) := by
  refine obeys_statement
    (C := fun a w => Reads p none w ∧ ∀ t, a = some t → RowOf runId t w)
    (Reads.guarded none) (fun _ h => h.ordered) rfl (fun w _ h => ⟨h.ordered, trivial⟩)
    (fun w r w' fs _ h hx => ?_) ?_
  · simp only [execOk, h.view] at hx
    obtain ⟨rfl, rfl, rfl⟩ : _ ∧ _ ∧ _ := by simpa [answer] using hx
    refine Or.inl ⟨_, rfl, h, fun t ht => ?_⟩
    obtain ⟨row, hrow, hthread⟩ := Option.map_eq_some_iff.mp ht
    obtain ⟨hmem, hid⟩ := Db.run?_mem hrow
    exact ⟨row, hmem, hid, hthread⟩
  · rintro (_ | t)
    · exact hnone.pre fun _ h => h.1
    · exact (hsome t).pre fun _ h => ⟨h.1, h.2 t rfl⟩

/-- Taking locks on runs of the thread that is locked. -/
theorem Ordered.lockRuns {w : World} {t : Uuid} {ks : List LockKey} (h : Ordered p w)
    (hthread : w.holder (.thread t) = some p) (hfree : ∀ k ∈ ks, w.free p k = true)
    (hks : ∀ k ∈ ks, ∃ r ∈ w.db.runs, k = .run r.id ∧ r.threadId = t) :
    Ordered p (w.lockAll p ks) := by
  intro id hid
  rw [lockAll_holder] at hid
  split at hid
  · next hk =>
    obtain ⟨r, hr, hkey, ht⟩ := hks _ hk
    refine ⟨r, by rw [lockAll_eq]; exact hr, by injection hkey with h; exact h.symm, ?_⟩
    rw [ht]
    exact holder_lockAll hfree hthread
  · obtain ⟨r, hr, hrid, hlock⟩ := h id hid
    exact ⟨r, by rw [lockAll_eq]; exact hr, hrid, holder_lockAll hfree hlock⟩

theorem Reads.lockRuns {w : World} {t : Uuid} {ks : List LockKey} (h : Reads p (some t) w)
    (hfree : ∀ k ∈ ks, w.free p k = true)
    (hks : ∀ k ∈ ks, ∃ r ∈ w.db.runs, k = .run r.id ∧ r.threadId = t) :
    Reads p (some t) (w.lockAll p ks) := by
  refine ⟨h.ordered.lockRuns h.locks hfree hks, ?_, ?_, holder_lockAll hfree h.locks⟩
  · rw [lockAll_eq]
    exact h.session
  · rw [lockAll_eq]
    exact h.inserts

theorem obeys_lockRunOp {runId t : Uuid} {f : List RunRow → P α}
    (hf : ∀ rows, (∀ row ∈ rows, row.threadId = t) →
        Obeys p (Reads p (some t)) (f rows) (Ordered p)) :
    Obeys p (fun w => Reads p (some t) w ∧ RowOf runId t w) (perform (.lockRun runId) >>= f)
      (Ordered p) := by
  refine obeys_statement
    (C := fun rows w => (∀ row ∈ rows, row.threadId = t) ∧ Reads p (some t) w)
    ((Reads.guarded _).and (RowOf.guarded runId t)) (fun _ h => h.1.ordered) rfl ?_
    (fun w r w' fs hi h hx => ?_) fun rows φ w hi h => hf rows h.2.1 φ w hi ⟨h.1, h.2.2⟩
  · rintro w - ⟨h, r, hr, hid, ht⟩
    exact ⟨h.ordered, r, hr, hid, ht ▸ h.locks⟩
  · simp only [execOk, h.1.view] at hx
    split at hx
    · next hfree =>
      split at hx
      · obtain ⟨rfl, rfl, rfl⟩ : _ ∧ _ ∧ _ := by simpa [answer] using hx
        exact Or.inl ⟨[], rfl, fun _ h => absurd h List.not_mem_nil, h.1⟩
      · next row hrow =>
        obtain ⟨rfl, rfl, rfl⟩ : _ ∧ _ ∧ _ := by simpa [answer] using hx
        obtain ⟨hreads, r, hr, hid, ht⟩ := h
        obtain ⟨hmem, hrid⟩ := Db.run?_mem hrow
        have hthread : row.threadId = t := by
          rw [hi.db.unique_id hmem hr (hrid.trans hid.symm)]
          exact ht
        refine Or.inl ⟨[row], rfl, fun x hx => ?_, (hreads.lockRuns ?_ ?_ :
          Reads p (some t) (w.lockAll p [.run runId]))⟩
        · rw [List.mem_singleton.mp hx]
          exact hthread
        · intro k hk
          rw [List.mem_singleton.mp hk]
          exact hfree
        · intro k hk
          exact ⟨row, hmem, by rw [List.mem_singleton.mp hk, hrid], hthread⟩
    · exact absurd hx (by simp)

theorem obeys_lockActiveRuns {t : Uuid} {f : List RunRow → P α}
    (hf : ∀ rows, Obeys p (Reads p (some t)) (f rows) (Ordered p)) :
    Obeys p (Reads p (some t)) (perform (.lockActiveRuns t) >>= f) (Ordered p) := by
  refine obeys_statement (Reads.guarded _) (fun _ h => h.ordered) rfl
    (fun w _ h => ⟨h.ordered, h.locks, h.view⟩) (fun w r w' fs _ h hx => ?_) hf
  simp only [execOk, h.view] at hx
  split at hx
  · next hfree =>
    obtain ⟨rfl, rfl, rfl⟩ : _ ∧ _ ∧ _ := by
      simpa only [answer, Option.some.injEq, Prod.mk.injEq] using hx
    refine Or.inl ⟨_, rfl, h.lockRuns (fun k hk => ?_) fun k hk => ?_⟩
    · obtain ⟨row, hrow, rfl⟩ := List.mem_map.mp hk
      exact List.all_eq_true.mp hfree row hrow
    · obtain ⟨row, hrow, rfl⟩ := List.mem_map.mp hk
      obtain ⟨hmem, ht, -⟩ := Db.mem_activeRuns.mp hrow
      exact ⟨row, hmem, rfl, ht⟩
  · exact absurd hx (by simp)

/-- The three inserts. -/
theorem obeys_insert {o : Op} {f : Res o → P α} (hplain : o.isPlain = true)
    (horder : ∀ w, Writes p w → InOrder p w o)
    (hok : ∀ w r w' fs, execOk p w o = some (r, w', fs) →
      w'.holder = w.holder ∧ w'.db = w.db ∧ ((∃ a, r = .ok a) ∨ ∃ e, r = .error e ∧ w' = w))
    (hf : ∀ a, Obeys p (Ordered p) (f a) (Ordered p)) :
    Obeys p (Writes p) (perform o >>= f) (Ordered p) := by
  refine obeys_statement (C := fun _ w => Ordered p w) Writes.guarded (fun _ h => h.ordered) hplain
    (fun w _ => horder w) (fun w r w' fs _ h hx => ?_) hf
  obtain ⟨hholder, hdb, ⟨a, rfl⟩ | herror⟩ := hok w r w' fs hx
  · refine Or.inl ⟨a, rfl, ?_⟩
    unfold Ordered
    rw [hholder, hdb]
    exact h.ordered
  · exact Or.inr herror

/-- What the three inserts leave alone. -/
theorem insert_quiet {w w' : World} {o : Op} {r : Except Exn (Res o)} {fs : Forks}
    (ho : o.inserts = true) (hx : execOk p w o = some (r, w', fs)) :
    w'.holder = w.holder ∧ w'.db = w.db ∧ ((∃ a, r = .ok a) ∨ ∃ e, r = .error e ∧ w' = w) := by
  cases o with
  | insertRun row quiet =>
    simp only [execOk, answer] at hx
    cases hs : w.session p with
    | none =>
      rw [hs] at hx
      exact absurd hx (by simp)
    | some σ =>
      rw [hs] at hx
      dsimp only at hx
      repeat' split at hx
      all_goals first
        | obtain ⟨rfl, rfl, rfl⟩ : _ ∧ _ ∧ _ := by
            simpa only [Option.some.injEq, Prod.mk.injEq] using hx
        | exact absurd hx (by simp)
      · exact ⟨rfl, rfl, Or.inl ⟨_, rfl⟩⟩
      · exact ⟨rfl, rfl, Or.inr ⟨_, rfl, rfl⟩⟩
      · exact ⟨rfl, rfl, Or.inl ⟨_, rfl⟩⟩
  | insertMessages rows =>
    simp only [execOk, answer] at hx
    repeat' split at hx
    all_goals first
      | obtain ⟨rfl, rfl, rfl⟩ : _ ∧ _ ∧ _ := by
          simpa only [Option.some.injEq, Prod.mk.injEq] using hx
      | exact absurd hx (by simp)
    · exact ⟨rfl, rfl, Or.inr ⟨_, rfl, rfl⟩⟩
    · exact ⟨rfl, rfl, Or.inl ⟨_, rfl⟩⟩
  | insertThread row =>
    simp only [execOk, answer] at hx
    repeat' split at hx
    all_goals first
      | obtain ⟨rfl, rfl, rfl⟩ : _ ∧ _ ∧ _ := by
          simpa only [Option.some.injEq, Prod.mk.injEq] using hx
      | exact absurd hx (by simp)
    · exact ⟨rfl, rfl, Or.inr ⟨_, rfl, rfl⟩⟩
    · exact ⟨rfl, rfl, Or.inl ⟨_, rfl⟩⟩
  | _ => exact absurd ho Bool.false_ne_true

end Statements

-- ---------------------------------------------------------------------------
-- The bodies of the calls
-- ---------------------------------------------------------------------------

section Bodies

variable {p : Pid} {α : Type} {t : Option Uuid}

/-- A body ends where it is. -/
theorem obeys_end {r : Except Exn α} : Obeys p (Reads p t) (.done r) (Ordered p) :=
  Obeys.done (Reads.guarded t) fun _ h => h.ordered

theorem obeys_readRuns {agentId : String} {key : Option String} {f : List RunRow → P α}
    {F : World → Prop} (hF : Guarded p F) (hordered : ∀ w, F w → Ordered p w)
    (hf : ∀ rows, Obeys p F (f rows) (Ordered p)) :
    Obeys p F (perform (.runsByKey agentId key) >>= f) (Ordered p) := by
  refine obeys_read (C := fun _ => True) hF hordered rfl (fun w h => ⟨hordered w h, trivial⟩)
    (fun w r w' fs hx => ?_) fun rows _ => hf rows
  obtain ⟨rfl, rfl, rfl⟩ : _ ∧ _ ∧ _ := by simpa [execOk, answer] using hx
  exact ⟨rfl, _, rfl, trivial⟩

theorem obeys_lockRun {runId : Uuid} {f : RunRow → P α}
    (hf : ∀ row, Obeys p (Reads p (some row.threadId)) (f row) (Ordered p)) :
    Obeys p (Reads p none) (lockRun runId >>= f) (Ordered p) := by
  unfold lockRun lockThread
  simp only [bind_bind]
  refine obeys_threadOf obeys_end fun t => ?_
  simp only [bind_bind]
  refine obeys_lockThread (RowOf.guarded runId t) (fun _ _ h => h) (obeys_end.pre fun _ h => h.1)
    fun _ => ?_
  rw [pure_bind]
  refine obeys_lockRunOp fun rows hrows => ?_
  cases hone : scalarOne rows with
  | error e => exact obeys_end
  | ok row =>
    refine (hf row).pre fun w h => ?_
    rw [hrows row (scalarOne_ok hone)]
    exact h

theorem obeys_claimIn (args : ClaimArgs) (lease : Time) :
    Obeys p (Reads p none) (claimIn args lease) (Ordered p) := by
  have hinsert : ∀ n, Obeys p (Writes p) (insertClaim args lease n) (Ordered p) := by
    intro n
    unfold insertClaim
    refine obeys_insert rfl (fun w h => ⟨h.ordered, h.inserts⟩)
      (fun w r w' fs hx => insert_quiet rfl hx) ?_
    rintro (_ | row)
    · refine obeys_readRuns Ordered.guarded (fun _ h => h) fun rows => ?_
      cases scalarOne rows with
      | error e => exact Obeys.done Ordered.guarded fun _ h => h
      | ok existing =>
        refine Obeys.pre ?_ fun _ h => h
        show Obeys p _ (lift (checkHash existing args.requestHash) >>= _) _
        cases checkHash existing args.requestHash <;>
          exact Obeys.done Ordered.guarded fun _ h => h
    · exact Obeys.done Ordered.guarded fun _ h => h
  have hslot : Obeys p (Reads p (some args.threadId)) (claimSlot args lease) (Ordered p) := by
    unfold claimSlot
    refine obeys_lockActiveRuns fun rows => ?_
    cases scalarOneOrNone rows with
    | error e => exact obeys_end
    | ok active =>
      refine obeys_now fun n => ?_
      cases active with
      | none => exact (hinsert n).pre fun _ h => h.writes
      | some row =>
        dsimp only
        cases expire row n with
        | none => exact obeys_end
        | some expired => exact (obeys_updateRun (hinsert n)).pre fun _ h => h.writes
  unfold claimIn lockThread
  simp only [bind_bind]
  refine Obeys.pre (F := fun w => Reads p none w ∧ True) ?_ fun _ h => ⟨h, trivial⟩
  refine obeys_lockThread (.const True) (fun _ _ h => h) (obeys_end.pre fun _ h => h.1) fun _ => ?_
  rw [pure_bind]
  refine Obeys.pre (F := Reads p (some args.threadId)) ?_ fun _ h => h.1
  cases args.idempotencyKey with
  | none => exact hslot
  | some key =>
    refine obeys_readRuns (Reads.guarded _) (fun _ h => h.ordered) fun rows => ?_
    cases scalarOneOrNone rows with
    | error e => exact obeys_end
    | ok previous =>
      cases previous with
      | none => exact hslot
      | some existing =>
        show Obeys p _ (lift (checkHash existing args.requestHash) >>= _) _
        cases checkHash existing args.requestHash <;> exact obeys_end

/-- The update that ends a body. -/
theorem obeys_updated {row : RunRow} {a : α} :
    Obeys p (Reads p t) (perform (.updateRun row) >>= fun _ => pure a) (Ordered p) :=
  (obeys_updateRun (Obeys.done Writes.guarded fun _ h => h.ordered)).pre fun _ h => h.writes

theorem obeys_transitionIn (runId : Uuid) (status : RunStatus) (token : Uuid)
    (response : Option RuntimeResponse) (code : Option String) :
    Obeys p (Reads p none) (transitionIn runId status token response code) (Ordered p) := by
  unfold transitionIn
  refine obeys_lockRun fun row => obeys_now fun n => ?_
  cases checkOwner row token n with
  | error e => exact obeys_end
  | ok =>
    show Obeys p _ (lift (checkTransition row status response) >>= _) _
    cases checkTransition row status response with
    | error e => exact obeys_end
    | ok => exact obeys_updated

/-- A batch for the thread that is locked. -/
theorem obeys_appendBatch {id : Uuid} {messages : List Message}
    {f : List MessageRow → P α} (hempty : Obeys p (Reads p (some id)) (f []) (Ordered p))
    (hf : ∀ rows, Obeys p (Ordered p) (f rows) (Ordered p)) :
    Obeys p (Reads p (some id))
      ((match messages with
        | [] => pure []
        | _ => do
          let last ← perform (.lastSequence id)
          let rows := numbered id last messages
          perform (.insertMessages rows)
          pure rows : P (List MessageRow)) >>= f) (Ordered p) := by
  cases messages with
  | nil => exact hempty
  | cons m rest =>
    simp only [bind_bind]
    refine obeys_read (C := fun _ => True) (Reads.guarded _) (fun _ h => h.ordered) rfl
      (fun w h => ⟨h.ordered, trivial⟩) (fun w r w' fs hx => ?_) fun last _ => ?_
    · obtain ⟨rfl, rfl, rfl⟩ : _ ∧ _ ∧ _ := by simpa [execOk, answer] using hx
      exact ⟨rfl, _, rfl, trivial⟩
    · refine Obeys.pre (F := Writes p) ?_ fun _ h => h.writes
      exact obeys_insert rfl (fun w h => ⟨h.ordered, h.inserts⟩)
        (fun w r w' fs hx => insert_quiet rfl hx) fun _ => hf _

theorem obeys_completeIn (runId token : Uuid) (messages : List Message)
    (response : RuntimeResponse) :
    Obeys p (Reads p none) (completeIn runId token messages response) (Ordered p) := by
  unfold completeIn appendMessageBatch
  refine obeys_lockRun fun row => obeys_now fun n => ?_
  cases checkOwner row token n with
  | error e => exact obeys_end
  | ok =>
    show Obeys p _ (lift (checkCompletion row messages response) >>= _) _
    cases checkCompletion row messages response with
    | error e => exact obeys_end
    | ok =>
      rw [lift_ok_bind]
      simp only [bind_bind]
      refine obeys_relock ?_
      rintro (_ | thread)
      · exact obeys_end
      · refine obeys_appendBatch (obeys_now fun n => ?_) fun rows =>
          obeys_now_late fun n => ?_
        · cases checkOwner row token n with
          | error e => exact obeys_end
          | ok => exact obeys_updated
        · cases checkOwner row token n with
          | error e => exact Obeys.done Ordered.guarded fun _ h => h
          | ok =>
            exact obeys_updateRun_late (Obeys.done Ordered.guarded fun _ h => h)

theorem obeys_failIfRunningIn (runId token : Uuid) (code : String) (status : RunStatus) :
    Obeys p (Reads p none) (failIfRunningIn runId token code status) (Ordered p) := by
  unfold failIfRunningIn
  refine obeys_lockRun fun row => ?_
  split
  · exact obeys_end
  · refine obeys_now fun n => ?_
    split
    · cases expire row n <;> exact obeys_updated
    · exact obeys_end

theorem obeys_recoverIn (runId : Uuid) :
    Obeys p (Reads p none) (recoverIn runId) (Ordered p) := by
  unfold recoverIn
  refine obeys_lockRun fun row => obeys_now fun n => ?_
  cases expire row n with
  | none => exact obeys_end
  | some expired => exact obeys_updated

theorem obeys_recoverOne (runId : Uuid) :
    Obeys p (Reads p none) (recoverOne runId) (Ordered p) := by
  unfold recoverOne
  refine obeys_threadOf obeys_end fun t => ?_
  refine obeys_tryLockThread (RowOf.guarded runId t) (fun _ _ h => h)
    (obeys_end.pre fun _ h => h.1) fun _ => obeys_lockRunOp fun rows _ => ?_
  cases scalarOne rows with
  | error e => exact obeys_end
  | ok row =>
    refine obeys_now fun n => ?_
    cases expire row n with
    | none => exact obeys_end
    | some expired => exact obeys_updated

theorem obeys_appendMessageBatch (id : Uuid) (messages : List Message) (name : Option String) :
    Obeys p (Reads p none) (appendMessageBatch id messages name) (Ordered p) := by
  unfold appendMessageBatch
  refine Obeys.pre (F := fun w => Reads p none w ∧ True) ?_ fun _ h => ⟨h, trivial⟩
  refine obeys_lockThread (.const True) (fun _ _ h => h) (obeys_end.pre fun _ h => h.1) fun _ => ?_
  refine Obeys.pre (F := Reads p (some id)) ?_ fun _ h => h.1
  have hbatch := @obeys_appendBatch p _ id messages
    (fun rows => (pure rows : P (List MessageRow))) obeys_end
    fun _ => Obeys.done Ordered.guarded fun _ h => h
  rwa [bind_pure] at hbatch

end Bodies

-- ---------------------------------------------------------------------------
-- Whole calls
-- ---------------------------------------------------------------------------

section Whole

variable {p : Pid} {α β : Type}

/-- The end of a transaction, one way or the other, leaves nothing behind. -/
theorem exec_ends {w w' : World} {o : Op} {c : Choice} {r : Except Exn (Res o)} {fs : Forks}
    (ho : o = .commit ∨ o = .rollback) (h : exec p w o c = some (r, w', fs))
    (hstarted : w.kind p ≠ .idle) : EmptyHanded p w' := by
  rcases ho with rfl | rfl
  · cases hs : w.session p with
    | none =>
      cases c
      all_goals simp only [exec, execOk, hs, answer] at h
      all_goals repeat' split at h
      all_goals first
        | obtain ⟨rfl, rfl, rfl⟩ : _ ∧ _ ∧ _ := by
            simpa only [Option.some.injEq, Prod.mk.injEq] using h
        | exact absurd h (by simp)
      exact endSession_empty
    | some σ =>
      rcases exec_commit hs h with ⟨-, rfl, -⟩ |
        ⟨e, -, -, ⟨rfl, -⟩ | ⟨rfl, -⟩ | ⟨x, hidle, rfl, -⟩⟩
      · exact ⟨endSession_empty.locks, endSession_empty.inserts⟩
      · exact endSession_empty
      · exact ⟨endSession_empty.locks, endSession_empty.inserts⟩
      · refine handOver_empty σ ?_
        rintro rfl
        exact hstarted hidle
  · obtain ⟨rfl, -, -⟩ := exec_rollback h
    exact endSession_empty

theorem obeys_ends {o : Op} {f : Except Exn (Res o) → P α} (ho : o = .commit ∨ o = .rollback)
    (hf : ∀ r, ∃ r', f r = .done r') : Obeys p (Ordered p) (.op o f) (EmptyHanded p) := by
  intro φ
  refine Discipline.Watches.op (B := fun _ => Working p (EmptyHanded p)) Ordered.guarded.stable
    (fun w _ h => ⟨h.2, ?_⟩) (fun _ => trivial)
    (fun w c r w' fs _ _ h _ hx => ⟨started_of_exec hx h.1, exec_ends ho hx h.1⟩) fun r => ?_
  · rcases ho with rfl | rfl <;> trivial
  · obtain ⟨r', hr⟩ := hf r
    rw [hr]
    exact Obeys.done EmptyHanded.guarded (fun _ h => h) φ

theorem obeys_transaction {call : Call} {body : P α}
    (hbody : Obeys p (Reads p none) body (Ordered p)) :
    Obeys p (EmptyHanded p) (inTransaction call body) (EmptyHanded p) := by
  unfold inTransaction
  intro φ
  refine Discipline.Watches.op
    (B := fun r w => w.kind p ≠ .idle ∧
      ifOk (fun _ => Reads p none) (fun _ => EmptyHanded p) r w)
    EmptyHanded.guarded.stable (fun w _ h => ⟨h.2.ordered, trivial⟩) (fun _ => trivial) ?_ ?_
  · rintro w c r w' fs - - ⟨hstarted, hempty⟩ - hx
    refine ⟨started_of_exec hx hstarted, ?_⟩
    rcases exec_plain rfl hx with hx | ⟨e, rfl, rfl, -, -⟩
    · simp only [execOk] at hx
      split at hx
      · obtain ⟨rfl, rfl, rfl⟩ : _ ∧ _ ∧ _ := by simpa [answer] using hx
        refine ⟨hempty.ordered, ⟨_, Function.update_self _ _ _, rfl⟩, hempty.inserts, hempty.locks⟩
      · exact absurd hx (by simp)
    · exact hempty
  · rintro (e | u)
    · exact Obeys.done EmptyHanded.guarded (fun _ h => h) φ
    · show Discipline.Watches _ _ _ _ _ _ (body.attempt >>= _) _
      rw [attempt_bind]
      refine Obeys.handle hbody ?_ φ
      rintro (e | a)
      · refine obeys_ends (Or.inr rfl) ?_
        rintro (e' | u)
        · exact ⟨.error e', rfl⟩
        · exact ⟨.error e, rfl⟩
      · refine obeys_ends (Or.inl rfl) ?_
        rintro (e' | u)
        · exact ⟨.error e', rfl⟩
        · exact ⟨.ok a, rfl⟩

/-- Outside of a transaction. -/
theorem obeys_bind {m : P β} {f : β → P α}
    (hm : Obeys p (EmptyHanded p) m (EmptyHanded p))
    (hf : ∀ b, Obeys p (EmptyHanded p) (f b) (EmptyHanded p)) :
    Obeys p (EmptyHanded p) (m >>= f) (EmptyHanded p) := by
  refine hm.handle ?_
  rintro (e | b)
  · exact Obeys.done EmptyHanded.guarded fun _ h => h
  · exact hf b

theorem obeys_pure {r : Except Exn α} : Obeys p (EmptyHanded p) (.done r) (EmptyHanded p) :=
  Obeys.done EmptyHanded.guarded fun _ h => h

theorem obeys_recoverEach (limit : Int) (ids : List Uuid) :
    Obeys p (EmptyHanded p) (recoverEach limit ids) (EmptyHanded p) := by
  induction ids with
  | nil => exact obeys_pure
  | cons runId rest ih =>
    exact obeys_bind (obeys_transaction (obeys_recoverOne runId)) fun _ =>
      obeys_bind ih fun _ => obeys_pure

/-- An operation outside of a transaction that touches no lock. -/
theorem obeys_perform {o : Op} (horder : ∀ w, Ordered p w → InOrder p w o)
    (hhands : ∀ w c r w' fs, exec p w o c = some (r, w', fs) →
      w'.holder = w.holder ∧ w'.inserting = w.inserting) :
    Obeys p (EmptyHanded p) (perform o : P (Res o)) (EmptyHanded p) := by
  intro φ
  refine Discipline.Watches.op (B := fun _ => Working p (EmptyHanded p)) EmptyHanded.guarded.stable
    (fun w _ h => horder w h.2.ordered) (fun _ => trivial) ?_ fun r => obeys_pure φ
  rintro w c r w' fs - - ⟨hstarted, hempty⟩ - hx
  obtain ⟨hholder, hinserting⟩ := hhands w c r w' fs hx
  exact ⟨started_of_exec hx hstarted, (Hands.same hholder hinserting).empty hempty⟩

theorem obeys_call (call : Call) : Obeys p (EmptyHanded p) call.program (EmptyHanded p) := by
  cases call with
  | claim args =>
    refine obeys_bind ?_ fun _ => obeys_pure
    unfold claim
    cases args.lease with
    | none => exact obeys_pure
    | some lease => exact obeys_transaction (obeys_claimIn args lease)
  | transition runId status token response code =>
    refine obeys_bind ?_ fun _ => obeys_pure
    unfold transition
    split
    · exact obeys_pure
    · exact obeys_transaction (obeys_transitionIn runId status token response code)
  | complete runId token messages response =>
    exact obeys_bind (obeys_transaction (obeys_completeIn runId token messages response))
      fun _ => obeys_pure
  | failIfRunning runId token code status =>
    refine obeys_bind ?_ fun _ => obeys_pure
    unfold failIfRunning
    split
    · exact obeys_pure
    · exact obeys_transaction (obeys_failIfRunningIn runId token code status)
  | recover runId =>
    exact obeys_bind (obeys_transaction (obeys_recoverIn runId)) fun _ => obeys_pure
  | recoverExpired limit =>
    refine obeys_bind ?_ fun _ => obeys_pure
    unfold recoverExpired
    split
    · refine obeys_bind (obeys_perform (fun w h => ⟨h, trivial⟩) fun w c r w' fs hx => ?_)
        fun ids => obeys_recoverEach limit ids
      rcases exec_plain rfl hx with hx | ⟨e, rfl, rfl, -, -⟩
      · obtain ⟨rfl, rfl, rfl⟩ : _ ∧ _ ∧ _ := by simpa [execOk, answer] using hx
        exact ⟨rfl, rfl⟩
      · exact ⟨rfl, rfl⟩
    · exact obeys_pure
  | appendMessages id messages name =>
    exact obeys_bind (obeys_transaction (obeys_appendMessageBatch id messages name))
      fun _ => obeys_pure
  | createThread name userKey =>
    refine obeys_bind ?_ fun _ => obeys_pure
    unfold createThread
    refine obeys_bind (obeys_perform (fun w h => ⟨h, trivial⟩) fun w c r w' fs hx => ?_)
      fun threadId => obeys_transaction ?_
    · cases c
      all_goals simp only [exec, execOk, answer] at hx
      all_goals repeat' split at hx
      all_goals first
        | (obtain ⟨-, rfl, -⟩ : _ ∧ _ ∧ _ := by
            simpa only [Option.some.injEq, Prod.mk.injEq] using hx
           exact ⟨rfl, rfl⟩)
        | exact absurd hx (by simp)
    · refine Obeys.pre (F := Writes p) ?_ fun _ h => h.writes
      refine obeys_insert rfl (fun w h => ⟨h.ordered, h.inserts⟩)
        (fun w r w' fs hx => insert_quiet rfl hx) fun _ => ?_
      refine obeys_read (C := fun _ => True) Ordered.guarded (fun _ h => h) rfl
        (fun w h => ⟨h, trivial⟩) (fun w r w' fs hx => ?_) fun row _ => ?_
      · obtain ⟨rfl, rfl, rfl⟩ : _ ∧ _ ∧ _ := by simpa [execOk, answer] using hx
        exact ⟨rfl, _, rfl, trivial⟩
      · cases row <;> exact Obeys.done Ordered.guarded fun _ h => h

/-- A transaction without a client. -/
theorem obeys_resolver : Obeys p (Ordered p) resolverProgram (EmptyHanded p) := by
  intro φ
  refine Discipline.Watches.op (B := fun _ => Working p (EmptyHanded p)) Ordered.guarded.stable
    (fun w _ h => ⟨h.2, trivial⟩) (fun _ => trivial) ?_ ?_
  · rintro w c r w' fs - - ⟨hstarted, -⟩ - hx
    refine ⟨started_of_exec hx hstarted, ?_⟩
    change exec p w .resolve c = some (r, w', fs) at hx
    cases c with
    | flag b =>
      simp only [exec] at hx
      split at hx
      · obtain ⟨rfl, rfl, rfl⟩ : _ ∧ _ ∧ _ := by simpa [answer] using hx
        cases b <;> exact ⟨endSession_empty.locks, endSession_empty.inserts⟩
      · exact absurd hx (by simp)
    | fail e =>
      exact absurd hx (by
        cases e <;> simp [exec, Op.mayRaise, Op.suspends, Op.isStatement, Op.isForeign])
    | _ => exact absurd hx (by simp [exec, execOk])
  · rintro (e | u) <;> exact obeys_pure φ

end Whole

-- ---------------------------------------------------------------------------
-- Runs of store calls
-- ---------------------------------------------------------------------------

/-- Callers start store calls only. -/
def CallsOnly (_ : Cfg) : Move Choice Env → Prop
  | .env (.start _ t) => ∃ call, t = .call call
  | _ => True

/-- Configurations that store calls reach from an empty schema. -/
def Calls (c : Cfg) : Prop := ∃ clock, machine.Reaches CallsOnly (Cfg.initial clock) c

/-- A reachable configuration where who has not started holds nothing. -/
structure Tidy (c : Cfg) : Prop where
  reachable : Reachable false c
  empty : ∀ p, c.procs p = none → EmptyHanded p c.world

theorem Tidy.initial (clock : Time) : Tidy (Cfg.initial clock) where
  reachable := ⟨clock, .refl⟩
  empty _ _ := ⟨fun _ h => absurd h (by simp [Cfg.initial, World.initial]),
    fun _ => List.not_mem_nil⟩

section Runs

variable {c c' : Cfg} {p : Pid}

/-- The environment takes no lock and inserts nothing. -/
theorem env_hands {w w' : World} {e : Env} {fs : Forks} (h : env w e = some (w', fs)) :
    Hands p w w' := by
  cases e
  all_goals simp only [env] at h
  all_goals repeat' split at h
  all_goals first
    | (obtain ⟨rfl, -⟩ : _ ∧ _ := by simpa only [Option.some.injEq, Prod.mk.injEq] using h
       exact .same rfl rfl)
    | exact absurd h (by simp)

theorem env_forks {w w' : World} {e : Env} {fs : Forks} (h : env w e = some (w', fs)) :
    fs = [] ∨ ∃ q t, e = .start q t ∧ fs = [(q, t.program)] ∧ w'.kind q = .task t := by
  cases e with
  | start q t =>
    simp only [env] at h
    split at h
    · obtain ⟨rfl, rfl⟩ : _ ∧ _ := by simpa using h
      exact .inr ⟨q, t, rfl, rfl, Function.update_self _ _ _⟩
    · exact absurd h (by simp)
  | _ =>
    simp only [env] at h
    repeat' split at h
    all_goals first
      | (obtain ⟨-, rfl⟩ : _ ∧ _ := by simpa only [Option.some.injEq, Prod.mk.injEq] using h
         exact .inl rfl)
      | exact absurd h (by simp)

/-- A move keeps what all others hold, but of a process that it starts. -/
theorem Hold.others {q x : Pid} {w w' : World} {o : Op} {fs : Forks} (h : Hold q w w' o fs)
    (hxq : x ≠ q) (hx : ∀ m, (x, m) ∉ fs) : Hands x w w' := by
  cases h with
  | alone h => exact h x hxq
  | @handed y σ _ h =>
    subst h
    refine .handOver hxq ?_ σ
    rintro rfl
    exact hx _ List.mem_cons_self
  | spawned h => exact h x

/-- A process that has a program already, or will have none, is not started. -/
theorem not_started {procs procs' : Pid → Option (P Answer)} {fs : Forks}
    (hst : startAll procs fs = some procs') (h : (procs p).isSome = true ∨ procs' p = none)
    (m : P Answer) : (p, m) ∉ fs := by
  induction fs generalizing procs with
  | nil => exact List.not_mem_nil
  | cons f rest ih =>
    obtain ⟨q, m'⟩ := f
    rw [startAll] at hst
    split at hst
    · next hnone =>
      have hmono := startAll_mono hst (Function.update_self q (some m') procs)
      have hpq : p ≠ q := by
        rintro rfl
        rcases h with h | h
        · rw [hnone] at h
          exact absurd h (by simp)
        · rw [h] at hmono
          exact absurd hmono (by simp)
      refine List.not_mem_cons_of_ne_of_not_mem (fun heq => hpq (Prod.mk.inj heq).1) (ih hst ?_)
      rwa [Function.update_of_ne hpq]
    · exact absurd hst (by simp)

theorem Tidy.step (h : Tidy c) {mv : Move Choice Env} (hs : machine.step c mv = some c') :
    Tidy c' ∧ custody.Seen mv c.world c'.world := by
  have hreach := h.reachable.step (legal_false c mv) hs
  have hseen := h.reachable.next (legal_false c mv) hs
  rcases Machine.step_cases hs with ⟨q, ch, o, k, r, fs, rfl, hq, hx, hst⟩ | ⟨e, fs, rfl, hx, hst⟩
  · have hhold := exec_hold hx
    refine ⟨⟨hreach, fun p hp => ?_⟩, fun p hpq => ⟨hseen p hpq, fun hstarted => ?_⟩⟩
    · have hpq : p ≠ q := by
        rintro rfl
        have := startAll_mono hst (Function.update_self p (some (k r)) c.procs)
        rw [hp] at this
        exact absurd this (by simp)
      have hnone : c.procs p = none := by
        cases hbefore : c.procs p with
        | none => rfl
        | some m =>
          rw [← Function.update_of_ne hpq (some (k r)) c.procs] at hbefore
          exact absurd (hp.symm.trans (startAll_mono hst hbefore)) (by simp)
      exact (hhold.others hpq (not_started hst (.inr hp))).empty (h.empty p hnone)
    · have hne : p ≠ q := by
        rintro rfl
        exact hpq ch rfl
      cases hhold with
      | alone h => exact h p hne
      | @handed x σ hidle h =>
        rw [h]
        refine .handOver hne ?_ σ
        rintro rfl
        exact hstarted hidle
      | spawned h => exact h p
  · refine ⟨⟨hreach, fun p hp => ?_⟩, fun p hpq => ⟨hseen p hpq, fun _ => env_hands hx⟩⟩
    refine (env_hands hx).empty (h.empty p ?_)
    cases hbefore : c.procs p with
    | none => rfl
    | some m => exact absurd (hp.symm.trans (startAll_mono hst hbefore)) (by simp)

/-- Each process, when it starts, takes what it takes in order. -/
theorem Tidy.start (h : Tidy c) {mv : Move Choice Env} (hcalls : CallsOnly c mv)
    (hs : machine.step c mv = some c')
    (hall : ∀ q m, c.procs q = some m → ∃ φ, custody.Watched machine q (orderWatch q)
      (fun _ _ => Working q (EmptyHanded q)) φ m c.world)
    (hnone : c.procs p = none) {m : P Answer} (hp : c'.procs p = some m) :
    custody.Watched machine p (orderWatch p) (fun _ _ => Working p (EmptyHanded p)) True m
      c'.world := by
  have hinv := (h.step hs).1.reachable.inv
  rcases Machine.step_cases hs with ⟨q, ch, o, k, r, fs, rfl, hq, hx, hst⟩ | ⟨e, fs, rfl, hx, hst⟩
  · have hpq : p ≠ q := by
      rintro rfl
      rw [hnone] at hq
      exact absurd hq (by simp)
    have hmem : (p, m) ∈ fs := by
      rcases startAll_cases hst hp with hold | hmem
      · rw [Function.update_of_ne hpq, hnone] at hold
        exact absurd hold (by simp)
      · exact hmem
    obtain ⟨φ, hwatched⟩ := hall q _ hq
    have hmust := hwatched.next h.reachable.inv
    cases exec_hold hx with
    | alone => exact absurd hmem List.not_mem_nil
    | @handed x σ hidle heq =>
      obtain ⟨rfl, rfl⟩ : p = x ∧ m = resolverProgram := by
        simpa using List.mem_singleton.mp hmem
      refine obeys_resolver True c'.world hinv ⟨?_, ?_⟩
      · rw [heq]
        show Function.update c.world.kind p (.resolver σ.client) p ≠ .idle
        rw [Function.update_self]
        exact Kind.noConfusion
      · intro id hid
        rw [heq] at hid ⊢
        have hlocks := handOver_locks (q := q) σ (h.empty p hnone)
        obtain ⟨row, hrow, hrid, hlock⟩ := hmust.1 id ((hlocks _).mp hid)
        exact ⟨row, hrow, hrid, (hlocks _).mpr hlock⟩
    | spawned => exact hmust.2.elim
  · have hmem : (p, m) ∈ fs := by
      rcases startAll_cases hst hp with hold | hmem
      · rw [hnone] at hold
        exact absurd hold (by simp)
      · exact hmem
    have hempty := (env_hands hx).empty (h.empty p hnone)
    rcases env_forks hx with rfl | ⟨q, t, rfl, rfl, hkind⟩
    · exact absurd hmem List.not_mem_nil
    · obtain ⟨rfl, rfl⟩ : p = q ∧ m = t.program := by simpa using List.mem_singleton.mp hmem
      obtain ⟨call, rfl⟩ := hcalls
      refine obeys_call call True c'.world hinv ⟨?_, hempty⟩
      rw [hkind]
      exact Kind.noConfusion

/-- Each process is watched from its start on. -/
theorem Calls.watched (h : Calls c) : Tidy c ∧ ∀ p m, c.procs p = some m →
    ∃ φ, custody.Watched machine p (orderWatch p) (fun _ _ => Working p (EmptyHanded p)) φ m
      c.world := by
  obtain ⟨clock, h⟩ := h
  exact Discipline.Watched.everywhere (M := machine) (D := custody) (R := Tidy)
    (V := orderWatch) (Q := fun q _ _ => Working q (EmptyHanded q))
    (fun _ h => h.reachable.inv) (fun _ _ _ h _ hs _ => h.step hs) (fun _ _ _ _ => trivial)
    (fun _ _ _ _ _ h hcalls hs hall hnone hp => h.start hcalls hs hall hnone hp)
    (Tidy.initial clock) (fun _ => rfl) h

theorem Calls.tidy (h : Calls c) : Tidy c := h.watched.1

/-- **Each process is about to perform an operation in order.** -/
theorem Calls.inOrder (h : Calls c) {o : Op} {k : Except Exn (Res o) → P Answer}
    (hp : c.procs p = some (.op o k)) : InOrder p c.world o := by
  obtain ⟨φ, hwatched⟩ := h.watched.2 p _ hp
  exact hwatched.next h.tidy.reachable.inv

/-- Whoever has ended holds nothing. -/
theorem Calls.ended (h : Calls c) {r : Except Exn Answer} (hp : c.procs p = some (.done r)) :
    EmptyHanded p c.world := by
  obtain ⟨φ, hwatched⟩ := h.watched.2 p _ hp
  exact (hwatched c.world .refl).2

/-- The runs that anybody has locked are those of threads it has locked. -/
theorem Calls.ordered (h : Calls c) : Ordered p c.world := by
  cases hp : c.procs p with
  | none => exact (h.tidy.empty p hp).ordered
  | some m => cases m with
    | done r => exact (h.ended hp).ordered
    | op o k => exact (h.inOrder hp).1

end Runs

end AgentRuntimeKit
