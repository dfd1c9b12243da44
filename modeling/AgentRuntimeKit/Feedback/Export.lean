import AgentRuntimeKit.Feedback.Invariant
import AgentRuntimeKit.Lib.Paging

/-!
# An export of feedback

The recipe of the runbook: call `search` from offset 0, with the same filters and limit, and follow
`next_offset` until it is `None`. `exporter` lets these calls alternate with any moves of the
store; `Reader` is what an export is of the sorted list of matching rows.

## Results

* `select_sublist`   — the matching rows grow.
* `Behind.take`      — the first rows stay iff no row is committed that sorts before them.
* `select_bounded`   — with a cutoff in the past, they are bounded for good.
-/

namespace AgentRuntimeKit.Feedback

open Lib

-- ---------------------------------------------------------------------------
-- The order of `search`
-- ---------------------------------------------------------------------------

section Order

variable {a b c : FeedbackRow} {f : Filters} {rows rows' : List FeedbackRow} {n : Nat}

theorem FeedbackRow.le_iff : a.le b = true ↔
    a.createdAt < b.createdAt ∨ (a.createdAt = b.createdAt ∧ a.id.toNat ≤ b.id.toNat) := by
  simp [FeedbackRow.le]

instance : IsTrans FeedbackRow fun a b => a.le b = true where
  trans a b c hab hbc := by
    rw [FeedbackRow.le_iff] at *
    unfold Time at *
    omega

instance : Std.Total fun a b : FeedbackRow => a.le b = true where
  total a b := by
    rw [FeedbackRow.le_iff, FeedbackRow.le_iff]
    unfold Time
    omega

/-- Only one row is at a place of the order. -/
theorem FeedbackRow.id_eq_of_le (hab : a.le b = true) (hba : b.le a = true) : a.id = b.id := by
  rw [FeedbackRow.le_iff] at *
  unfold Time at *
  exact BitVec.eq_of_toNat_eq (by omega)

/-- Strictly before. -/
def FeedbackRow.Before (a b : FeedbackRow) : Prop := a.le b = true ∧ a.id ≠ b.id

instance : Std.Antisymm FeedbackRow.Before where
  antisymm _ _ hab hba := absurd (FeedbackRow.id_eq_of_le hab.1 hba.1) hab.2

theorem mem_select {row : FeedbackRow} :
    row ∈ f.select rows ↔ row ∈ rows ∧ f.matches row = true := by
  rw [Filters.select, List.mem_insertionSort, List.mem_filter]

theorem select_perm : (f.select rows).Perm (rows.filter f.matches) :=
  List.perm_insertionSort _ _

theorem select_sorted : (f.select rows).Pairwise fun a b => a.le b = true :=
  List.pairwise_insertionSort _ _

theorem select_nodup_ids (h : (rows.map FeedbackRow.id).Nodup) :
    ((f.select rows).map FeedbackRow.id).Nodup :=
  (select_perm.map FeedbackRow.id).nodup_iff.mpr (h.sublist (List.filter_sublist.map _))

theorem select_before (h : (rows.map FeedbackRow.id).Nodup) :
    (f.select rows).Pairwise FeedbackRow.Before :=
  select_sorted.and (List.pairwise_map.mp (select_nodup_ids h))

/-- The matching rows grow with the table. -/
theorem select_sublist (h : rows <+: rows') (hids : (rows'.map FeedbackRow.id).Nodup) :
    (f.select rows).Sublist (f.select rows') := by
  have hids₀ : (rows.map FeedbackRow.id).Nodup := hids.sublist (h.sublist.map _)
  have hsub : (f.select rows).Subperm (f.select rows') :=
    (select_perm.subperm.trans (h.sublist.filter _).subperm).trans select_perm.symm.subperm
  exact List.sublist_of_subperm_of_pairwise hsub (select_before hids₀) (select_before hids)

end Order

-- ---------------------------------------------------------------------------
-- What a move may do behind an export
-- ---------------------------------------------------------------------------

/-- The rows that a move commits sort after the first `n` matching rows. -/
def Behind (f : Filters) (n : Nat) (rows rows' : List FeedbackRow) : Prop :=
  ∀ x ∈ rows'.drop rows.length, f.matches x = true → ∀ a ∈ (f.select rows).take n, a.le x = true

instance (f : Filters) (n : Nat) (rows rows' : List FeedbackRow) :
    Decidable (Behind f n rows rows') :=
  inferInstanceAs (Decidable (∀ x ∈ rows'.drop rows.length, f.matches x = true →
    ∀ a ∈ (f.select rows).take n, a.le x = true))

/-- What is inserted into a sorted list behind its first elements leaves these alone. -/
theorem take_of_after {l l' : List FeedbackRow} {n : Nat} (h : l.Sublist l')
    (hsorted : l'.Pairwise FeedbackRow.Before) (hn : n ≤ l.length)
    (hafter : ∀ x ∈ l', x ∉ l → ∀ a ∈ l.take n, a.le x = true) : l'.take n = l.take n := by
  induction h generalizing n with
  | slnil => rfl
  | @cons l l' b h ih =>
    obtain ⟨hb, hrest⟩ := List.pairwise_cons.mp hsorted
    cases n with
    | zero => rfl
    | succ m =>
      -- `b` is new, and before all of `l`
      have hnew : b ∉ l := fun hmem => (hb b (h.subset hmem)).2 rfl
      obtain ⟨a, rest, rfl⟩ := List.exists_cons_of_length_pos (Nat.lt_of_lt_of_le m.succ_pos hn)
      have ha := hafter b List.mem_cons_self hnew a List.mem_cons_self
      have hba := hb a (h.subset List.mem_cons_self)
      exact absurd (FeedbackRow.id_eq_of_le hba.1 ha) hba.2
  | @cons_cons l l' b h ih =>
    obtain ⟨hb, hrest⟩ := List.pairwise_cons.mp hsorted
    cases n with
    | zero => rfl
    | succ m =>
      have hm : m ≤ l.length := by
        rw [List.length_cons] at hn
        omega
      rw [List.take_succ_cons, List.take_succ_cons, ih hrest hm fun x hx hnew a ha => ?_]
      refine hafter x (List.mem_cons_of_mem b hx) ?_ a (List.mem_cons_of_mem b ha)
      intro hmem
      rcases List.mem_cons.mp hmem with rfl | hmem
      · exact (hb x hx).2 rfl
      · exact hnew hmem

/-- The first rows stay iff what is committed sorts after them. -/
theorem Behind.take {f : Filters} {n : Nat} {rows rows' : List FeedbackRow} (h : rows <+: rows')
    (hids : (rows'.map FeedbackRow.id).Nodup) (hn : n ≤ (f.select rows).length) :
    (f.select rows').take n = (f.select rows).take n ↔ Behind f n rows rows' := by
  obtain ⟨new, rfl⟩ := h
  have hsub := select_sublist (f := f) (List.prefix_append rows new) hids
  have hsorted := select_before (f := f) hids
  have hfresh : ∀ x ∈ new, x ∉ rows := by
    intro x hx hrow
    rw [List.map_append] at hids
    exact (List.nodup_append.mp hids).2.2 x.id (List.mem_map_of_mem hrow) x.id
      (List.mem_map_of_mem hx) rfl
  unfold Behind
  rw [List.drop_left]
  constructor
  · intro hsame x hx hmatch a ha
    have hx' : x ∈ f.select (rows ++ new) := mem_select.mpr ⟨List.mem_append_right _ hx, hmatch⟩
    rw [← List.take_append_drop n (f.select (rows ++ new))] at hx' hsorted
    rcases List.mem_append.mp hx' with htake | hdrop
    · rw [hsame] at htake
      exact absurd (mem_select.mp (List.mem_of_mem_take htake)).1 (hfresh x hx)
    · rw [← hsame] at ha
      exact ((List.pairwise_append.mp hsorted).2.2 a ha x hdrop).1
  · intro hbehind
    refine take_of_after hsub hsorted hn fun x hx hnew a ha => ?_
    obtain ⟨hmem, hmatch⟩ := mem_select.mp hx
    rcases List.mem_append.mp hmem with hold | hx
    · exact absurd (mem_select.mpr ⟨hold, hmatch⟩) hnew
    · exact hbehind x hx hmatch a ha

-- ---------------------------------------------------------------------------
-- A cutoff in the past
-- ---------------------------------------------------------------------------

/-- Transactions from before the cutoff are transactions of `ps`. -/
structure Late (cutoff : Time) (ps : List Pid) (w : World) : Prop where
  clock : cutoff ≤ w.clock
  begun : ∀ p begun, w.begun p = some begun → begun < cutoff → p ∈ ps

/-- The transaction of `p` may still insert a row from before the cutoff. -/
def World.pending (w : World) (cutoff : Time) (p : Pid) : Bool :=
  (w.begun p).any (· < cutoff) && (w.own p).isEmpty

/-- The rows from before the cutoff, and those that may still be inserted. -/
def World.early (w : World) (cutoff : Time) (ps : List Pid) : Nat :=
  w.all.countP (fun row => row.createdAt < cutoff) + ps.countP (w.pending cutoff)

section Cutoff

variable {payloadHash : FeedbackSubmission → String} {cutoff : Time} {ps : List Pid} {p : Pid}
  {w w' : World} {c c' : Cfg} {f : Filters}

theorem pending_iff : w.pending cutoff p = true ↔
    (∃ begun, w.begun p = some begun ∧ begun < cutoff) ∧ w.own p = [] := by
  unfold World.pending
  cases w.begun p <;> simp

/-- Nobody gets a transaction from before the cutoff. -/
theorem early_le_of_pending (hall : w'.all.countP (fun row => row.createdAt < cutoff) ≤
      w.all.countP fun row => row.createdAt < cutoff)
    (hpending : ∀ q, w'.pending cutoff q = true → w.pending cutoff q = true) :
    w'.early cutoff ps ≤ w.early cutoff ps := by
  have hcount : ps.countP (w'.pending cutoff) ≤ ps.countP (w.pending cutoff) :=
    List.countP_mono_left fun q _ => hpending q
  unfold World.early
  omega

theorem countP_finish (ends : Option Pid × FeedbackRow → Bool) (committed : Bool)
    (P : FeedbackRow → Bool) : (w.finish ends committed).all.countP P ≤ w.all.countP P := by
  obtain ⟨rest, hperm⟩ := finish_all (w := w) ends committed
  have hcount := hperm.countP_eq P
  rw [List.countP_append] at hcount
  omega

/-- The transaction of `p` is over. -/
theorem early_le_of_over (hall : w'.all.countP (fun row => row.createdAt < cutoff) ≤
      w.all.countP fun row => row.createdAt < cutoff)
    (hbegun : w'.begun = Function.update w.begun p none)
    (hown : ∀ q, q ≠ p → w'.own q = w.own q) : w'.early cutoff ps ≤ w.early cutoff ps := by
  refine early_le_of_pending hall fun q hq => ?_
  unfold World.pending at *
  by_cases hqp : q = p
  · rw [hbegun, hqp, Function.update_self] at hq
    exact absurd hq (by simp)
  · rwa [hbegun, Function.update_of_ne hqp, hown q hqp] at hq

theorem Late.of_over (h : Late cutoff ps w) (hclock : w'.clock = w.clock)
    (hbegun : w'.begun = Function.update w.begun p none) : Late cutoff ps w' := by
  refine ⟨hclock ▸ h.clock, fun q begun hq hlt => ?_⟩
  by_cases hqp : q = p
  · rw [hbegun, hqp, Function.update_self] at hq
    exact absurd hq (by simp)
  · rw [hbegun, Function.update_of_ne hqp] at hq
    exact h.begun q begun hq hlt

/-- What a pending transaction inserts was counted. -/
theorem early_insert {row : FeedbackRow} (h : Late cutoff ps w)
    (hbegun : w.begun p = some row.createdAt) (hown : w.own p = []) :
    World.early { w with inserted := w.inserted ++ [(some p, row)] } cutoff ps ≤
      w.early cutoff ps := by
  let w₁ : World := { w with inserted := w.inserted ++ [(some p, row)] }
  have hall : w₁.all = w.all ++ [row] := by
    show w.rows ++ (w.inserted ++ [(some p, row)]).map Prod.snd = _
    rw [List.map_append, ← List.append_assoc]
    rfl
  have hself : w₁.pending cutoff p = false := by
    have hmem : row ∈ w₁.own p := mem_own.mpr (List.mem_append_right _ List.mem_cons_self)
    have hne : (w₁.own p).isEmpty = false := by
      rw [List.isEmpty_eq_false_iff]
      exact List.ne_nil_of_mem hmem
    rw [World.pending, hne, Bool.and_false]
  have hpending : ∀ q, w₁.pending cutoff q = true → w.pending cutoff q = true := by
    intro q hq
    by_cases hqp : q = p
    · rw [hqp, hself] at hq
      exact absurd hq Bool.false_ne_true
    · rwa [World.pending, show w₁.own q = w.own q from own_insert row hqp] at hq
  have hcount : ps.countP (w₁.pending cutoff) ≤ ps.countP (w.pending cutoff) :=
    List.countP_mono_left fun q _ => hpending q
  show World.early w₁ cutoff ps ≤ _
  unfold World.early
  rw [hall, List.countP_append, List.countP_singleton]
  split
  · next hlt =>
    -- `p` was pending and is not any more
    have hbefore : w.pending cutoff p = true := by
      simp [World.pending, hbegun, hown, of_decide_eq_true hlt]
    have hless : ps.countP (w₁.pending cutoff) < ps.countP (w.pending cutoff) := by
      have hmem := h.begun p _ hbegun (of_decide_eq_true hlt)
      obtain ⟨front, back, rfl⟩ := List.append_of_mem hmem
      have hfront : front.countP (w₁.pending cutoff) ≤ front.countP (w.pending cutoff) :=
        List.countP_mono_left fun q _ => hpending q
      have hback : back.countP (w₁.pending cutoff) ≤ back.countP (w.pending cutoff) :=
        List.countP_mono_left fun q _ => hpending q
      simp only [List.countP_append, List.countP_cons, hself, hbefore]
      simp only [Bool.false_eq_true, if_false, if_true]
      omega
    omega
  · omega

/-- One move makes no row from before the cutoff possible. -/
theorem Step.early (hs : Step w w') (hstore : AgentRuntimeKit.Reachable false w.store)
    (h : Late cutoff ps w) :
    Late cutoff ps w' ∧ w'.early cutoff ps ≤ w.early cutoff ps := by
  cases hs with
  | @statement p _ _ he =>
    cases he with
    | same => exact ⟨h, Nat.le_refl _⟩
    | begun =>
      have hfuture : ∀ q begun, Function.update w.begun p (some w.clock) q = some begun →
          begun < cutoff → w.begun q = some begun := by
        intro q begun hq hlt
        by_cases hqp : q = p
        · rw [hqp, Function.update_self, Option.some.injEq] at hq
          have hclock := h.clock
          unfold Time at *
          omega
        · rwa [Function.update_of_ne hqp] at hq
      refine ⟨⟨h.clock, fun q begun hq hlt => h.begun q begun (hfuture q begun hq hlt) hlt⟩,
        early_le_of_pending (Nat.le_refl _) fun q hq => ?_⟩
      obtain ⟨⟨begun, hbegun, hlt⟩, hown⟩ := pending_iff.mp hq
      exact pending_iff.mpr ⟨⟨begun, hfuture q begun hbegun hlt, hlt⟩, hown⟩
    | ended committed =>
      refine ⟨h.of_over rfl rfl, early_le_of_over (countP_finish _ committed _) rfl fun q hqp => ?_⟩
      exact own_finish committed fun row => decide_eq_false fun heq => hqp (Option.some.inj heq)
    | abandoned =>
      refine ⟨h.of_over rfl rfl, early_le_of_over ?_ rfl fun q hqp => own_abandon hqp⟩
      rw [abandon_all]
    | inserted hbegun _ _ hrow => exact ⟨⟨h.clock, h.begun⟩, early_insert h hbegun hrow.own⟩
  | started => exact ⟨⟨h.clock, h.begun⟩, Nat.le_refl _⟩
  | store hr =>
    refine ⟨⟨?_, h.begun⟩, Nat.le_refl _⟩
    exact hstore.preserved (A := fun w => cutoff ≤ w.clock)
      (fun w₁ w₂ _ _ hevo hle => Nat.le_trans hle hevo.clock) hr h.clock
  | settled id committed =>
    refine ⟨⟨h.clock, h.begun⟩, early_le_of_pending (countP_finish _ committed _) fun q hq => ?_⟩
    rwa [World.pending, show (w.settle id committed).own q = w.own q from
      own_finish committed fun row => rfl] at hq

/-- One move starts one process at most. -/
theorem Step.starts (hs : Step w w') : ∃ p, ∀ q, w'.task q ≠ none → q = p ∨ w.task q ≠ none := by
  cases hs with
  | @statement p _ _ he => exact ⟨p, fun q hq => .inr (he.task ▸ hq)⟩
  | @started p submission hp =>
    refine ⟨p, fun q hq => ?_⟩
    by_cases hqp : q = p
    · exact .inl hqp
    · exact .inr fun hnone => hq ((Function.update_of_ne hqp _ _).trans hnone)
  | store => exact ⟨0, fun q hq => .inr hq⟩
  | settled => exact ⟨0, fun q hq => .inr hq⟩

/-- Where an export may start, the transactions from before its cutoff are known. -/
theorem Reachable.late (h : Reachable payloadHash c) (hclock : cutoff ≤ c.world.clock) :
    ∃ ps, Late cutoff ps c.world := by
  have hstarted : ∃ ps : List Pid, ∀ p, c.world.task p ≠ none → p ∈ ps := by
    clear hclock
    obtain ⟨clock, hreach⟩ := h
    induction hreach with
    | refl => exact ⟨[], fun p hp => absurd rfl hp⟩
    | @step c₁ c₂ mv hreach hok hs ih =>
      obtain ⟨ps, hps⟩ := ih
      have hbefore : Reachable payloadHash c₁ := ⟨clock, hreach⟩
      obtain ⟨-, -, hstep⟩ := hbefore.moved hs
      obtain ⟨p, hp⟩ := hstep.starts
      refine ⟨p :: ps, fun q hq => ?_⟩
      rcases hp q hq with rfl | hold
      · exact List.mem_cons_self
      · exact List.mem_cons_of_mem p (hps q hold)
  obtain ⟨ps, hps⟩ := hstarted
  refine ⟨ps, hclock, fun p begun hbegun _ => hps p fun hidle => ?_⟩
  rw [(h.inv.idle p hidle).1] at hbegun
  exact absurd hbegun (by simp)

/-- There are only so many rows from before the cutoff. -/
theorem Reachable.early (h : Reachable payloadHash c) (hlate : Late cutoff ps c.world)
    (hr : (machine payloadHash).Reaches AnyMove c c') :
    Late cutoff ps c'.world ∧ c'.world.early cutoff ps ≤ c.world.early cutoff ps := by
  induction hr with
  | refl => exact ⟨hlate, Nat.le_refl _⟩
  | step hr _ hs ih =>
    have hbefore := h.reaches hr
    obtain ⟨-, -, hstep⟩ := hbefore.moved hs
    obtain ⟨hlate', hle⟩ := hstep.early hbefore.inv.store ih.1
    exact ⟨hlate', Nat.le_trans hle ih.2⟩

theorem select_length_le (hto : f.createdTo = some cutoff) :
    (f.select w.rows).length ≤ w.early cutoff ps := by
  have hmatch : ∀ row, f.matches row = true → row.createdAt < cutoff := by
    intro row hrow
    simp only [Filters.matches, hto, Bool.and_eq_true] at hrow
    exact of_decide_eq_true hrow.2
  have hfilter : (w.rows.filter f.matches).length ≤
      w.rows.countP fun row => row.createdAt < cutoff := by
    rw [← List.countP_eq_length_filter]
    exact List.countP_mono_left fun row _ hrow => decide_eq_true (hmatch row hrow)
  have hall : w.all.countP (fun row => row.createdAt < cutoff) =
      w.rows.countP (fun row => row.createdAt < cutoff) +
        (w.inserted.map Prod.snd).countP fun row => row.createdAt < cutoff :=
    List.countP_append
  rw [select_perm.length_eq]
  unfold World.early
  omega

/-- The matching rows are bounded for good. -/
theorem Reachable.select_bounded (h : Reachable payloadHash c)
    (hto : f.createdTo = some cutoff) (hclock : cutoff ≤ c.world.clock) :
    ∃ bound, ∀ c', (machine payloadHash).Reaches AnyMove c c' →
      (f.select c'.world.rows).length ≤ bound := by
  obtain ⟨ps, hlate⟩ := h.late hclock
  refine ⟨c.world.early cutoff ps, fun c' hr => ?_⟩
  exact Nat.le_trans (select_length_le hto) (h.early hlate hr).2

end Cutoff

-- ---------------------------------------------------------------------------
-- The export
-- ---------------------------------------------------------------------------

/-- The offset to pass next, and the items of all pages so far. -/
structure Export where
  next : Option Int
  rows : List FeedbackRecord

def Export.start : Export := ⟨some 0, []⟩

/-- Read the next page. -/
def Export.page (f : Filters) (limit : Int) (rows : List FeedbackRow) (e : Export) :
    Option Export :=
  match e.next with
  | none => none
  | some offset =>
    match search rows f limit offset with
    | .ok page => some ⟨page.nextOffset, e.rows ++ page.items⟩
    | .error _ => none

/-- Pages are read while the store makes its moves. -/
inductive ExportMove
  | store (mv : Move Choice Env)
  | page

def ExportMove.isPage : ExportMove → Bool
  | store _ => false
  | page => true

def exportStep (payloadHash : FeedbackSubmission → String) (f : Filters) (limit : Int) :
    Cfg × Export → ExportMove → Option (Cfg × Export)
  | (c, e), .store mv => ((machine payloadHash).step c mv).map fun c' => (c', e)
  | (c, e), .page => (e.page f limit c.world.rows).map fun e' => (c, e')

def exportRun (payloadHash : FeedbackSubmission → String) (f : Filters) (limit : Int) :
    Cfg × Export → List ExportMove → Option (Cfg × Export)
  | s, [] => some s
  | s, mv :: rest =>
    match exportStep payloadHash f limit s mv with
    | some s' => exportRun payloadHash f limit s' rest
    | none => none

/-- What the move commits sorts after the rows before the offset to read next. -/
def Kept (payloadHash : FeedbackSubmission → String) (f : Filters) :
    Cfg × Export → ExportMove → Prop
  | (c, e), .store mv => ((machine payloadHash).step c mv).all fun c' =>
      e.next.all fun offset => Behind f offset.toNat c.world.rows c'.world.rows
  | _, .page => True

instance (payloadHash : FeedbackSubmission → String) (f : Filters) :
    (s : Cfg × Export) → (mv : ExportMove) → Decidable (Kept payloadHash f s mv)
  | _, .store _ => inferInstanceAs (Decidable (_ = true))
  | _, .page => .isTrue trivial

/-- Each move of a run is so. -/
def Undisturbed (payloadHash : FeedbackSubmission → String) (f : Filters) (limit : Int) :
    Cfg × Export → List ExportMove → Prop
  | _, [] => True
  | s, mv :: rest => Kept payloadHash f s mv ∧
    match exportStep payloadHash f limit s mv with
    | some s' => Undisturbed payloadHash f limit s' rest
    | none => True

instance Undisturbed.decidable (payloadHash : FeedbackSubmission → String) (f : Filters)
    (limit : Int) : (s : Cfg × Export) → (mvs : List ExportMove) →
      Decidable (Undisturbed payloadHash f limit s mvs)
  | _, [] => .isTrue trivial
  | s, mv :: rest =>
    have : Decidable (match exportStep payloadHash f limit s mv with
        | some s' => Undisturbed payloadHash f limit s' rest
        | none => True) := by
      split
      · exact Undisturbed.decidable payloadHash f limit _ rest
      · exact .isTrue trivial
    inferInstanceAs (Decidable (_ ∧ _))

-- ---------------------------------------------------------------------------
-- An export reads the matching rows
-- ---------------------------------------------------------------------------

/-- The export that a reader of the matching rows is. -/
def ofReader (r : Reader FeedbackRow) : Export := ⟨r.next.map Int.ofNat, r.out⟩

section Reads

variable {payloadHash : FeedbackSubmission → String} {f : Filters} {limit : Int} {c c' : Cfg}
  {rows : List FeedbackRow} {r r' : Reader FeedbackRow} {e e' : Export} {mv : ExportMove}
  {mvs : List ExportMove} {s : Cfg × Export} {l₀ : List FeedbackRow} {n bound : Nat}

/-- One row more than the page is asked for. -/
theorem search_eq (hlimit : 1 ≤ limit ∧ limit ≤ 100) :
    search rows f limit (Int.ofNat n) = .ok ⟨((f.select rows).drop n).take limit.toNat,
      if limit.toNat < ((f.select rows).drop n).length then some (Int.ofNat (n + limit.toNat))
      else none⟩ := by
  have hoffset : ¬(Int.ofNat n < 0) := Int.not_lt.mpr (Int.natCast_nonneg n)
  have htoNat : (Int.ofNat n).toNat = n := Int.toNat_natCast n
  have hsum : Int.ofNat n + limit = Int.ofNat (n + limit.toNat) := by
    show (n : Int) + limit = ((n + limit.toNat : Nat) : Int)
    omega
  have hmore : limit.toNat < (((f.select rows).drop n).take (limit.toNat + 1)).length ↔
      limit.toNat < ((f.select rows).drop n).length := by
    rw [List.length_take]
    omega
  rw [search, if_neg (not_not.mpr hlimit), if_neg hoffset, htoNat]
  simp only [hmore, hsum, List.take_take, Nat.min_eq_left (Nat.le_succ limit.toNat)]

theorem page_ofReader (hlimit : 1 ≤ limit ∧ limit ≤ 100) (hn : r.next = some n) :
    (ofReader r).page f limit rows = some (ofReader (r.read limit.toNat n (f.select rows))) := by
  have hnext : (ofReader r).next = some (Int.ofNat n) := congrArg (Option.map Int.ofNat) hn
  rw [Export.page, hnext]
  dsimp only
  rw [search_eq hlimit]
  dsimp only [ofReader, Reader.read]
  split <;> rfl

/-- One move of the store, or of the reader. -/
theorem exportStep_cases (hlimit : 1 ≤ limit ∧ limit ≤ 100)
    (hs : exportStep payloadHash f limit (c, ofReader r) mv = some s) :
    (∃ mv' c', mv = .store mv' ∧ (machine payloadHash).step c mv' = some c' ∧
      s = (c', ofReader r)) ∨
    (∃ n, mv = .page ∧ r.next = some n ∧
      s = (c, ofReader (r.read limit.toNat n (f.select c.world.rows)))) := by
  cases mv with
  | store mv' =>
    obtain ⟨c', hstep, heq⟩ := Option.map_eq_some_iff.mp hs
    exact .inl ⟨mv', c', rfl, hstep, heq.symm⟩
  | page =>
    obtain ⟨e', hpage, heq⟩ := Option.map_eq_some_iff.mp hs
    cases hn : r.next with
    | none =>
      have hnext : (ofReader r).next = none := congrArg (Option.map Int.ofNat) hn
      rw [Export.page, hnext] at hpage
      exact absurd hpage (by simp)
    | some n =>
      rw [page_ofReader hlimit hn, Option.some.injEq] at hpage
      exact .inr ⟨n, rfl, rfl, by rw [← heq, hpage]⟩

theorem Reachable.select_grows (h : Reachable payloadHash c) {mv : Move Choice Env}
    (hs : (machine payloadHash).step c mv = some c') :
    (f.select c.world.rows).Sublist (f.select c'.world.rows) := by
  obtain ⟨p, hother, -⟩ := h.moved hs
  exact select_sublist hother.rows (h.step hs).inv.nodup_ids

/-- The matching rows before the offset stay iff the move is kept. -/
theorem kept_iff (h : Reachable payloadHash c) {mv : Move Choice Env}
    (hs : (machine payloadHash).step c mv = some c') (hr : r.InStep l₀ (f.select c.world.rows)) :
    Kept payloadHash f (c, ofReader r) (.store mv) ↔
      ∀ n, r.next = some n →
        (f.select c'.world.rows).take n = (f.select c.world.rows).take n := by
  obtain ⟨p, hother, -⟩ := h.moved hs
  have hids := (h.step hs).inv.nodup_ids
  cases hn : r.next with
  | none => simp [Kept, hs, ofReader, hn]
  | some n =>
    have hbehind := Behind.take hother.rows hids (hr.offset n hn).1
    simp only [Kept, hs, ofReader, hn, Option.all_some, Option.map_some, decide_eq_true_eq,
      Option.some.injEq, forall_eq']
    exact hbehind.symm

/-- Reading pages leaves the store alone. -/
theorem exportRun_reaches (hrun : exportRun payloadHash f limit (c, e) mvs = some (c', e')) :
    (machine payloadHash).Reaches AnyMove c c' := by
  induction mvs generalizing c e with
  | nil =>
    rw [exportRun, Option.some.injEq, Prod.mk.injEq] at hrun
    exact hrun.1 ▸ .refl
  | cons mv rest ih =>
    rw [exportRun] at hrun
    split at hrun
    · next s hs =>
      cases mv with
      | store mv' =>
        obtain ⟨c₁, hstep, rfl⟩ := Option.map_eq_some_iff.mp hs
        have hfirst : (machine payloadHash).Reaches AnyMove c c₁ :=
          Machine.Reaches.refl.step trivial hstep
        exact hfirst.trans (ih hrun)
      | page =>
        obtain ⟨e₁, -, rfl⟩ := Option.map_eq_some_iff.mp hs
        exact ih hrun
    · exact absurd hrun (by simp)

/-- A reader out of step stays so. -/
theorem exportRun_repeats (h : Reachable payloadHash c) (hlimit : 1 ≤ limit ∧ limit ≤ 100)
    (hr : r.Repeats (f.select c.world.rows))
    (hrun : exportRun payloadHash f limit (c, ofReader r) mvs = some (c', e')) :
    ∃ r', e' = ofReader r' ∧ r'.Repeats (f.select c'.world.rows) := by
  induction mvs generalizing c r with
  | nil =>
    rw [exportRun, Option.some.injEq, Prod.mk.injEq] at hrun
    obtain ⟨rfl, rfl⟩ := hrun
    exact ⟨r, rfl, hr⟩
  | cons mv rest ih =>
    rw [exportRun] at hrun
    split at hrun
    · next s hs =>
      rcases exportStep_cases hlimit hs with ⟨mv', c₁, rfl, hstep, rfl⟩ | ⟨n, rfl, hn, rfl⟩
      · have hgrown := h.select_grows (f := f) hstep
        exact ih (h.step hstep) (hr.grow hgrown) hrun
      · exact ih h (hr.read hn) hrun
    · exact absurd hrun (by simp)

/-- A reader stays in step iff each move is kept. -/
theorem exportRun_inStep (h : Reachable payloadHash c) (hlimit : 1 ≤ limit ∧ limit ≤ 100)
    (hr : r.InStep l₀ (f.select c.world.rows))
    (hrun : exportRun payloadHash f limit (c, ofReader r) mvs = some (c', e')) :
    ∃ r', e' = ofReader r' ∧
      if Undisturbed payloadHash f limit (c, ofReader r) mvs then
        r'.InStep l₀ (f.select c'.world.rows)
      else r'.Repeats (f.select c'.world.rows) := by
  induction mvs generalizing c r with
  | nil =>
    rw [exportRun, Option.some.injEq, Prod.mk.injEq] at hrun
    obtain ⟨rfl, rfl⟩ := hrun
    have hnil : Undisturbed payloadHash f limit (c, ofReader r) [] := trivial
    exact ⟨r, rfl, by rwa [if_pos hnil]⟩
  | cons mv rest ih =>
    rw [exportRun] at hrun
    split at hrun
    · next s hs =>
      simp only [Undisturbed, hs]
      rcases exportStep_cases hlimit hs with ⟨mv', c₁, rfl, hstep, rfl⟩ | ⟨n, rfl, hn, rfl⟩
      · have hgrown := h.select_grows (f := f) hstep
        by_cases hkept : Kept payloadHash f (c, ofReader r) (.store mv')
        · simp only [hkept, true_and]
          exact ih (h.step hstep) (hr.grow hgrown ((kept_iff h hstep hr).mp hkept)) hrun
        · simp only [hkept, false_and, if_false]
          have hmoved := mt (kept_iff h hstep hr).mpr hkept
          obtain ⟨n, hn, hne⟩ : ∃ n, r.next = some n ∧ (f.select c₁.world.rows).take n ≠
              (f.select c.world.rows).take n := by
            by_contra hnone
            exact hmoved fun n hn => by_contra fun hne => hnone ⟨n, hn, hne⟩
          exact exportRun_repeats (h.step hstep) hlimit (hr.repeats hgrown hn hne) hrun
      · have hkept : Kept payloadHash f (c, ofReader r) .page := trivial
        simp only [hkept, true_and]
        exact ih h (hr.read hn) hrun
    · exact absurd hrun (by simp)

/-- Only so many pages are read. -/
theorem countP_isPage_le (hlimit : 1 ≤ limit ∧ limit ≤ 100)
    (hbound : ∀ c', (machine payloadHash).Reaches AnyMove c c' →
      (f.select c'.world.rows).length ≤ bound)
    (hrun : exportRun payloadHash f limit (c, ofReader r) mvs = some s) :
    mvs.countP ExportMove.isPage ≤ r.left bound := by
  induction mvs generalizing c r with
  | nil => exact Nat.zero_le _
  | cons mv rest ih =>
    rw [exportRun] at hrun
    split at hrun
    · next s' hs =>
      rcases exportStep_cases hlimit hs with ⟨mv', c₁, rfl, hstep, rfl⟩ | ⟨n, rfl, hn, rfl⟩
      · have hfirst : (machine payloadHash).Reaches AnyMove c c₁ :=
          Machine.Reaches.refl.step trivial hstep
        exact ih (fun c' hr => hbound c' (hfirst.trans hr)) hrun
      · have hpos : 0 < limit.toNat := by omega
        have hleft := Reader.read_left hn (hbound c .refl) hpos
        have hrest := ih hbound hrun
        rw [List.countP_cons_of_pos rfl]
        omega
    · exact absurd hrun (by simp)

end Reads

end AgentRuntimeKit.Feedback
