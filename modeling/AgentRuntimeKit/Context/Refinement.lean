import AgentRuntimeKit.Context.Window
import AgentRuntimeKit.Lib.Suffix
import Mathlib.Algebra.BigOperators.Intervals
import Mathlib.Algebra.Order.BigOperators.Group.List
import Mathlib.Tactic.Ring

/-!
# The incremental selector refines the materialized one

`ContextWindow.select` has the whole history at hand: it groups the messages by their exchanges,
costs all groups, and fills the budget from the newest group on. `_StreamingSelection` sees the
messages one by one, and has to have the same result, or the same error, while it drops what can no
longer be part of it.

Nothing is assumed: any window, any history and current messages, well formed or not, and any
encoder, which may fail on any message. Both selectors write a message in the same way, so that one
encoder stands for both.

`Sim` relates the state of the first loop of `select` after `i` messages to the state of
`_StreamingSelection` after the same messages, as long as neither has failed. The required part of
the stream is the finite set `requiredSet` of the materialized side; its optional part is the
longest suffix of the closed non-mandatory groups that fits over the required cost so far. That
invariant carries the argument: the required cost only grows, so a group that does not fit now
never will, and with it go all groups before it.

Errors are part of it. The materialized selector raises where it finds a message that cannot be
encoded or is out of place; the stream keeps the first such failure that `add` catches, passes
over the rest, and raises it at its end. What only the budget refuses is refused by both at the end.

## Results

* `closeGroup_sim`  — closing the open group preserves `Sim`.
* `step_sim`        — one message: both fail with one error, or `Sim` continues.
* `loop_sim`        — a whole pass over the history or over the request.
* `fill_eq`         — the filling loop keeps exactly that longest suffix.
* `selectStream_eq_select` — the two selectors agree.
-/

namespace AgentRuntimeKit

open Lib StreamingSelection

-- ---------------------------------------------------------------------------
-- Costs
-- ---------------------------------------------------------------------------

theorem fits_mono {budget a b : Nat} (h : a ≤ b) (hb : fits budget b = true) :
    fits budget a = true := by
  rw [fits, decide_eq_true_eq, bytesOf] at hb ⊢
  split at hb <;> split <;> omega

/-- What the fixed messages of one selection give to both selectors. -/
structure Input where
  budget : Nat
  /-- `len(history)`. -/
  n : Nat
  message : Nat → Message
  size : Nat → Nat

namespace Input

variable (x : Input)

/-- The cost of a message: its bytes and one separator. -/
def cost (j : Nat) : Nat := x.size j + 1

/-- 1 for a message of the history. -/
def hist (j : Nat) : Nat := if j < x.n then 1 else 0

def isMandatory (g : List Nat) : Bool := g.any fun j => x.n ≤ j

def entry (j : Nat) : Nat × Message := (j, x.message j)

/-- The record the stream keeps for a group of indices. -/
def payload (g : List Nat) : HistoryGroup where
  entries := if fits x.budget (total x.cost g) then g.map x.entry else []
  cost := total x.cost g
  count := g.length
  historyCount := total x.hist g
  mandatory := x.isMandatory g

/-- The indices of the closed mandatory groups and of the system messages. -/
def requiredSet (s : Scan) : Finset Nat :=
  s.protected_ ∪ (s.groups.filter x.isMandatory).flatten.toFinset

def optionalGroups (s : Scan) : List (List Nat) :=
  s.groups.filter fun g => !x.isMandatory g

def requiredCost (s : Scan) : Nat := ∑ j ∈ x.requiredSet s, x.cost j

end Input

-- ---------------------------------------------------------------------------
-- The simulation relation
-- ---------------------------------------------------------------------------

/-- The indices seen by `select`: each is protected or in exactly one group. -/
structure Scan.Partition (i : Nat) (s : Scan) : Prop where
  nodup : (s.groups.flatten ++ s.group).Nodup
  bound : ∀ j ∈ s.groups.flatten ++ s.group, j < i
  protectedBound : ∀ j ∈ s.protected_, j < i
  cover : ∀ j < i, j ∈ s.protected_ ∨ j ∈ s.groups.flatten ++ s.group
  disjoint : ∀ j ∈ s.protected_, j ∉ s.groups.flatten ++ s.group
  nonempty : ∀ g ∈ s.groups, g ≠ []

/-- What the stream has retained, against the groups closed so far. -/
structure Retained (x : Input) (s : Scan) (t : StreamingSelection) : Prop where
  budget : t.budget = x.budget
  requiredCost : t.requiredCost = x.requiredCost s
  requiredHistory : t.requiredHistory = ∑ j ∈ x.requiredSet s, x.hist j
  overflow : t.requiredOverflow = !fits x.budget (x.requiredCost s)
  required : fits x.budget (x.requiredCost s) = true →
    ∃ r : List Nat, r.Nodup ∧ r.toFinset = x.requiredSet s ∧ t.required = r.map x.entry
  optional : t.optional =
    (keepSuffix (fits x.budget) (total x.cost) (x.requiredCost s) (x.optionalGroups s)).map
      x.payload
  optionalCost : t.optionalCost = total HistoryGroup.cost t.optional

structure Sim (x : Input) (i : Nat) (s : Scan) (t : StreamingSelection) : Prop where
  partition : s.Partition i
  retained : Retained x s t
  sizes : s.sizes = (List.range i).map x.size
  failure : t.failure = none
  pending : t.pending = s.pending
  historyCount : t.historyCount = min i x.n
  currentCount : t.currentCount = i - x.n
  totalCost : t.totalCost = ∑ j ∈ Finset.range i, x.cost j
  group : t.group = x.payload s.group
  groups : t.groups = s.groups.length
  mandatoryGroups : t.mandatoryGroups = (s.groups.filter x.isMandatory).length

-- ---------------------------------------------------------------------------
-- Trimming
-- ---------------------------------------------------------------------------

theorem trimLoop_eq (budget base : Nat) (gs : List HistoryGroup) :
    trimLoop budget base gs (total HistoryGroup.cost gs) =
      (keepSuffix (fits budget) HistoryGroup.cost base gs,
        total HistoryGroup.cost (keepSuffix (fits budget) HistoryGroup.cost base gs)) := by
  induction gs with
  | nil => rfl
  | cons g rest ih =>
    rw [trimLoop, keepSuffix]
    split
    · rfl
    · rw [total_cons, Nat.add_sub_cancel_left, ih]

/-- `_trim` on a consistent record keeps the longest fitting suffix. -/
theorem trim_eq {t : StreamingSelection} (h : t.optionalCost = total HistoryGroup.cost t.optional) :
    t.trim = { t with
      optional := keepSuffix (fits t.budget) HistoryGroup.cost t.requiredCost t.optional
      optionalCost := total HistoryGroup.cost
        (keepSuffix (fits t.budget) HistoryGroup.cost t.requiredCost t.optional) } := by
  rw [trim, h, trimLoop_eq]

theorem payload_cost (x : Input) (gs : List (List Nat)) (base : Nat) :
    keepSuffix (fits x.budget) HistoryGroup.cost base (gs.map x.payload) =
      (keepSuffix (fits x.budget) (total x.cost) base gs).map x.payload :=
  keepSuffix_map (fits x.budget) HistoryGroup.cost x.payload base gs

/-- Trimming an optional part that was kept for a smaller required cost. -/
theorem keep_payload_trimmed (x : Input) {base base' : Nat} (h : base ≤ base')
    (gs : List (List Nat)) :
    keepSuffix (fits x.budget) HistoryGroup.cost base'
        ((keepSuffix (fits x.budget) (total x.cost) base gs).map x.payload) =
      (keepSuffix (fits x.budget) (total x.cost) base' gs).map x.payload := by
  rw [payload_cost, keepSuffix_trimmed (total x.cost) fits_mono h]

/-- The required part grows by the indices `l`, as for a system message and for a
mandatory group. `entries` is their payload, which the stream may have dropped when
it cannot be selected. -/
theorem Retained.require {x : Input} {s s' : Scan} {t : StreamingSelection} {l : List Nat}
    {entries : List (Nat × Message)} (h : Retained x s t)
    (hset : x.requiredSet s' = x.requiredSet s ∪ l.toFinset)
    (hdisj : Disjoint (x.requiredSet s) l.toFinset) (hnodup : l.Nodup)
    (hopt : x.optionalGroups s' = x.optionalGroups s)
    (hentries : fits x.budget (total x.cost l) = true → entries = l.map x.entry) :
    Retained x s' (t.require (total x.cost l) (total x.hist l) entries) := by
  have hsum : ∀ f : Nat → Nat,
      ∑ j ∈ x.requiredSet s', f j = ∑ j ∈ x.requiredSet s, f j + total f l := by
    intro f
    rw [hset, Finset.sum_union hdisj, List.sum_toFinset f hnodup]
    rfl
  have hcost : t.requiredCost + total x.cost l = x.requiredCost s' := by
    rw [h.requiredCost, Input.requiredCost, Input.requiredCost, hsum]
  have hle : x.requiredCost s ≤ x.requiredCost s' := by
    rw [← hcost, h.requiredCost]
    exact Nat.le_add_right _ _
  have hhist : t.requiredHistory + total x.hist l = ∑ j ∈ x.requiredSet s', x.hist j := by
    rw [h.requiredHistory, hsum]
  rw [StreamingSelection.require]
  simp only [h.budget, hcost, hhist]
  by_cases hfits : fits x.budget (x.requiredCost s') = true
  · rw [if_pos hfits, trim_eq (by exact h.optionalCost)]
    obtain ⟨r, hr, hrset, hreq⟩ := h.required (fits_mono hle hfits)
    have hlfits : fits x.budget (total x.cost l) = true :=
      fits_mono (by rw [← hcost]; exact Nat.le_add_left _ _) hfits
    constructor
    · rfl
    · rfl
    · rfl
    · simp only [h.overflow, hfits, fits_mono hle hfits]
    · intro _
      refine ⟨r ++ l, ?_, ?_, ?_⟩
      · rw [List.nodup_append]
        refine ⟨hr, hnodup, fun a ha b hb hab => ?_⟩
        rw [← List.mem_toFinset, hrset] at ha
        exact Finset.disjoint_left.mp hdisj ha (List.mem_toFinset.mpr (hab ▸ hb))
      · rw [List.toFinset_append, hrset, hset]
      · simp only [hreq, hentries hlfits, List.map_append]
    · simp only [h.optional, hopt, keep_payload_trimmed x hle]
    · rfl
  · rw [if_neg hfits, trim_eq (by exact h.optionalCost)]
    rw [Bool.not_eq_true] at hfits
    constructor
    · rfl
    · rfl
    · rfl
    · simp only [hfits, Bool.not_false]
    · intro hfits'
      rw [hfits] at hfits'
      exact absurd hfits' Bool.false_ne_true
    · simp only [h.optional, hopt, keep_payload_trimmed x hle]
    · rfl

/-- The fields that say where the scan stands. -/
structure SamePlace (t u : StreamingSelection) : Prop where
  failure : u.failure = t.failure
  pending : u.pending = t.pending
  historyCount : u.historyCount = t.historyCount
  currentCount : u.currentCount = t.currentCount
  totalCost : u.totalCost = t.totalCost
  group : u.group = t.group
  groups : u.groups = t.groups
  mandatoryGroups : u.mandatoryGroups = t.mandatoryGroups

theorem require_samePlace (t : StreamingSelection) (cost history : Nat)
    (entries : List (Nat × Message)) : SamePlace t (t.require cost history entries) := by
  rw [require]
  simp only
  split <;> constructor <;> rfl

-- ---------------------------------------------------------------------------
-- Closing the open group
-- ---------------------------------------------------------------------------

/-- `select` with its open group closed. -/
def Scan.closed (s : Scan) : Scan := { s with groups := s.groups ++ [s.group], group := [] }

theorem Scan.Partition.closed {i : Nat} {s : Scan} (h : s.Partition i) (hne : s.group ≠ []) :
    s.closed.Partition i := by
  have hflat : s.closed.groups.flatten ++ s.closed.group = s.groups.flatten ++ s.group := by
    simp [Scan.closed]
  constructor
  · rw [hflat]; exact h.nodup
  · rw [hflat]; exact h.bound
  · exact h.protectedBound
  · rw [hflat]; exact h.cover
  · rw [hflat]; exact h.disjoint
  · intro g hg
    rcases List.mem_append.mp hg with hg | hg
    · exact h.nonempty g hg
    · rw [List.mem_singleton.mp hg]
      exact hne

/-- No index of the open group is required yet. -/
theorem Scan.Partition.disjoint_group {x : Input} {i : Nat} {s : Scan} (h : s.Partition i) :
    Disjoint (x.requiredSet s) s.group.toFinset := by
  rw [Finset.disjoint_left]
  intro j hj hgroup
  rw [List.mem_toFinset] at hgroup
  rcases Finset.mem_union.mp hj with hj | hj
  · exact h.disjoint j hj (List.mem_append_right _ hgroup)
  · have hflat : j ∈ s.groups.flatten := by
      rw [List.mem_toFinset, List.mem_flatten] at hj
      obtain ⟨g, hg, hjg⟩ := hj
      exact List.mem_flatten.mpr ⟨g, (List.mem_filter.mp hg).1, hjg⟩
    exact (List.nodup_append.mp h.nodup).2.2 j hflat j hgroup rfl

theorem payload_empty (x : Input) : HistoryGroup.empty = x.payload [] := by
  simp [HistoryGroup.empty, Input.payload, Input.isMandatory]

theorem closeGroup_empty {t : StreamingSelection} (h : t.group.count = 0) : t.closeGroup = t := by
  rw [closeGroup, if_pos h]

/-- A closed optional group is offered to the retained suffix: it is a barrier, or it
is kept and older groups make room for it. -/
theorem Retained.offer {x : Input} {s s' : Scan} {t : StreamingSelection} {g : List Nat}
    (h : Retained x s t) (hset : x.requiredSet s' = x.requiredSet s)
    (hopt : x.optionalGroups s' = x.optionalGroups s ++ [g]) :
    Retained x s' (
      if !fits t.budget (t.requiredCost + (x.payload g).cost) then
        { t with optional := [], optionalCost := 0 }
      else
        trim { t with
          optional := t.optional ++ [x.payload g]
          optionalCost := t.optionalCost + (x.payload g).cost }) := by
  have hcost : x.requiredCost s' = x.requiredCost s := by
    rw [Input.requiredCost, hset, Input.requiredCost]
  have hsnoc := keepSuffix_snoc (total x.cost) (@fits_mono x.budget)
    (x.requiredCost s)
  have hreq : t.requiredCost + (x.payload g).cost = x.requiredCost s + total x.cost g := by
    rw [h.requiredCost]
    rfl
  rw [hreq, h.budget]
  by_cases hfits : fits x.budget (x.requiredCost s + total x.cost g) = true
  · have hsum : t.optionalCost + (x.payload g).cost =
        total HistoryGroup.cost (t.optional ++ [x.payload g]) := by
      simp [h.optionalCost]
    rw [hfits, hsum, Bool.not_true, if_neg Bool.false_ne_true, trim_eq rfl]
    constructor
    · rfl
    · rw [hcost]; exact h.requiredCost
    · rw [hset]; exact h.requiredHistory
    · rw [hcost]; exact h.overflow
    · rw [hcost, hset]; exact h.required
    · show keepSuffix (fits x.budget) HistoryGroup.cost t.requiredCost
        (t.optional ++ [x.payload g]) = _
      have hle : x.requiredCost s ≤ x.requiredCost s + total x.cost g := Nat.le_add_right _ _
      rw [h.requiredCost, h.optional, hcost, hopt, ← List.map_singleton,
        ← List.map_append, payload_cost, hsnoc, hsnoc, if_pos hfits, if_pos hfits,
        keepSuffix_trimmed (total x.cost) fits_mono hle]
    · rfl
  · rw [Bool.not_eq_true] at hfits
    rw [hfits, Bool.not_false, if_pos rfl]
    constructor
    · rfl
    · rw [hcost]; exact h.requiredCost
    · rw [hset]; exact h.requiredHistory
    · rw [hcost]; exact h.overflow
    · rw [hcost, hset]; exact h.required
    · rw [hcost, hopt, hsnoc, if_neg (by rw [hfits]; exact Bool.false_ne_true)]
      rfl
    · rfl

/-- What closing a group does to the place of the scan. -/
theorem Sim.openGroup {x : Input} {i : Nat} {s : Scan} {t u : StreamingSelection}
    (h : Sim x i s t) (hne : s.group ≠ []) (hu : SamePlace (t.openGroup t.group.mandatory) u)
    (hr : Retained x s.closed u) : Sim x i s.closed u where
  partition := h.partition.closed hne
  retained := hr
  sizes := h.sizes
  failure := by rw [hu.failure]; exact h.failure
  pending := by rw [hu.pending]; exact h.pending
  historyCount := by rw [hu.historyCount]; exact h.historyCount
  currentCount := by rw [hu.currentCount]; exact h.currentCount
  totalCost := by rw [hu.totalCost]; exact h.totalCost
  group := by rw [hu.group]; exact payload_empty x
  groups := by rw [hu.groups]; simp [StreamingSelection.openGroup, Scan.closed, h.groups]
  mandatoryGroups := by
    rw [hu.mandatoryGroups]
    simp only [StreamingSelection.openGroup, Scan.closed, h.mandatoryGroups, h.group,
      Input.payload, List.filter_append, List.length_append]
    cases hm : x.isMandatory s.group <;> simp [hm]

theorem closeGroup_sim {x : Input} {i : Nat} {s : Scan} {t : StreamingSelection}
    (h : Sim x i s t) (hne : s.group ≠ []) : Sim x i s.closed t.closeGroup := by
  have hcount : ¬ t.group.count = 0 := by
    rw [h.group]
    simpa [Input.payload] using hne
  have hopen : Retained x s (t.openGroup t.group.mandatory) := { h.retained with }
  rw [closeGroup]
  simp only [if_neg hcount]
  by_cases hm : x.isMandatory s.group = true
  · have hmand : t.group.mandatory = true := by rw [h.group]; exact hm
    rw [if_pos hmand]
    refine h.openGroup hne (require_samePlace _ _ _ _) ?_
    have hset : x.requiredSet s.closed = x.requiredSet s ∪ s.group.toFinset := by
      simp [Input.requiredSet, Scan.closed, List.filter_append, hm, Finset.union_assoc]
    have hopt : x.optionalGroups s.closed = x.optionalGroups s := by
      simp [Input.optionalGroups, Scan.closed, List.filter_append, hm]
    rw [h.group]
    rw [h.group] at hopen
    exact hopen.require hset h.partition.disjoint_group
      (List.nodup_append.mp h.partition.nodup).2.1 hopt (fun hfits => if_pos hfits)
  · rw [Bool.not_eq_true] at hm
    have hmand : ¬ t.group.mandatory = true := by
      rw [h.group, Bool.not_eq_true]
      exact hm
    rw [if_neg hmand]
    have hset : x.requiredSet s.closed = x.requiredSet s := by
      simp [Input.requiredSet, Scan.closed, List.filter_append, hm]
    have hopt : x.optionalGroups s.closed = x.optionalGroups s ++ [s.group] := by
      simp [Input.optionalGroups, Scan.closed, List.filter_append, hm]
    have hkept := hopen.offer hset hopt
    rw [← h.group] at hkept
    refine h.openGroup hne ?_ hkept
    split <;> constructor <;> rfl

-- ---------------------------------------------------------------------------
-- One message
-- ---------------------------------------------------------------------------

/-- The stream reports `e`: it raises it, or it has recorded it for `finish`. -/
def Raises (r : Except Exn StreamingSelection) (e : Exn) : Prop :=
  r = .error e ∨ ∃ t, r = .ok t ∧ t.failure = some e

theorem close_sizes (s : Scan) (sizes : List Nat) (boundary : Bool) :
    Scan.close { s with sizes := sizes } boundary = { s.close boundary with sizes := sizes } := by
  unfold Scan.close
  simp only
  split <;> rfl

/-- The conditional close of the two loops, at one boundary. -/
theorem close_sim {x : Input} {i : Nat} {s : Scan} {t : StreamingSelection} (h : Sim x i s t)
    (boundary : Bool) :
    Sim x i (s.close boundary)
      (if boundary = true ∧ t.pending = ∅ then t.closeGroup else t) := by
  rw [h.pending, Scan.close]
  by_cases hne : s.group ≠ []
  · by_cases hb : boundary = true ∧ s.pending = ∅
    · rw [if_pos ⟨hb.1, hb.2, hne⟩, if_pos hb]
      exact closeGroup_sim h hne
    · rw [if_neg fun hall => hb ⟨hall.1, hall.2.1⟩, if_neg hb]
      exact h
  · have hcount : t.group.count = 0 := by
      rw [h.group]
      simpa [Input.payload] using hne
    rw [if_neg fun hall => hne hall.2.2, closeGroup_empty hcount, ite_self]
    exact h

/-- Message `i` joins the protected indices. -/
theorem Scan.Partition.protect {i : Nat} {s : Scan} (h : s.Partition i) (sizes : List Nat) :
    Scan.Partition (i + 1) { s with sizes := sizes, protected_ := insert i s.protected_ } where
  nodup := h.nodup
  bound j hj := Nat.lt_succ_of_lt (h.bound j hj)
  protectedBound j hj := by
    rcases Finset.mem_insert.mp hj with rfl | hj
    · exact Nat.lt_succ_self j
    · exact Nat.lt_succ_of_lt (h.protectedBound j hj)
  cover j hj := by
    rcases Nat.lt_succ_iff_lt_or_eq.mp hj with hj | rfl
    · exact (h.cover j hj).imp Finset.mem_insert_of_mem id
    · exact Or.inl (Finset.mem_insert_self j _)
  disjoint j hj := by
    rcases Finset.mem_insert.mp hj with rfl | hj
    · exact fun hmem => absurd (h.bound j hmem) (Nat.lt_irrefl j)
    · exact h.disjoint j hj
  nonempty := h.nonempty

/-- Message `i` joins the open group. -/
theorem Scan.Partition.extend {i : Nat} {s : Scan} (h : s.Partition i) (sizes : List Nat)
    (pending : Finset PyStr) :
    Scan.Partition (i + 1)
      { s with sizes := sizes, group := s.group ++ [i], pending := pending } := by
  have hflat : ∀ j, j ∈ s.groups.flatten ++ (s.group ++ [i]) ↔
      j ∈ s.groups.flatten ++ s.group ∨ j = i := by
    intro j
    rw [← List.append_assoc, List.mem_append, List.mem_singleton]
  constructor
  · show (s.groups.flatten ++ (s.group ++ [i])).Nodup
    rw [← List.append_assoc, List.nodup_append]
    refine ⟨h.nodup, List.nodup_singleton i, fun a ha b hb hab => ?_⟩
    have hlt := h.bound a ha
    rw [List.mem_singleton.mp hb] at hab
    omega
  · intro j hj
    rcases (hflat j).mp hj with hj | rfl
    · exact Nat.lt_succ_of_lt (h.bound j hj)
    · exact Nat.lt_succ_self j
  · exact fun j hj => Nat.lt_succ_of_lt (h.protectedBound j hj)
  · intro j hj
    rcases Nat.lt_succ_iff_lt_or_eq.mp hj with hj | rfl
    · exact (h.cover j hj).imp id fun hmem => (hflat j).mpr (Or.inl hmem)
    · exact Or.inr ((hflat j).mpr (Or.inr rfl))
  · intro j hj hmem
    rcases (hflat j).mp hmem with hmem | rfl
    · exact h.disjoint j hj hmem
    · exact absurd (h.protectedBound j hj) (Nat.lt_irrefl j)
  · exact h.nonempty

theorem sizes_step {x : Input} {i size : Nat} {sizes : List Nat}
    (h : sizes = (List.range i).map x.size) (hsize : x.size i = size) :
    sizes ++ [size] = (List.range (i + 1)).map x.size := by
  rw [List.range_succ, List.map_append, h, ← hsize]
  rfl

/-- Counting message `i` keeps the totals in step. -/
theorem counted_totals {x : Input} {i size : Nat} {s : Scan} {t : StreamingSelection}
    {current : Bool} (h : Sim x i s t) (hsize : x.size i = size)
    (hcurrent : current = decide (x.n ≤ i)) :
    (counted t (1 + size) current).historyCount = min (i + 1) x.n ∧
      (counted t (1 + size) current).currentCount = i + 1 - x.n ∧
      (counted t (1 + size) current).totalCost = ∑ j ∈ Finset.range (i + 1), x.cost j := by
  have hcost : x.cost i = 1 + size := by rw [Input.cost, hsize, Nat.add_comm]
  refine ⟨?_, ?_, ?_⟩
  · rw [counted, h.historyCount, hcurrent]
    by_cases hn : x.n ≤ i <;> simp [hn] <;> omega
  · rw [counted, h.currentCount, hcurrent]
    by_cases hn : x.n ≤ i <;> simp [hn] <;> omega
  · rw [counted, h.totalCost, Finset.sum_range_succ, hcost]

theorem hist_eq {x : Input} {i : Nat} {current : Bool} (h : current = decide (x.n ≤ i)) :
    x.hist i = if current then 0 else 1 := by
  rw [Input.hist, h]
  by_cases hn : x.n ≤ i
  · simp [hn]
  · simp [hn, Nat.lt_of_not_le hn]

theorem system_sim {x : Input} {i size : Nat} {s : Scan} {t : StreamingSelection} {m : Message}
    {current : Bool} (h : Sim x i s t) (hm : x.message i = m) (hsize : x.size i = size)
    (hcurrent : current = decide (x.n ≤ i)) :
    Sim x (i + 1)
      { s with sizes := s.sizes ++ [size], protected_ := insert i s.protected_ }
      ((counted t (1 + size) current).require (1 + size) (if current then 0 else 1) [(i, m)]) := by
  have hcost : x.cost i = 1 + size := by rw [Input.cost, hsize, Nat.add_comm]
  have hcounted : Retained x s (counted t (1 + size) current) := { h.retained with }
  obtain ⟨s', hs'⟩ : ∃ s' : Scan, s' =
    { s with sizes := s.sizes ++ [size], protected_ := insert i s.protected_ } := ⟨_, rfl⟩
  have hset : x.requiredSet s' = x.requiredSet s ∪ [i].toFinset := by
    ext j
    simp only [hs', Input.requiredSet, Finset.mem_union, Finset.mem_insert, List.mem_toFinset,
      List.mem_singleton]
    tauto
  have hdisj : Disjoint (x.requiredSet s) [i].toFinset := by
    rw [List.toFinset_cons, List.toFinset_nil, insert_empty_eq,
      Finset.disjoint_singleton_right]
    intro hmem
    rcases Finset.mem_union.mp hmem with hmem | hmem
    · exact absurd (h.partition.protectedBound i hmem) (Nat.lt_irrefl i)
    · rw [List.mem_toFinset, List.mem_flatten] at hmem
      obtain ⟨g, hg, hi⟩ := hmem
      have hflat : i ∈ s.groups.flatten ++ s.group :=
        List.mem_append_left _ (List.mem_flatten.mpr ⟨g, (List.mem_filter.mp hg).1, hi⟩)
      exact absurd (h.partition.bound i hflat) (Nat.lt_irrefl i)
  have hentries : [(i, m)] = [i].map x.entry := by rw [List.map_singleton, Input.entry, hm]
  have hret := hcounted.require hset hdisj (List.nodup_singleton i) (by rw [hs']; rfl)
    (fun _ => hentries)
  have hsums : total x.cost [i] = 1 + size ∧ total x.hist [i] = if current then 0 else 1 := by
    simp [hcost, hist_eq hcurrent]
  rw [hsums.1, hsums.2] at hret
  have hplace := require_samePlace (counted t (1 + size) current) (1 + size)
    (if current then 0 else 1) [(i, m)]
  obtain ⟨hhistory, hcount, htotal⟩ := counted_totals h hsize hcurrent
  rw [hs'] at hret
  exact {
    partition := h.partition.protect _
    retained := hret
    sizes := sizes_step h.sizes hsize
    failure := by rw [hplace.failure]; exact h.failure
    pending := by rw [hplace.pending]; exact h.pending
    historyCount := by rw [hplace.historyCount]; exact hhistory
    currentCount := by rw [hplace.currentCount]; exact hcount
    totalCost := by rw [hplace.totalCost]; exact htotal
    group := by rw [hplace.group]; exact h.group
    groups := by rw [hplace.groups]; exact h.groups
    mandatoryGroups := by rw [hplace.mandatoryGroups]; exact h.mandatoryGroups }

theorem extendGroup_payload {x : Input} {i size : Nat} {t : StreamingSelection} {g : List Nat}
    {m : Message} {current : Bool} (hbudget : t.budget = x.budget) (hg : t.group = x.payload g)
    (hm : x.message i = m) (hsize : x.size i = size) (hcurrent : current = decide (x.n ≤ i)) :
    t.extendGroup i (1 + size) m current = { t with group := x.payload (g ++ [i]) } := by
  have hcost : x.cost i = 1 + size := by rw [Input.cost, hsize, Nat.add_comm]
  have htotal : total x.cost (g ++ [i]) = total x.cost g + (1 + size) := by simp [hcost]
  rw [extendGroup, hg, hbudget]
  simp only [Input.payload, htotal]
  congr 2
  · -- the payload is dropped once the group no longer fits, and stays dropped
    by_cases hfits : fits x.budget (total x.cost g + (1 + size)) = true
    · have hbefore : fits x.budget (total x.cost g) = true :=
        fits_mono (Nat.le_add_right _ _) hfits
      simp [hfits, hbefore, Input.entry, hm]
    · simp [hfits]
  · simp
  · simp [hist_eq hcurrent]
  · simp [Input.isMandatory, hcurrent]

theorem extend_sim {x : Input} {i size : Nat} {s : Scan} {t : StreamingSelection} {m : Message}
    {current : Bool} (pending : Finset PyStr) (h : Sim x i s t) (hm : x.message i = m)
    (hsize : x.size i = size) (hcurrent : current = decide (x.n ≤ i)) :
    Sim x (i + 1)
      { s with sizes := s.sizes ++ [size], group := s.group ++ [i], pending := pending }
      { (counted t (1 + size) current).extendGroup i (1 + size) m current with
        pending := pending } := by
  have hextend := extendGroup_payload (t := counted t (1 + size) current) h.retained.budget
    h.group hm hsize hcurrent
  rw [hextend]
  obtain ⟨hhistory, hcount, htotal⟩ := counted_totals h hsize hcurrent
  exact {
    partition := h.partition.extend _ _
    retained := { h.retained with }
    sizes := sizes_step h.sizes hsize
    failure := h.failure
    pending := rfl
    historyCount := hhistory
    currentCount := hcount
    totalCost := htotal
    group := rfl
    groups := h.groups
    mandatoryGroups := h.mandatoryGroups }

/-- One message: both selectors meet the same error, or both go on. -/
theorem step_sim {x : Input} {encode : Encoder} {i : Nat} {s : Scan} {t : StreamingSelection}
    {m : Message} {current : Bool} (h : Sim x i s t) (hm : x.message i = m)
    (hsize : ∀ bytes, encode m = .ok bytes → x.size i = bytes.length)
    (hcurrent : current = decide (x.n ≤ i)) :
    match s.step encode x.n i m with
    | .ok s' => ∃ t', t.add encode m current = .ok t' ∧ Sim x (i + 1) s' t'
    | .error e => Raises (t.add encode m current) e := by
  have hfailure : ¬ t.failure.isSome = true := by simp [h.failure]
  rw [Scan.step, StreamingSelection.add, if_neg hfailure]
  cases hencode : encode m with
  | error e =>
    by_cases hclass : isValueOrTypeError e = true
    · exact Or.inr ⟨_, if_pos hclass, rfl⟩
    · exact Or.inl (if_neg hclass)
  | ok bytes =>
    -- the boundary of the request is `index == len(history)` on one side and
    -- `current and not current_count` on the other
    have hboundary : (m.role = .user || (current && t.currentCount = 0)) =
        (m.role = .user || i = x.n) := by
      rw [h.currentCount, hcurrent]
      congr 1
      by_cases hn : i = x.n
      · simp [hn]
      · by_cases hle : x.n ≤ i
        · simp [hn, hle]
          omega
        · simp [hn, hle]
    have hclosed := close_sim h (m.role = .user || i = x.n)
    have hindex : t.historyCount + t.currentCount = i := by
      rw [h.historyCount, h.currentCount]
      omega
    have hsizes : (s.close (m.role = .user || i = x.n)).sizes = s.sizes := by
      unfold Scan.close
      split <;> rfl
    simp only [close_sizes, hboundary, hindex, Nat.add_comm 1, ← hsizes]
    generalize s.close (m.role = .user || i = x.n) = s₁ at hclosed ⊢
    generalize (if (m.role = .user || i = x.n) = true ∧ t.pending = ∅ then t.closeGroup else t) =
      t₁ at hclosed ⊢
    have hlength := hsize bytes hencode
    by_cases hsystem : m.role = .system
    · simp only [if_pos hsystem]
      refine ⟨_, rfl, ?_⟩
      rw [Nat.add_comm bytes.length]
      exact system_sim hclosed hm hlength hcurrent
    · simp only [if_neg hsystem]
      have hpending : ((t₁.counted (bytes.length + 1) current).extendGroup i
          (bytes.length + 1) m current).pending = s₁.pending := hclosed.pending
      rw [hpending]
      cases scanParts s₁.pending m.content with
      | error e => exact Or.inr ⟨_, rfl, rfl⟩
      | ok pending =>
        refine ⟨_, rfl, ?_⟩
        rw [Nat.add_comm bytes.length]
        exact extend_sim pending hclosed hm hlength hcurrent

-- ---------------------------------------------------------------------------
-- A whole pass
-- ---------------------------------------------------------------------------

/-- Once a failure is recorded the rest of the input is consumed unread. -/
theorem addAll_failed {encode : Encoder} {current : Bool} {e : Exn} (rest : List Message)
    {t : StreamingSelection} (h : t.failure = some e) :
    t.addAll encode current rest = .ok t := by
  induction rest with
  | nil => rfl
  | cons m rest ih =>
    have hadd : t.add encode m current = .ok t := by
      rw [StreamingSelection.add, h, Option.isSome_some, if_pos rfl]
    rw [addAll, hadd]
    exact ih

theorem Raises.addAll {encode : Encoder} {current : Bool} {e : Exn} {m : Message}
    {rest : List Message} {t : StreamingSelection} (h : Raises (t.add encode m current) e) :
    Raises (t.addAll encode current (m :: rest)) e := by
  rcases h with h | ⟨u, h, hu⟩
  · rw [StreamingSelection.addAll, h]
    exact Or.inl rfl
  · rw [StreamingSelection.addAll, h]
    exact Or.inr ⟨u, addAll_failed rest hu, hu⟩

/-- A pass over `rest`, which holds the messages from `i` on and lies on one side of the
boundary. -/
theorem loop_sim {x : Input} {encode : Encoder} (current : Bool) (rest : List Message) :
    ∀ {i : Nat} {s : Scan} {t : StreamingSelection}, Sim x i s t →
    (∀ k (hk : k < rest.length), x.message (i + k) = rest[k]) →
    (∀ k (hk : k < rest.length) bytes, encode rest[k] = .ok bytes →
      x.size (i + k) = bytes.length) →
    (∀ k < rest.length, current = decide (x.n ≤ i + k)) →
    match s.loop encode x.n i rest with
    | .ok s' => ∃ t', t.addAll encode current rest = .ok t' ∧ Sim x (i + rest.length) s' t'
    | .error e => Raises (t.addAll encode current rest) e := by
  induction rest with
  | nil => exact fun h _ _ _ => ⟨_, rfl, h⟩
  | cons m rest ih =>
    intro i s t h hmessage hsize hcurrent
    have hstep := step_sim h (hmessage 0 (Nat.succ_pos _))
      (hsize 0 (Nat.succ_pos _)) (hcurrent 0 (Nat.succ_pos _))
    rw [Nat.add_zero, List.getElem_cons_zero] at hstep
    rw [Scan.loop]
    cases hnext : s.step encode x.n i m with
    | error e =>
      rw [hnext] at hstep
      exact hstep.addAll
    | ok s' =>
      rw [hnext] at hstep
      obtain ⟨t', hadd, hsim⟩ := hstep
      have hshift : ∀ k, i + 1 + k = i + (k + 1) := fun k => by omega
      have hrest := ih hsim
        (fun k hk => by rw [hshift]; exact hmessage (k + 1) (Nat.succ_lt_succ hk))
        (fun k hk => by rw [hshift]; exact hsize (k + 1) (Nat.succ_lt_succ hk))
        (fun k hk => by rw [hshift]; exact hcurrent (k + 1) (Nat.succ_lt_succ hk))
      rw [addAll, hadd, List.length_cons, Nat.add_comm rest.length, ← Nat.add_assoc]
      exact hrest

theorem loop_append (encode : Encoder) (n : Nat) (as bs : List Message) :
    ∀ (i : Nat) (s : Scan), s.loop encode n i (as ++ bs) =
      match s.loop encode n i as with
      | .ok s' => s'.loop encode n (i + as.length) bs
      | .error e => .error e := by
  induction as with
  | nil => exact fun i s => rfl
  | cons m as ih =>
    intro i s
    rw [List.cons_append, Scan.loop, Scan.loop]
    cases s.step encode n i m with
    | error e => rfl
    | ok s' =>
      simp only
      rw [ih, List.length_cons, Nat.add_comm as.length, Nat.add_assoc]

theorem start_sim (x : Input) (hbudget : 2 ≤ x.budget) :
    Sim x 0 Scan.start (StreamingSelection.start x.budget) := by
  have hset : x.requiredSet Scan.start = ∅ := rfl
  have hcost : x.requiredCost Scan.start = 0 := rfl
  have hfits : fits x.budget 0 = true := by simpa [fits, bytesOf] using hbudget
  have hretained : Retained x Scan.start (StreamingSelection.start x.budget) := by
    refine ⟨rfl, rfl, rfl, ?_, ?_, rfl, rfl⟩
    · rw [hcost, hfits]
      rfl
    · exact fun _ => ⟨[], List.nodup_nil, rfl, rfl⟩
  have hpartition : Scan.start.Partition 0 := by
    constructor <;> simp [Scan.start]
  exact ⟨hpartition, hretained, rfl, rfl, rfl, by simp [StreamingSelection.start],
    by simp [StreamingSelection.start], rfl, payload_empty x, rfl, rfl⟩

-- ---------------------------------------------------------------------------
-- The filling loop
-- ---------------------------------------------------------------------------

theorem bytesOf_pos {cost : Nat} (h : cost ≠ 0) : bytesOf cost = cost + 1 := by
  rw [bytesOf, if_neg h]

theorem total_cost_eq (x : Input) (g : List Nat) :
    total x.cost g = (g.map x.size).sum + g.length := by
  induction g with
  | nil => rfl
  | cons j rest ih =>
    rw [total_cons, ih, Input.cost, List.map_cons, List.sum_cons, List.length_cons]
    omega

theorem sizes_getD {x : Input} {i j : Nat} {sizes : List Nat}
    (h : sizes = (List.range i).map x.size) (hj : j < i) : sizes.getD j 0 = x.size j := by
  rw [h, List.getD_eq_getElem?_getD, List.getElem?_map, List.getElem?_range hj]
  rfl

theorem byteCount_eq {x : Input} {i : Nat} {sizes : List Nat} {indices : Finset Nat}
    (h : sizes = (List.range i).map x.size) (hbound : ∀ j ∈ indices, j < i) :
    byteCount sizes indices = bytesOf (∑ j ∈ indices, x.cost j) := by
  have hsizes : ∑ j ∈ indices, sizes.getD j 0 = ∑ j ∈ indices, x.size j :=
    Finset.sum_congr rfl fun j hj => sizes_getD h (hbound j hj)
  have hcost : ∑ j ∈ indices, x.cost j = ∑ j ∈ indices, x.size j + indices.card := by
    rw [Finset.card_eq_sum_ones, ← Finset.sum_add_distrib]
    rfl
  rw [byteCount, hsizes, hcost, bytesOf]
  rcases Finset.eq_empty_or_nonempty indices with rfl | hne
  · rfl
  · have hcard := hne.card_pos
    rw [if_neg (by omega)]
    omega

/-- The groups a filling pass works on: not empty, without a repeated index, in range. -/
structure Fillable (i : Nat) (groups : List (List Nat)) : Prop where
  nonempty : ∀ g ∈ groups, g ≠ []
  bound : ∀ g ∈ groups, ∀ j ∈ g, j < i

theorem candidate_eq {x : Input} {i c : Nat} {sizes g : List Nat} {selected : Finset Nat}
    (h : sizes = (List.range i).map x.size) (hbound : ∀ j ∈ g, j < i) (hg : g ≠ [])
    (hempty : selected = ∅ ↔ c = 0) :
    bytesOf c + (g.map fun item => sizes.getD item 0).sum + g.length -
      (if selected = ∅ then 1 else 0) = bytesOf (c + total x.cost g) := by
  have hsizes : (g.map fun item => sizes.getD item 0) = g.map x.size :=
    List.map_congr_left fun j hj => sizes_getD h (hbound j hj)
  have hlength : 0 < g.length := List.length_pos_iff.mpr hg
  have hright : bytesOf (c + ((g.map x.size).sum + g.length)) =
      c + ((g.map x.size).sum + g.length) + 1 := bytesOf_pos (by omega)
  rw [hsizes, total_cost_eq, hright, bytesOf]
  by_cases hc : c = 0
  · rw [if_pos hc, if_pos (hempty.mpr hc)]
    omega
  · rw [if_neg hc, if_neg fun h => hc (hempty.mp h)]
    omega

/-- The loop over the first `k` groups keeps the longest fitting suffix of the optional
ones among them. -/
theorem fill_eq {x : Input} {i : Nat} {sizes : List Nat} {groups : List (List Nat)}
    {mandatory : Finset Nat} (hsizes : sizes = (List.range i).map x.size)
    (hgroups : Fillable i groups)
    (hmandatory : ∀ k (hk : k < groups.length),
      k ∈ mandatory ↔ x.isMandatory groups[k] = true) (k : Nat) :
    k ≤ groups.length → ∀ {c : Nat} {selected chosen : Finset Nat},
    (selected = ∅ ↔ c = 0) → (∀ j ∈ chosen, j ∈ mandatory ∨ k ≤ j) →
    ∃ kept, kept = keepSuffix (fits x.budget) (total x.cost) c
        ((groups.take k).filter fun g => !x.isMandatory g) ∧
      (fill x.budget sizes groups mandatory k ⟨selected, bytesOf c, chosen⟩).selected =
        selected ∪ kept.flatten.toFinset ∧
      (fill x.budget sizes groups mandatory k ⟨selected, bytesOf c, chosen⟩).selectedBytes =
        bytesOf (c + total (total x.cost) kept) ∧
      (fill x.budget sizes groups mandatory k ⟨selected, bytesOf c, chosen⟩).chosen.card =
        chosen.card + kept.length := by
  induction k with
  | zero => exact fun _ _ _ _ _ _ => ⟨[], rfl, by simp [fill]⟩
  | succ k ih =>
    intro hk c selected chosen hempty hchosen
    have htake : groups.take (k + 1) = groups.take k ++ [groups[k]] :=
      List.take_succ_eq_append_getElem hk
    rw [fill, htake, List.filter_append]
    by_cases hm : k ∈ mandatory
    · -- a mandatory group is in already, and the loop passes over it
      have hflag := (hmandatory k hk).mp hm
      rw [if_pos hm, List.filter_cons, hflag]
      simp only [Bool.not_true, Bool.false_eq_true, if_false, List.filter_nil, List.append_nil]
      exact ih (Nat.le_of_succ_le hk) hempty fun j hj => (hchosen j hj).elim Or.inl
        fun hle => Or.inr (Nat.le_of_succ_le hle)
    · have hflag : x.isMandatory groups[k] = false := by
        rw [← Bool.not_eq_true]
        exact fun h => hm ((hmandatory k hk).mpr h)
      have hget : groups.getD k [] = groups[k] := by
        rw [List.getD_eq_getElem?_getD, List.getElem?_eq_getElem hk]
        rfl
      have hmem : groups[k] ∈ groups := List.getElem_mem hk
      have hcandidate := candidate_eq hsizes (hgroups.bound _ hmem) (hgroups.nonempty _ hmem)
        hempty
      rw [if_neg hm, List.filter_cons, hflag]
      simp only [Bool.not_false, if_true, List.filter_nil, hget, hcandidate]
      have hsnoc := keepSuffix_snoc (total x.cost) (@fits_mono x.budget) c
        ((groups.take k).filter fun g => !x.isMandatory g) groups[k]
      rw [hsnoc]
      by_cases hfits : fits x.budget (c + total x.cost groups[k]) = true
      · have hle : ¬ x.budget < bytesOf (c + total x.cost groups[k]) := by
          rw [fits, decide_eq_true_eq] at hfits
          omega
        rw [if_pos hfits, if_neg hle]
        -- the group is taken: the pass goes on with its cost added
        have hpos : 0 < groups[k].length := List.length_pos_iff.mpr (hgroups.nonempty _ hmem)
        have hnonempty : update selected groups[k] = ∅ ↔ c + total x.cost groups[k] = 0 := by
          rw [total_cost_eq, update, Finset.union_eq_empty, List.toFinset_eq_empty_iff]
          constructor
          · exact fun h => absurd h.2 (hgroups.nonempty _ hmem)
          · intro h
            omega
        have hk' : k ∉ chosen := fun hin => (hchosen k hin).elim hm fun hle =>
          absurd hle (Nat.not_succ_le_self k)
        have hinsert : ∀ j ∈ insert k chosen, j ∈ mandatory ∨ k ≤ j := by
          intro j hj
          rcases Finset.mem_insert.mp hj with rfl | hj
          · exact Or.inr (Nat.le_refl j)
          · exact (hchosen j hj).elim Or.inl fun hle => Or.inr (Nat.le_of_succ_le hle)
        obtain ⟨kept, hkept, hsel, hbytes, hcard⟩ := ih (Nat.le_of_succ_le hk) hnonempty hinsert
        refine ⟨kept ++ [groups[k]], by rw [hkept], ?_, ?_, ?_⟩
        · rw [hsel, update, Finset.union_assoc, List.flatten_append, List.toFinset_append,
            Finset.union_comm kept.flatten.toFinset]
          simp
        · rw [hbytes, total_append, total_cons, total_nil]
          congr 1
          omega
        · rw [hcard, Finset.card_insert_of_notMem hk', List.length_append, List.length_singleton]
          omega
      · -- the group does not fit, and the loop ends
        have hlt : x.budget < bytesOf (c + total x.cost groups[k]) := by
          rw [fits, decide_eq_true_eq] at hfits
          omega
        rw [if_neg hfits, if_pos hlt]
        exact ⟨[], rfl, by simp⟩

-- ---------------------------------------------------------------------------
-- The end of the input
-- ---------------------------------------------------------------------------

theorem mem_getElem_flatten {groups : List (List Nat)} {k j : Nat} (hk : k < groups.length)
    (hj : j ∈ groups[k]) : j ∈ groups.flatten :=
  List.mem_flatten.mpr ⟨_, List.getElem_mem hk, hj⟩

section Finish

variable {x : Input} {N : Nat} {s : Scan}

/-- A group is mandatory for `select` when one of its messages belongs to the request:
protected messages are in no group. -/
theorem mem_mandatoryOf (h : s.Partition N) (k : Nat) (hk : k < s.groups.length) :
    k ∈ mandatoryOf s.groups (s.protected_ ∪ Finset.Ico x.n N) ↔
      x.isMandatory s.groups[k] = true := by
  have hget : s.groups.getD k [] = s.groups[k] := by
    rw [List.getD_eq_getElem?_getD, List.getElem?_eq_getElem hk]
    rfl
  rw [mandatoryOf, Finset.mem_filter, hget, Input.isMandatory, List.any_eq_true]
  constructor
  · rintro ⟨-, j, hj, hreq⟩
    refine ⟨j, hj, ?_⟩
    rcases Finset.mem_union.mp hreq with hreq | hreq
    · exact absurd (List.mem_append_left _ (mem_getElem_flatten hk hj)) (h.disjoint j hreq)
    · exact decide_eq_true (Finset.mem_Ico.mp hreq).1
  · rintro ⟨j, hj, hn⟩
    have hbound := h.bound j (List.mem_append_left _ (mem_getElem_flatten hk hj))
    exact ⟨Finset.mem_range.mpr hk, j, hj,
      Finset.mem_union_right _ (Finset.mem_Ico.mpr ⟨of_decide_eq_true hn, hbound⟩)⟩

/-- `selected` before the filling loop is the required set. -/
theorem selected_eq_requiredSet (h : s.Partition N) (hgroup : s.group = []) :
    (mandatoryOf s.groups (s.protected_ ∪ Finset.Ico x.n N)).sup
        (fun index => (s.groups.getD index []).toFinset) ∪ (s.protected_ ∪ Finset.Ico x.n N) =
      x.requiredSet s := by
  ext j
  simp only [Finset.mem_union, Finset.mem_sup, List.mem_toFinset, Input.requiredSet,
    List.mem_flatten, List.mem_filter]
  constructor
  · rintro (⟨k, hk, hj⟩ | hj | hj)
    · have hlt : k < s.groups.length := Finset.mem_range.mp (Finset.mem_filter.mp hk).1
      rw [List.getD_eq_getElem?_getD, List.getElem?_eq_getElem hlt] at hj
      exact Or.inr ⟨_, ⟨List.getElem_mem hlt, (mem_mandatoryOf h k hlt).mp hk⟩, hj⟩
    · exact Or.inl hj
    · obtain ⟨hn, hN⟩ := Finset.mem_Ico.mp hj
      rcases h.cover j hN with hp | hflat
      · exact Or.inl hp
      · rw [hgroup, List.append_nil, List.mem_flatten] at hflat
        obtain ⟨g, hg, hjg⟩ := hflat
        exact Or.inr ⟨g, ⟨hg, List.any_eq_true.mpr ⟨j, hjg, decide_eq_true hn⟩⟩, hjg⟩
  · rintro (hj | ⟨g, ⟨hg, hm⟩, hj⟩)
    · exact Or.inr (Or.inl hj)
    · obtain ⟨k, hk, rfl⟩ := List.getElem_of_mem hg
      refine Or.inl ⟨k, (mem_mandatoryOf h k hk).mpr hm, ?_⟩
      rw [List.getD_eq_getElem?_getD, List.getElem?_eq_getElem hk]
      exact hj

theorem card_mandatoryOf (h : s.Partition N) :
    (mandatoryOf s.groups (s.protected_ ∪ Finset.Ico x.n N)).card =
      (s.groups.filter x.isMandatory).length := by
  have hcount : ∀ k ≤ s.groups.length,
      ((Finset.range k).filter fun j => x.isMandatory (s.groups.getD j []) = true).card =
        ((s.groups.take k).filter x.isMandatory).length := by
    intro k
    induction k with
    | zero => exact fun _ => rfl
    | succ k ih =>
      intro hk
      have hget : s.groups.getD k [] = s.groups[k] := by
        rw [List.getD_eq_getElem?_getD, List.getElem?_eq_getElem hk]
        rfl
      rw [List.take_succ_eq_append_getElem hk, List.filter_append, List.length_append,
        ← ih (Nat.le_of_succ_le hk), Finset.range_add_one, Finset.filter_insert, hget]
      by_cases hm : x.isMandatory s.groups[k] = true
      · rw [if_pos hm, Finset.card_insert_of_notMem (by simp)]
        simp [hm]
      · rw [if_neg hm]
        simp [hm]
  have hall := hcount s.groups.length (Nat.le_refl _)
  rw [List.take_length] at hall
  rw [← hall]
  congr 1
  ext k
  rw [Finset.mem_filter, Finset.mem_range]
  constructor
  · intro hk
    have hlt : k < s.groups.length := Finset.mem_range.mp (Finset.mem_filter.mp hk).1
    rw [List.getD_eq_getElem?_getD, List.getElem?_eq_getElem hlt]
    exact ⟨hlt, (mem_mandatoryOf h k hlt).mp hk⟩
  · rintro ⟨hlt, hm⟩
    rw [List.getD_eq_getElem?_getD, List.getElem?_eq_getElem hlt] at hm
    exact (mem_mandatoryOf h k hlt).mpr hm

theorem requiredSet_bound (h : s.Partition N) : ∀ j ∈ x.requiredSet s, j < N := by
  intro j hj
  rcases Finset.mem_union.mp hj with hj | hj
  · exact h.protectedBound j hj
  · rw [List.mem_toFinset, List.mem_flatten] at hj
    obtain ⟨g, hg, hjg⟩ := hj
    exact h.bound j
      (List.mem_append_left _ (List.mem_flatten.mpr ⟨g, (List.mem_filter.mp hg).1, hjg⟩))

/-- A kept suffix is made of optional groups: no repeated index, none required. -/
theorem kept_disjoint (h : s.Partition N) {kept : List (List Nat)}
    (hkept : kept <:+ x.optionalGroups s) :
    kept.flatten.Nodup ∧ Disjoint (x.requiredSet s) kept.flatten.toFinset ∧
      ∀ j ∈ kept.flatten, j < N := by
  have hsub : kept.Sublist s.groups := hkept.sublist.trans List.filter_sublist
  have hflat : kept.flatten.Sublist (s.groups.flatten ++ s.group) :=
    hsub.flatten.trans (List.sublist_append_left _ _)
  refine ⟨h.nodup.sublist hflat, ?_, fun j hj => h.bound j (hflat.subset hj)⟩
  rw [Finset.disjoint_left]
  intro j hj hk
  rw [List.mem_toFinset] at hk
  rcases Finset.mem_union.mp hj with hj | hj
  · exact h.disjoint j hj (hflat.subset hk)
  · -- the same index in a mandatory and in an optional group is one group twice
    rw [List.mem_toFinset, List.mem_flatten] at hj
    rw [List.mem_flatten] at hk
    obtain ⟨g, hg, hjg⟩ := hj
    obtain ⟨g', hg', hjg'⟩ := hk
    obtain ⟨hgmem, hgm⟩ := List.mem_filter.mp hg
    obtain ⟨hgmem', hgm'⟩ := List.mem_filter.mp (hkept.subset hg')
    obtain ⟨a, ha, rfl⟩ := List.getElem_of_mem hgmem
    obtain ⟨b, hb, rfl⟩ := List.getElem_of_mem hgmem'
    have hpair := List.pairwise_iff_getElem.mp
      (List.nodup_flatten.mp (List.nodup_append.mp h.nodup).1).2
    rcases Nat.lt_trichotomy a b with hlt | rfl | hlt
    · exact hpair a b ha hb hlt hjg hjg'
    · rw [hgm] at hgm'
      exact absurd hgm' Bool.false_ne_true
    · exact hpair b a hb ha hlt hjg' hjg

end Finish

-- ---------------------------------------------------------------------------
-- The two results
-- ---------------------------------------------------------------------------

/-- `sorted(selected)` against `entries.sort(key=…)`. -/
theorem sortEntries_eq (x : Input) {l : List Nat} (h : l.Nodup) :
    sortEntries (l.map x.entry) = (l.toFinset.sort (· ≤ ·)).map x.entry := by
  have hmap : (l.mergeSort fun a b => a ≤ b).map x.entry = sortEntries (l.map x.entry) :=
    List.map_mergeSort fun _ _ _ _ => rfl
  have hperm : (l.mergeSort fun a b => a ≤ b).Perm l := List.mergeSort_perm l _
  have hsorted : (l.mergeSort fun a b => a ≤ b).Pairwise (· ≤ ·) := by
    have hpair : (l.mergeSort fun a b => a ≤ b).Pairwise fun a b => decide (a ≤ b) = true :=
      List.pairwise_mergeSort
      (fun a b c hab hbc => by simp only [decide_eq_true_eq] at *; omega)
      (fun a b => by simp only [Bool.or_eq_true, decide_eq_true_eq]; omega) l
    exact hpair.imp of_decide_eq_true
  rw [← hmap, ← (List.toFinset_sort (· ≤ ·) (hperm.nodup_iff.mpr h)).mpr hsorted,
    List.toFinset_eq_of_perm _ _ hperm]

/-- The retained entries are the indices kept, in the order of arrival. -/
theorem optional_entries {x : Input} {base : Nat} {kept : List (List Nat)}
    (h : kept ≠ [] → fits x.budget (base + total (total x.cost) kept) = true) :
    (kept.map x.payload).flatMap HistoryGroup.entries = kept.flatten.map x.entry := by
  have hfits : ∀ g ∈ kept, fits x.budget (total x.cost g) = true := by
    intro g hg
    refine fits_mono ?_ (h (List.ne_nil_of_mem hg))
    have hle : total x.cost g ≤ total (total x.cost) kept :=
      List.single_le_sum (fun _ _ => Nat.zero_le _) _ (List.mem_map_of_mem hg)
    omega
  clear h
  induction kept with
  | nil => rfl
  | cons g rest ih =>
    have hentries : (x.payload g).entries = g.map x.entry :=
      if_pos (hfits g List.mem_cons_self)
    rw [List.map_cons, List.flatMap_cons, List.flatten_cons, List.map_append, hentries,
      ih fun g' hg' => hfits g' (List.mem_cons_of_mem g hg')]

/-- The history messages that are not selected. -/
theorem card_omitted (x : Input) (selected : Finset Nat) :
    ((Finset.range x.n).filter (· ∉ selected)).card + ∑ j ∈ selected, x.hist j = x.n := by
  have hsum : ∑ j ∈ selected, x.hist j = ((Finset.range x.n).filter (· ∈ selected)).card := by
    rw [Finset.card_filter]
    simp only [Input.hist]
    rw [← Finset.sum_filter, ← Finset.sum_filter]
    refine Finset.sum_congr ?_ fun _ _ => rfl
    ext j
    simp [and_comm]
  rw [hsum, Nat.add_comm, Finset.card_filter_add_card_filter_not, Finset.card_range]

/-- The cost of the retained optional groups. -/
theorem total_payload_cost (x : Input) (kept : List (List Nat)) :
    total HistoryGroup.cost (kept.map x.payload) = total (total x.cost) kept :=
  total_map HistoryGroup.cost x.payload kept

theorem total_flatten (f : Nat → Nat) (kept : List (List Nat)) :
    total f kept.flatten = total (total f) kept := by
  induction kept with
  | nil => rfl
  | cons g rest ih => rw [List.flatten_cons, total_append, total_cons, ih]

/-- What `finish` returns and what `select` returns when the required part fits. -/
theorem finish_fits {x : Input} {s : Scan} {t : StreamingSelection} {messages : List Message}
    {f : Fill} {kept : List (List Nat)}
    (h : Sim x messages.length s t) (hn : x.n ≤ messages.length)
    (hmessage : ∀ k (hk : k < messages.length), x.message k = messages[k])
    (hfits : fits x.budget (x.requiredCost s) = true)
    (hkept : kept = keepSuffix (fits x.budget) (total x.cost) (x.requiredCost s)
      (x.optionalGroups s))
    (hselected : f.selected = x.requiredSet s ∪ kept.flatten.toFinset)
    (hbytes : f.selectedBytes = bytesOf (x.requiredCost s + total (total x.cost) kept))
    (hchosen : f.chosen.card = (s.groups.filter x.isMandatory).length + kept.length) :
    ({  messages := (sortEntries
          (t.required ++ t.optional.flatMap HistoryGroup.entries)).map Prod.snd
        inputBytes := bytesOf t.totalCost
        selectedBytes := bytesOf (t.requiredCost + t.optionalCost)
        historyMessages := t.historyCount
        requestMessages := t.currentCount
        omittedHistoryMessages := (t.historyCount : Int) - t.requiredHistory -
          (t.optional.map HistoryGroup.historyCount).sum
        omittedHistoryGroups := (t.groups : Int) - t.mandatoryGroups - t.optional.length } :
      ContextSelection) =
    { messages := (f.selected.sort (· ≤ ·)).filterMap fun index => messages[index]?
      inputBytes := byteCount s.sizes (Finset.range messages.length)
      selectedBytes := f.selectedBytes
      historyMessages := x.n
      requestMessages := messages.length - x.n
      omittedHistoryMessages := ((Finset.range x.n).filter (· ∉ f.selected)).card
      omittedHistoryGroups := (s.groups.length : Int) - f.chosen.card } := by
  have hret := h.retained
  have hoptional : t.optional = kept.map x.payload := by rw [hret.optional, hkept]
  obtain ⟨hnodup, hdisj, hbound⟩ :=
    kept_disjoint h.partition (hkept ▸ keepSuffix_suffix _ _ _ _)
  obtain ⟨r, hr, hrset, hrequired⟩ := hret.required hfits
  congr 1
  · -- the messages: one list of distinct indices, sorted on both sides
    have hentries : t.optional.flatMap HistoryGroup.entries = kept.flatten.map x.entry := by
      rw [hoptional]
      exact optional_entries fun hne => by
        rw [hkept] at hne ⊢
        exact keepSuffix_fits hne
    have hall : (r ++ kept.flatten).Nodup := by
      rw [List.nodup_append]
      refine ⟨hr, hnodup, fun a ha b hb hab => ?_⟩
      rw [← List.mem_toFinset, hrset] at ha
      exact Finset.disjoint_left.mp hdisj ha (List.mem_toFinset.mpr (hab ▸ hb))
    have hset : (r ++ kept.flatten).toFinset = f.selected := by
      rw [List.toFinset_append, hrset, hselected]
    rw [hentries, hrequired, ← List.map_append, sortEntries_eq x hall, hset, List.map_map]
    have hlookup : ∀ j ∈ f.selected.sort (· ≤ ·), messages[j]? = some (x.message j) := by
      intro j hj
      rw [Finset.mem_sort, hselected, Finset.mem_union, List.mem_toFinset] at hj
      have hlt : j < messages.length := hj.elim (requiredSet_bound h.partition j) (hbound j)
      rw [List.getElem?_eq_getElem hlt, hmessage j hlt]
    rw [List.filterMap_congr hlookup]
    simp [Function.comp_def, Input.entry]
  · -- the numbers beside them
    rw [h.totalCost]
    exact (byteCount_eq h.sizes fun j hj => Finset.mem_range.mp hj).symm
  · rw [hbytes, hret.requiredCost, hret.optionalCost, hoptional, total_payload_cost]
  · rw [h.historyCount]
    exact Nat.min_eq_right hn
  · exact h.currentCount
  · -- what is left out is counted by subtraction in the stream
    have hsum : ∑ j ∈ f.selected, x.hist j =
        t.requiredHistory + (t.optional.map HistoryGroup.historyCount).sum := by
      rw [hselected, Finset.sum_union hdisj, List.sum_toFinset x.hist hnodup, hret.requiredHistory,
        hoptional, List.map_map]
      exact congrArg _ (total_flatten x.hist kept)
    have homitted := card_omitted x f.selected
    rw [hsum] at homitted
    rw [h.historyCount, Nat.min_eq_right hn]
    omega
  · rw [h.groups, h.mandatoryGroups, hchosen, hoptional, List.length_map]
    omega

/-- The two ends agree once the open group is closed on both sides. -/
theorem finish_closed {x : Input} {s : Scan} {t : StreamingSelection} {messages : List Message}
    (h : Sim x messages.length s t) (hn : x.n ≤ messages.length) (hgroup : s.group = [])
    (hpending : s.pending = ∅)
    (hmessage : ∀ k (hk : k < messages.length), x.message k = messages[k]) :
    t.finish = s.select x.budget x.n messages := by
  have hret := h.retained
  have hcount : t.group.count = 0 := by
    rw [h.group, hgroup]
    rfl
  have hbytes : byteCount s.sizes (x.requiredSet s) = bytesOf (x.requiredCost s) :=
    byteCount_eq h.sizes (requiredSet_bound h.partition)
  rw [StreamingSelection.finish, h.failure, h.pending, closeGroup_empty hcount, Scan.select]
  simp only [hpending, hgroup, ne_eq, not_true_eq_false, if_false, hret.overflow,
    selected_eq_requiredSet h.partition hgroup, hbytes]
  by_cases hfits : fits x.budget (x.requiredCost s) = true
  · have hle : ¬ x.budget < bytesOf (x.requiredCost s) := by
      rw [fits, decide_eq_true_eq] at hfits
      omega
    rw [if_neg hle, hfits]
    have hfillable : Fillable messages.length s.groups :=
      ⟨h.partition.nonempty, fun g hg j hj => h.partition.bound j
        (List.mem_append_left _ (List.mem_flatten.mpr ⟨g, hg, hj⟩))⟩
    have hempty : x.requiredSet s = ∅ ↔ x.requiredCost s = 0 := by
      rw [Input.requiredCost, Finset.sum_eq_zero_iff, Finset.eq_empty_iff_forall_notMem]
      exact forall_congr' fun j => ⟨fun hno hj => absurd hj hno,
        fun hzero hj => Nat.succ_ne_zero _ (hzero hj)⟩
    obtain ⟨kept, hkept, hselected, hbytes', hchosen⟩ := fill_eq h.sizes hfillable
      (mem_mandatoryOf h.partition) s.groups.length (Nat.le_refl _) hempty
      (fun _ hj => Or.inl hj)
    rw [List.take_length] at hkept
    rw [card_mandatoryOf h.partition] at hchosen
    exact congrArg Except.ok
      (finish_fits h hn hmessage hfits hkept hselected hbytes' hchosen)
  · have hlt : x.budget < bytesOf (x.requiredCost s) := by
      rw [fits, decide_eq_true_eq] at hfits
      omega
    rw [Bool.not_eq_true] at hfits
    rw [if_pos hlt, hfits]
    rfl

theorem finish_eq {x : Input} {s : Scan} {t : StreamingSelection} {messages : List Message}
    (h : Sim x messages.length s t) (hn : x.n ≤ messages.length)
    (hmessage : ∀ k (hk : k < messages.length), x.message k = messages[k]) :
    t.finish = s.select x.budget x.n messages := by
  by_cases hpending : s.pending = ∅
  · by_cases hgroup : s.group = []
    · exact finish_closed h hn hgroup hpending hmessage
    · have hclosed := closeGroup_sim h hgroup
      have hselect : s.select x.budget x.n messages = s.closed.select x.budget x.n messages := by
        simp only [Scan.select, Scan.closed, ne_eq, hgroup, not_false_eq_true, if_true,
          not_true_eq_false, if_false]
      have hfinish : t.finish = t.closeGroup.finish := by
        have hcount : t.closeGroup.group.count = 0 := by
          rw [hclosed.group]
          rfl
        rw [StreamingSelection.finish, StreamingSelection.finish, closeGroup_empty hcount,
          h.failure, hclosed.failure, h.pending, hclosed.pending]
        rfl
      rw [hselect, hfinish]
      exact finish_closed hclosed hn rfl hpending hmessage
  · rw [StreamingSelection.finish, h.failure, h.pending, Scan.select]
    simp only [ne_eq, hpending, not_false_eq_true, if_true]

/-- The fixed data of one selection. -/
def Input.of (window : ContextWindow) (encode : Encoder) (n : Nat) (messages : List Message) :
    Input where
  budget := window.maxBytes
  n := n
  message j := messages.getD j default
  size j :=
    match encode (messages.getD j default) with
    | .ok bytes => bytes.length
    | .error _ => 0

theorem Input.of_message {window : ContextWindow} {encode : Encoder} {n : Nat}
    {messages : List Message} (k : Nat) (hk : k < messages.length) :
    (Input.of window encode n messages).message k = messages[k] :=
  (List.getElem_eq_getD default).symm

theorem Input.of_size {window : ContextWindow} {encode : Encoder} {n : Nat}
    {messages : List Message} (k : Nat) (hk : k < messages.length) (bytes : List UInt8)
    (h : encode messages[k] = .ok bytes) :
    (Input.of window encode n messages).size k = bytes.length := by
  have hget : messages.getD k default = messages[k] := (List.getElem_eq_getD default).symm
  simp only [Input.of, hget, h]

/-- Whatever the encoder, the incremental selector returns what the materialized one returns, and
raises what it raises. Both passes of the stream keep `Sim`, and at their end the selected entries
are the required ones and the suffix that `fill_eq` finds. -/
theorem selectStream_eq_select (window : ContextWindow) (encode : Encoder)
    (history current : List Message) :
    window.selectStream encode history current = window.select encode history current := by
  obtain ⟨messages, hmessages⟩ : ∃ messages, messages = history ++ current := ⟨_, rfl⟩
  obtain ⟨x, hx⟩ : ∃ x, x = Input.of window encode history.length messages := ⟨_, rfl⟩
  have hbudget : x.budget = window.maxBytes := by rw [hx]; rfl
  have hxn : x.n = history.length := by rw [hx]; rfl
  have hlookup : ∀ k (hk : k < messages.length), x.message k = messages[k] := by
    rw [hx]
    exact Input.of_message
  have hsize : ∀ k (hk : k < messages.length) bytes, encode messages[k] = .ok bytes →
      x.size k = bytes.length := by
    rw [hx]
    exact Input.of_size
  have hhistory : ∀ k (hk : k < history.length),
      ∃ hk' : k < messages.length, messages[k] = history[k] := by
    intro k hk
    refine ⟨by rw [hmessages, List.length_append]; omega, ?_⟩
    simp only [hmessages]
    exact List.getElem_append_left hk
  have hcurrent : ∀ k (hk : k < current.length),
      ∃ hk' : history.length + k < messages.length,
        messages[history.length + k] = current[k] := by
    intro k hk
    refine ⟨by rw [hmessages, List.length_append]; omega, ?_⟩
    simp only [hmessages]
    rw [List.getElem_append_right (by omega)]
    congr 1
    omega
  -- the pass over the history
  have hfirst := @loop_sim x encode false history _ _ _
    (start_sim x (by rw [hbudget]; exact window.valid))
    (fun k hk => by
      obtain ⟨hk', heq⟩ := hhistory k hk
      rw [Nat.zero_add, hlookup k hk', heq])
    (fun k hk bytes hbytes => by
      obtain ⟨hk', heq⟩ := hhistory k hk
      rw [Nat.zero_add]
      exact hsize k hk' bytes (heq ▸ hbytes))
    (fun k hk => by
      rw [Nat.zero_add, hxn, eq_comm, decide_eq_false_iff_not]
      omega)
  rw [hbudget, hxn, Nat.zero_add] at hfirst
  rw [ContextWindow.selectStream, ContextWindow.select]
  simp only [loop_append, Nat.zero_add]
  cases hpass : Scan.start.loop encode history.length 0 history with
  | error e =>
    rw [hpass] at hfirst
    simp only
    rcases hfirst with hfirst | ⟨t, hfirst, hfailure⟩
    · rw [hfirst]
    · rw [hfirst]
      simp only [addAll_failed current hfailure, StreamingSelection.finish, hfailure]
  | ok s =>
    rw [hpass] at hfirst
    obtain ⟨t, hadd, hsim⟩ := hfirst
    -- the pass over the request
    have hsecond := @loop_sim x encode true current _ _ _ hsim
      (fun k hk => by
        obtain ⟨hk', heq⟩ := hcurrent k hk
        rw [hlookup _ hk', heq])
      (fun k hk bytes hbytes => by
        obtain ⟨hk', heq⟩ := hcurrent k hk
        exact hsize _ hk' bytes (heq ▸ hbytes))
      (fun k hk => by
        rw [hxn, eq_comm, decide_eq_true_iff]
        omega)
    rw [hxn] at hsecond
    simp only [hadd]
    cases hrest : s.loop encode history.length history.length current with
    | error e =>
      rw [hrest] at hsecond
      simp only
      rcases hsecond with hsecond | ⟨u, hsecond, hfailure⟩
      · rw [hsecond]
      · rw [hsecond]
        simp only [StreamingSelection.finish, hfailure]
    | ok s' =>
      rw [hrest] at hsecond
      obtain ⟨u, hsecond, hsim'⟩ := hsecond
      simp only [hsecond]
      rw [← hbudget, ← hxn, ← hmessages]
      have hlength : history.length + current.length = messages.length := by
        rw [hmessages, List.length_append]
      rw [hlength] at hsim'
      -- both passes have gone through, and what is selected is compared
      exact finish_eq hsim' (by rw [hxn, ← hlength]; exact Nat.le_add_right _ _) hlookup

end AgentRuntimeKit
