import AgentRuntimeKit.Lib.ExpiringMap
import AgentRuntimeKit.LongTerm.Records

/-!
# The table as an expiring map

A sequence of calls is run on the table, each with the clock reading it makes. `MemoryTable.map` is
the expiring map that a table holds. A put is a write of the two documents to it, or nothing where
a column refuses its value; a delete is a write of nothing, and a cleanup forgets what is dead. So
from the last reading on the table reads like the replay of the writes alone (`run_agree`): one
step agrees with its write for every reader who comes after it (`step_agree`), and the run is the
induction over the calls.

* `get_seen`, `mem_select_seen`, `select_ordered` — the reads, in terms of the map.
* `search_congr`, `get_congr` — tables that read the same answer the same.
-/

namespace AgentRuntimeKit.LongTerm

open Lib

variable {Key : Type}

/-- What a put writes: the documents of its value and of its tags, until they expire. -/
abbrev Stored := Expiring (PyValue × PyValue) Time

/-- A call, with what it reads elsewhere. -/
inductive Call (Key : Type)
  | put (now : Time) (id : Uuid) (serverNow : Time) (identity : Identity Key) (value : PyValue)
      (tags : Option Metadata) (expiresAt : Option Time)
  | get (now : Time) (identity : Identity Key)
  | search (now : Time) (namespace_ userKey : String) (tags : Option Metadata)
      (limit offset : Int)
  | delete (identity : Identity Key)
  /-- With the default cutoff. -/
  | cleanupExpired (now : Time) (namespace_ : Option String)

/-- What a call returns or raises. -/
inductive Reply (Key : Type)
  | record (r : Except Exn (MemoryRecord Key))
  | found (r : Except Exn (Option (MemoryRecord Key)))
  | page (r : Except Exn (MemoryTable.MemoryPage Key))
  | deleted (existed : Bool)
  | removed (count : Nat)

/-- What a read is compared in: whose record it is, its value, its tags and its expiry. -/
def MemoryRow.seen (row : MemoryRow Key) : Identity Key × Stored :=
  (row.identity, ⟨(row.value, row.tags), row.expiresAt⟩)

/-- What a get or a search shows. -/
inductive Answer (Key : Type)
  | found (r : Except Exn (Option (Identity Key × Stored)))
  | page (r : Except Exn (List (Identity Key × Stored) × Option Int))

def Reply.answer : Reply Key → Option (Answer Key)
  | .found r => some (.found (r.map (Option.map MemoryRow.seen)))
  | .page r => some (.page (r.map fun p => (p.items.map MemoryRow.seen, p.nextOffset)))
  | _ => none

namespace Call

def reading : Call Key → Option Time
  | put now .. | get now _ | search now .. | cleanupExpired now _ => some now
  | delete _ => none

/-- The write of a call. A put that raises writes nothing. -/
def write? (column : JsonColumn) : Call Key → Option (Identity Key × Option Stored)
  | put _ _ _ identity value tags expiresAt =>
    (MemoryTable.documents column value tags).toOption.map fun written =>
      (identity, some ⟨written, expiresAt⟩)
  | delete identity => some (identity, none)
  | _ => none

/-- What the caller of a put or a delete writes, before any column has seen it. -/
def given? : Call Key → Option (Identity Key × Option Stored)
  | put _ _ _ identity value tags expiresAt =>
    some (identity, some ⟨(value, (tags.getD []).dict), expiresAt⟩)
  | delete identity => some (identity, none)
  | _ => none

def isCleanup : Call Key → Bool
  | cleanupExpired .. => true
  | _ => false

variable [LinearOrder Key]

def step (column : JsonColumn) (contains : PyValue → PyValue → Bool) (t : MemoryTable Key) :
    Call Key → MemoryTable Key × Reply Key
  | put now id serverNow identity value tags expiresAt =>
    match t.put column now id serverNow identity value tags expiresAt with
    | .ok (t', record) => (t', .record (.ok record))
    | .error e => (t, .record (.error e))
  | get now identity => (t, .found (t.get now identity))
  | search now namespace_ userKey tags limit offset =>
    (t, .page (t.search column contains now namespace_ userKey tags limit offset))
  | delete identity =>
    let (t', existed) := t.delete identity
    (t', .deleted existed)
  | cleanupExpired now namespace_ =>
    let (t', count) := t.cleanupExpired now none namespace_
    (t', .removed count)

end Call

section Runs

variable [LinearOrder Key] (column : JsonColumn) (contains : PyValue → PyValue → Bool)

/-- The table after the calls. -/
def run (t : MemoryTable Key) (calls : List (Call Key)) : MemoryTable Key :=
  calls.foldl (fun t call => (call.step column contains t).1) t

/-- The answers of the gets and searches among the calls, in order. -/
def answers (t : MemoryTable Key) : List (Call Key) → List (Answer Key)
  | [] => []
  | call :: rest =>
    (call.step column contains t).2.answer.toList ++ answers (call.step column contains t).1 rest

end Runs

def readings (calls : List (Call Key)) : List Time := calls.filterMap Call.reading

def writes (column : JsonColumn) (calls : List (Call Key)) :
    List (Identity Key × Option Stored) :=
  calls.filterMap (Call.write? column)

/-- The puts and deletes, as their callers gave them. -/
def given (calls : List (Call Key)) : List (Identity Key × Option Stored) :=
  calls.filterMap Call.given?

-- ---------------------------------------------------------------------------
-- The map of a table
-- ---------------------------------------------------------------------------

variable [LinearOrder Key] {column : JsonColumn} {contains : PyValue → PyValue → Bool}
  {t t' : MemoryTable Key}
  {now : Time} {k : Identity Key} {e : Stored}

namespace MemoryTable

def map (t : MemoryTable Key) : ExpiringMap (Identity Key) (PyValue × PyValue) Time := fun k =>
  (t.rows.find? fun row => row.identity = k).map fun row => row.seen.2

omit [LinearOrder Key] in
/-- No identity has two rows. -/
theorem eq_of_identity {a b : MemoryRow Key} (ha : a ∈ t.rows) (hb : b ∈ t.rows)
    (h : a.identity = b.identity) : a = b :=
  List.inj_on_of_nodup_map t.unique ha hb h

theorem map_eq_some : t.map k = some e ↔ ∃ row ∈ t.rows, row.seen = (k, e) := by
  constructor
  · intro h
    obtain ⟨row, hfound, rfl⟩ := Option.map_eq_some_iff.mp h
    have hk : row.identity = k := by simpa using List.find?_some hfound
    exact ⟨row, List.mem_of_find?_eq_some hfound, by rw [← hk]; rfl⟩
  · rintro ⟨row, hrow, hseen⟩
    obtain ⟨rfl, rfl⟩ := Prod.mk.inj hseen
    cases hfound : t.rows.find? (fun r => r.identity = row.identity) with
    | none => exact absurd (List.find?_eq_none.mp hfound row hrow) (by simp)
    | some r =>
      have hsame : r.identity = row.identity := by simpa using List.find?_some hfound
      rw [map, hfound, eq_of_identity (List.mem_of_find?_eq_some hfound) hrow hsame]
      rfl

/-- A read sees a row if it has not expired. -/
theorem read_eq_some :
    t.map.read now k = some e ↔ ∃ row ∈ t.rows, row.seen = (k, e) ∧ row.unexpired now := by
  rw [ExpiringMap.read_eq_some, map_eq_some]
  constructor
  · rintro ⟨⟨row, hrow, hseen⟩, hlive⟩
    obtain ⟨rfl, rfl⟩ := Prod.mk.inj hseen
    exact ⟨row, hrow, rfl, hlive⟩
  · rintro ⟨row, hrow, hseen, hlive⟩
    obtain ⟨rfl, rfl⟩ := Prod.mk.inj hseen
    exact ⟨⟨row, hrow, rfl⟩, hlive⟩

-- ---------------------------------------------------------------------------
-- Writes and cleanups
-- ---------------------------------------------------------------------------

end MemoryTable

/-- An upsert shows under its own identity, and leaves the others as they are. -/
theorem find_upsert (row : MemoryRow Key) (now : Time) (rows : List (MemoryRow Key))
    (k : Identity Key) :
    ((upsert row now rows).2.find? fun r => r.identity = k).map (fun r => r.seen.2) =
      if k = row.identity then some row.seen.2
      else (rows.find? fun r => r.identity = k).map fun r => r.seen.2 := by
  induction rows with
  | nil =>
    rw [upsert, List.find?_singleton]
    by_cases hk : row.identity = k
    · simp [hk]
    · simp [hk, Ne.symm hk]
  | cons r rest ih =>
    rw [upsert]
    by_cases hsame : r.identity = row.identity
    · have hreplaced : (r.replace row now).identity = row.identity := hsame
      rw [if_pos hsame]
      by_cases hk : row.identity = k
      · rw [List.find?_cons_of_pos (by simp [hreplaced, hk]), if_pos hk.symm]
        rfl
      · rw [List.find?_cons_of_neg (by simp [hreplaced, hk]), if_neg (Ne.symm hk),
          List.find?_cons_of_neg (by simp [hsame, hk])]
    · rw [if_neg hsame]
      by_cases hr : r.identity = k
      · have hk : k ≠ row.identity := fun h => hsame (hr.trans h)
        rw [List.find?_cons_of_pos (by simp [hr]), if_neg hk, List.find?_cons_of_pos (by simp [hr])]
      · rw [List.find?_cons_of_neg (by simp [hr]), ih, List.find?_cons_of_neg (by simp [hr])]

namespace MemoryTable

theorem map_put (t : MemoryTable Key) (now : Time) (id : Uuid) (serverNow : Time)
    (identity : Identity Key) (written : PyValue × PyValue) (expiresAt : Option Time)
    (unique : ((upsert (insertedRow id serverNow identity written expiresAt) now t.rows).2.map
      MemoryRow.identity).Nodup) :
    (MemoryTable.mk _ unique).map = t.map.write (identity, some ⟨written, expiresAt⟩) := by
  funext k
  rw [ExpiringMap.write, Function.update_apply]
  exact find_upsert _ _ _ _

theorem map_keep (p : MemoryRow Key → Bool) :
    (t.keep p).map k = some e ↔ ∃ row ∈ t.rows, row.seen = (k, e) ∧ p row := by
  rw [map_eq_some]
  constructor
  · rintro ⟨row, hrow, hseen⟩
    exact ⟨row, (List.mem_filter.mp hrow).1, hseen, (List.mem_filter.mp hrow).2⟩
  · rintro ⟨row, hrow, hseen, hp⟩
    exact ⟨row, List.mem_filter.mpr ⟨hrow, hp⟩, hseen⟩

theorem map_delete (t : MemoryTable Key) (identity : Identity Key) :
    (t.delete identity).1.map = t.map.write (identity, none) := by
  funext k
  rw [Option.ext_iff]
  intro e
  rw [delete, map_keep, ExpiringMap.write, Function.update_apply]
  split
  · next hk =>
    refine iff_of_false ?_ (by simp)
    rintro ⟨row, -, hseen, hp⟩
    have hidentity : row.identity = k := congrArg Prod.fst hseen
    simp [hidentity, hk] at hp
  · next hk =>
    rw [map_eq_some]
    constructor
    · rintro ⟨row, hrow, hseen, -⟩
      exact ⟨row, hrow, hseen⟩
    · rintro ⟨row, hrow, hseen⟩
      have hidentity : row.identity = k := congrArg Prod.fst hseen
      exact ⟨row, hrow, hseen, by simp [hidentity, hk]⟩

omit [LinearOrder Key] in
/-- What a cleanup removes is what the reads hide. -/
theorem not_removes {row : MemoryRow Key} {namespace_ : Option String} :
    (!removes now namespace_ row) =
      (row.unexpired now || !namespace_.all (row.identity.namespace_ = ·)) := by
  rw [removes, Bool.not_and, MemoryRow.unexpired]
  cases row.expiresAt with
  | none => rfl
  | some expiry =>
    have hcomplement : (!decide (expiry ≤ now)) = decide (now < expiry) := by
      rw [← decide_not, decide_eq_decide]
      exact Nat.not_le
    simp only [Option.any_some, Option.all_some, hcomplement]

theorem map_cleanupExpired (t : MemoryTable Key) (now : Time)
    (namespace_ : Option String) :
    (t.cleanupExpired now none namespace_).1.map =
      t.map.sweep now fun k => namespace_.all (k.namespace_ = ·) := by
  funext k
  rw [Option.ext_iff]
  intro e
  rw [cleanupExpired, map_keep, ExpiringMap.sweep]
  split
  · next hk =>
    rw [read_eq_some]
    refine exists_congr fun row => and_congr_right fun _ => and_congr_right fun hseen => ?_
    have hidentity : row.identity = k := congrArg Prod.fst hseen
    rw [Option.getD_none, not_removes, hidentity, hk, Bool.not_true, Bool.or_false]
  · next hk =>
    rw [map_eq_some]
    constructor
    · rintro ⟨row, hrow, hseen, -⟩
      exact ⟨row, hrow, hseen⟩
    · rintro ⟨row, hrow, hseen⟩
      have hidentity : row.identity = k := congrArg Prod.fst hseen
      exact ⟨row, hrow, hseen, by simp [not_removes, hidentity, hk]⟩

-- ---------------------------------------------------------------------------
-- `_get`
-- ---------------------------------------------------------------------------

theorem get_seen (t : MemoryTable Key) (now : Time) (k : Identity Key) :
    (t.get now k).map (Option.map MemoryRow.seen) =
      .ok ((t.map.read now k).map fun e => (k, e)) := by
  have hmem : ∀ row, row ∈ t.rows.filter (fun row => row.identity = k && row.unexpired now) ↔
      row ∈ t.rows ∧ row.identity = k ∧ row.unexpired now := by
    intro row
    simp [List.mem_filter]
  have hunique := t.unique_filter fun row => row.identity = k && row.unexpired now
  rw [get]
  rcases hrows : t.rows.filter (fun row => row.identity = k && row.unexpired now) with
    _ | ⟨row, _ | ⟨row', rest⟩⟩
  · have hnone : t.map.read now k = none := by
      rw [Option.eq_none_iff_forall_ne_some]
      intro e he
      obtain ⟨row, hrow, hseen, hlive⟩ := read_eq_some.mp he
      have hin := (hmem row).mpr ⟨hrow, congrArg Prod.fst hseen, hlive⟩
      rw [hrows] at hin
      exact List.not_mem_nil hin
    rw [hnone, hrows]
    rfl
  · obtain ⟨hrow, rfl, hlive⟩ := (hmem row).mp (by rw [hrows]; exact List.mem_cons_self)
    rw [hrows, read_eq_some.mpr ⟨row, hrow, rfl, hlive⟩]
    rfl
  · have hsame : row.identity = row'.identity := by
      have hrow := (hmem row).mp (by rw [hrows]; exact List.mem_cons_self)
      have hrow' := (hmem row').mp (by
        rw [hrows]
        exact List.mem_cons_of_mem _ List.mem_cons_self)
      exact hrow.2.1.trans hrow'.2.1.symm
    rw [hrows, List.map_cons, List.map_cons, hsame] at hunique
    exact absurd List.mem_cons_self (List.nodup_cons.mp hunique).1

-- ---------------------------------------------------------------------------
-- `search`
-- ---------------------------------------------------------------------------

variable {namespace_ userKey : String} {tags : Option Metadata} {asked : Option PyValue}

/-- A search is about the live values of a user whose tags match. -/
def Sought (contains : PyValue → PyValue → Bool) (namespace_ userKey : String)
    (asked : Option PyValue) (s : Identity Key × Stored) : Prop :=
  s.1.namespace_ = namespace_ ∧ s.1.userKey = userKey ∧ tagged contains asked s.2.value.2

theorem mem_select_seen {s : Identity Key × Stored} :
    s ∈ (t.select contains now namespace_ userKey asked).map MemoryRow.seen ↔
      Sought contains namespace_ userKey asked s ∧ t.map.read now s.1 = some s.2 := by
  rw [read_eq_some, List.mem_map]
  simp only [select, List.mem_insertionSort, List.mem_filter, Bool.and_eq_true, decide_eq_true_eq]
  constructor
  · rintro ⟨row, ⟨hrow, ⟨⟨hnamespace, huser⟩, hlive⟩, htags⟩, rfl⟩
    exact ⟨⟨hnamespace, huser, htags⟩, row, hrow, rfl, hlive⟩
  · rintro ⟨⟨hnamespace, huser, htags⟩, row, hrow, hseen, hlive⟩
    obtain rfl : row.seen = s := hseen
    exact ⟨row, ⟨hrow, ⟨⟨hnamespace, huser⟩, hlive⟩, htags⟩, rfl⟩

/-- The rows of a search come in the order of their keys, none of them twice. -/
theorem select_ordered :
    ((t.select contains now namespace_ userKey asked).map MemoryRow.seen).Pairwise
      fun a b => a.1.memoryKey < b.1.memoryKey := by
  rw [List.pairwise_map]
  have hle := List.pairwise_insertionSort (fun a b : MemoryRow Key =>
      a.identity.memoryKey ≤ b.identity.memoryKey) (t.rows.filter fun row =>
      row.identity.namespace_ = namespace_ && row.identity.userKey = userKey &&
        row.unexpired now && tagged contains asked row.tags)
  have hne : (t.select contains now namespace_ userKey asked).Pairwise
      fun a b => a.identity ≠ b.identity := by
    have hperm := List.perm_insertionSort (fun a b : MemoryRow Key =>
      a.identity.memoryKey ≤ b.identity.memoryKey) (t.rows.filter fun row =>
      row.identity.namespace_ = namespace_ && row.identity.userKey = userKey &&
        row.unexpired now && tagged contains asked row.tags)
    exact List.pairwise_map.mp ((hperm.map MemoryRow.identity).nodup_iff.mpr (t.unique_filter _))
  refine (List.Pairwise.and hle hne).imp_of_mem fun ha hb h => lt_of_le_of_ne h.1 fun hkey => ?_
  have hsought : ∀ {row}, row ∈ t.select contains now namespace_ userKey asked →
      row.identity.namespace_ = namespace_ ∧ row.identity.userKey = userKey := by
    intro row hrow
    have hseen := (mem_select_seen.mp (List.mem_map_of_mem hrow)).1
    exact ⟨hseen.1, hseen.2.1⟩
  obtain ⟨hna, hua⟩ := hsought ha
  obtain ⟨hnb, hub⟩ := hsought hb
  exact h.2 (Identity.ext (hna.trans hnb.symm) (hua.trans hub.symm) hkey)

/-- Tables that read the same show the same in a search. -/
theorem select_congr (h : t.map.read now = t'.map.read now) :
    (t.select contains now namespace_ userKey asked).map MemoryRow.seen =
      (t'.select contains now namespace_ userKey asked).map MemoryRow.seen := by
  refine List.Pairwise.eq_of_mem_iff (r := fun a b => a.1.memoryKey < b.1.memoryKey)
    select_ordered select_ordered fun s => ?_
  rw [mem_select_seen, mem_select_seen, h]

omit [LinearOrder Key] in
theorem pageOf_map {α β : Type} (f : α → β) (rows : List α) (limit offset : Int) :
    pageOf (rows.map f) limit offset =
      ((pageOf rows limit offset).1.map f, (pageOf rows limit offset).2) := by
  simp only [pageOf, List.map_take, List.map_drop, List.length_take, List.length_drop,
    List.length_map]

/-- What a search shows, from what its rows show. -/
theorem search_seen (limit offset : Int) :
    (t.search column contains now namespace_ userKey tags limit offset).map
        (fun p => (p.items.map MemoryRow.seen, p.nextOffset)) =
      if ¬(1 ≤ limit ∧ limit ≤ 100) then
        .error (.py .valueError "limit must be between 1 and 100")
      else if offset < 0 then .error (.py .valueError "offset must not be negative")
      else (askedTags column tags).map fun asked =>
        pageOf ((t.select contains now namespace_ userKey asked).map MemoryRow.seen) limit
          offset := by
  rw [search]
  split
  · rfl
  split
  · rfl
  · cases askedTags column tags with
    | error e => rfl
    | ok asked =>
      simp only [Except.map, pageOf_map]

end MemoryTable

-- ---------------------------------------------------------------------------
-- Calls and their sequences
-- ---------------------------------------------------------------------------

open ExpiringMap

variable {calls : List (Call Key)} {call : Call Key}
  {m : ExpiringMap (Identity Key) (PyValue × PyValue) Time}

/-- What a call does to the map, for whoever reads after it. -/
theorem step_agree (h : AgreeFrom now t.map m) (hreading : ∀ r ∈ call.reading, r ≤ now) :
    AgreeFrom now (call.step column contains t).1.map (m.write? (call.write? column)) := by
  cases call with
  | put now' id serverNow identity value tags expiresAt =>
    rw [Call.step, Call.write?, MemoryTable.put]
    cases MemoryTable.documents column value tags with
    | error e => exact h
    | ok written =>
      show AgreeFrom now (MemoryTable.mk _ _).map (m.write (identity, some ⟨written, expiresAt⟩))
      rw [MemoryTable.map_put]
      exact h.write _
  | get => exact h
  | search => exact h
  | delete identity =>
    show AgreeFrom now (t.delete identity).1.map _
    rw [MemoryTable.map_delete]
    exact h.write _
  | cleanupExpired now' namespace_ =>
    show AgreeFrom now (t.cleanupExpired now' none namespace_).1.map _
    rw [MemoryTable.map_cleanupExpired]
    exact ((agreeFrom_sweep _ _ _).mono (hreading now' rfl)).trans h

/-- **The table refines the map.** From its last reading on, it reads as its writes left it. -/
theorem run_agree (hreadings : ∀ r ∈ readings calls, r ≤ now) :
    AgreeFrom now (run column contains MemoryTable.empty calls).map
      (replay (writes column calls)) := by
  induction calls using List.reverseRecOn with
  | nil => exact AgreeFrom.refl _ _
  | append_singleton calls call ih =>
    have hbefore : ∀ r ∈ readings calls, r ≤ now := fun r hr => hreadings r (by
      rw [readings, List.filterMap_append]
      exact List.mem_append_left _ hr)
    have hlast : ∀ r ∈ call.reading, r ≤ now := fun r hr => hreadings r
      (List.mem_filterMap.mpr ⟨call, List.mem_append_right _ List.mem_cons_self, hr⟩)
    have hwrites : replay (writes column (calls ++ [call])) =
        (replay (writes column calls)).write? (call.write? column) := by
      rw [writes, List.filterMap_append, List.filterMap_cons]
      cases call.write? column with
      | none => exact congrArg replay (List.append_nil _)
      | some w => exact replay_snoc _ _
    rw [hwrites, run, List.foldl_append]
    exact step_agree (ih hbefore) hlast

/-- Tables that read the same answer the same. -/
theorem answer_congr (h : ∀ r ∈ call.reading, t.map.read r = t'.map.read r) :
    (call.step column contains t).2.answer = (call.step column contains t').2.answer := by
  cases call with
  | put now id serverNow identity value tags expiresAt =>
    rw [Call.step, Call.step, MemoryTable.put, MemoryTable.put]
    cases MemoryTable.documents column value tags <;> rfl
  | get now identity =>
    show some (Answer.found _) = some (Answer.found _)
    rw [MemoryTable.get_seen, MemoryTable.get_seen, h now rfl]
  | search now namespace_ userKey tags limit offset =>
    show some (Answer.page _) = some (Answer.page _)
    rw [MemoryTable.search_seen, MemoryTable.search_seen]
    simp only [MemoryTable.select_congr (h now rfl)]
  | delete => rfl
  | cleanupExpired => rfl

omit [LinearOrder Key] in
theorem write?_of_isCleanup (h : call.isCleanup) : call.write? column = none := by
  cases call with
  | cleanupExpired => rfl
  | _ => cases h

theorem answer_of_isCleanup (h : call.isCleanup) :
    (call.step column contains t).2.answer = none := by
  cases call with
  | cleanupExpired => rfl
  | _ => cases h

/-- Cleanups are not seen: tables that agree from a time on give the same answers to calls that
come later, with cleanups on one side and none on the other. -/
theorem answers_agree (hagree : AgreeFrom now t.map t'.map)
    (hreadings : (now :: readings calls).Pairwise (· ≤ ·)) :
    answers column contains t calls =
      answers column contains t' (calls.filter fun call => !call.isCleanup) := by
  induction calls generalizing now t t' with
  | nil => rfl
  | cons call rest ih =>
    obtain ⟨later, hle, hreading, hrest⟩ : ∃ later, now ≤ later ∧
        (∀ r ∈ call.reading, later = r) ∧ (later :: readings rest).Pairwise (· ≤ ·) := by
      rw [readings, List.filterMap_cons] at hreadings
      cases hr : call.reading with
      | none =>
        rw [hr] at hreadings
        exact ⟨now, le_refl _, by simp, hreadings⟩
      | some r =>
        rw [hr] at hreadings
        obtain ⟨hnow, hrest⟩ := List.pairwise_cons.mp hreadings
        exact ⟨r, hnow r List.mem_cons_self, by simp, hrest⟩
    have hlater := hagree.mono hle
    have hanswer : (call.step column contains t).2.answer =
        (call.step column contains t').2.answer :=
      answer_congr fun r hr => hlater r (le_of_eq (hreading r hr))
    have hstep : AgreeFrom later (call.step column contains t).1.map
        (t'.map.write? (call.write? column)) :=
      step_agree hlater fun r hr => le_of_eq (hreading r hr).symm
    cases hcleanup : call.isCleanup with
    | true =>
      rw [write?_of_isCleanup hcleanup] at hstep
      rw [answers, answer_of_isCleanup hcleanup, List.filter_cons_of_neg (by simp [hcleanup])]
      exact ih hstep hrest
    | false =>
      have hstep' : AgreeFrom later (call.step column contains t').1.map
          (t'.map.write? (call.write? column)) :=
        step_agree (AgreeFrom.refl _ _) fun r hr => le_of_eq (hreading r hr).symm
      rw [List.filter_cons_of_pos (by simp [hcleanup]), answers, answers, hanswer,
        ih (hstep.trans hstep'.symm) hrest]

end AgentRuntimeKit.LongTerm
