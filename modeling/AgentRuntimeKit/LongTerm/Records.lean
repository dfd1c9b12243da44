import AgentRuntimeKit.Model.Documents
import AgentRuntimeKit.Store.Tables
import Mathlib.Data.List.Sort
import Mathlib.Order.Lattice

/-!
# Long-term memory

The `memory_records` table and the calls of `PostgresMemoryStore` (`memory/postgres.py`) on it.
Each call is one statement in a transaction of its own.

The values and tags of a record are Python values that nothing checks before they are written to
JSONB columns. `JsonColumn` is such a column: `store v` is what is read after `v` has been written,
or what the statement raises where `json.dumps` or the server refuses it. All results are for every
column that keeps plain JSON; the rest is the column's own. A tuple comes back as a list, `NaN`, a
NUL character and a lone surrogate are refused, and a float from `1e16` on comes back as an integer,
because the server prints numbers without exponents.

* `Key` is the type of memory keys in the order of the column's collation, and `contains` is
  PostgreSQL's `@>`.
* What a call reads elsewhere is an argument: `now` is `datetime.now(UTC)`, `id` is `uuid4()`, and
  `serverNow` is the server's default `now()`.
-/

namespace AgentRuntimeKit

open Lib

-- ---------------------------------------------------------------------------
-- JSONB columns
-- ---------------------------------------------------------------------------

namespace Lib.PyValue

/-- A string of a JSONB document: no surrogate, and no NUL character. -/
def isPlainText (s : PyStr) : Bool := s.encodable && s.all fun c => c.val ≠ 0

def isPlainKey : PyKey → Bool
  | .str s => isPlainText s
  | _ => true

mutual
/-- Strings that a JSONB document may hold, and numbers that it writes as Python does: integers
that `json.dumps` converts, and finite floats that it prints without an exponent. -/
def isPlain : PyValue → Bool
  | none | bool _ => true
  | int i => intPrintable i
  | float f => f.point ≤ 16
  | nonFinite _ => false
  | str s => isPlainText s
  | list xs | tuple xs => isPlainList xs
  | dict kvs => isPlainDict kvs
def isPlainList : List PyValue → Bool
  | [] => true
  | x :: xs => x.isPlain && isPlainList xs
def isPlainDict : List (PyKey × PyValue) → Bool
  | [] => true
  | (k, v) :: kvs => isPlainKey k && v.isPlain && isPlainDict kvs
end

end Lib.PyValue

/-- A JSONB column, with the serializer in front of it. -/
structure JsonColumn where
  /-- What is read after the value has been written. -/
  store : PyValue → Except Exn PyValue
  /-- How deeply the serializer and the server recur. -/
  maxDepth : Nat
  /-- Plain JSON is read back as an equal value. -/
  keeps : ∀ v, v.isJson = true → v.isPlain = true → v.depth ≤ maxDepth →
    ∃ v', store v = .ok v' ∧ v'.eq v = true

/-- The column keeps the value. -/
structure JsonColumn.Plain (column : JsonColumn) (v : PyValue) : Prop where
  json : v.isJson = true
  plain : v.isPlain = true
  depth : v.depth ≤ column.maxDepth

theorem JsonColumn.Plain.stored {column : JsonColumn} {v : PyValue} (h : column.Plain v) :
    ∃ v', column.store v = .ok v' ∧ v'.eq v = true :=
  column.keeps v h.json h.plain h.depth

namespace LongTerm

variable {Key : Type}

/-- The columns of `uq_memory_records_identity`. -/
@[ext]
structure Identity (Key : Type) where
  namespace_ : String
  userKey : String
  memoryKey : Key
deriving DecidableEq

/-- A row of `memory_records`. `_memory_model` copies every column. -/
structure MemoryRow (Key : Type) where
  id : Uuid
  identity : Identity Key
  value : PyValue
  tags : PyValue
  expiresAt : Option Time
  createdAt : Time
  updatedAt : Time

/-- `MemoryRecord`. -/
abbrev MemoryRecord := MemoryRow

/-- `expires_at IS NULL OR expires_at > now`. -/
def MemoryRow.unexpired (now : Time) (row : MemoryRow Key) : Bool :=
  row.expiresAt.all (now < ·)

/-- `DO UPDATE SET`, with the values of the row that met `row`. -/
def MemoryRow.replace (row excluded : MemoryRow Key) (now : Time) : MemoryRow Key :=
  { row with
    value := excluded.value
    tags := excluded.tags
    expiresAt := excluded.expiresAt
    updatedAt := now }

section Upsert

variable [DecidableEq Key]

/-- `INSERT … ON CONFLICT … DO UPDATE … RETURNING`. -/
def upsert (row : MemoryRow Key) (now : Time) :
    List (MemoryRow Key) → MemoryRow Key × List (MemoryRow Key)
  | [] => (row, [row])
  | r :: rest =>
    if r.identity = row.identity then (r.replace row now, r.replace row now :: rest)
    else ((upsert row now rest).1, r :: (upsert row now rest).2)

theorem mem_upsert_identity {row r : MemoryRow Key} {now : Time}
    {rows : List (MemoryRow Key)} (h : r ∈ (upsert row now rows).2) :
    r.identity = row.identity ∨ r.identity ∈ rows.map MemoryRow.identity := by
  induction rows with
  | nil =>
    rw [List.mem_singleton.mp h]
    exact .inl rfl
  | cons r' rest ih =>
    rw [upsert] at h
    split at h
    · next hsame =>
      rcases List.mem_cons.mp h with rfl | hmem
      · exact .inl hsame
      · exact .inr (List.mem_cons_of_mem _ (List.mem_map_of_mem hmem))
    · rcases List.mem_cons.mp h with rfl | hmem
      · exact .inr List.mem_cons_self
      · exact (ih hmem).imp_right (List.mem_cons_of_mem _)

/-- `uq_memory_records_identity` holds after an upsert. -/
theorem upsert_unique (row : MemoryRow Key) (now : Time)
    {rows : List (MemoryRow Key)} (h : (rows.map MemoryRow.identity).Nodup) :
    ((upsert row now rows).2.map MemoryRow.identity).Nodup := by
  induction rows with
  | nil => exact List.nodup_singleton _
  | cons r rest ih =>
    obtain ⟨hnot, hrest⟩ := List.nodup_cons.mp h
    rw [upsert]
    split
    · exact List.nodup_cons.mpr ⟨hnot, hrest⟩
    · next hother =>
      refine List.nodup_cons.mpr ⟨fun hmem => ?_, ih hrest⟩
      obtain ⟨r', hr', hsame⟩ := List.mem_map.mp hmem
      rcases mem_upsert_identity hr' with hrow | hold
      · exact hother (hsame.symm.trans hrow)
      · exact hnot (hsame ▸ hold)

end Upsert

/-- The table, with its unique constraint. -/
structure MemoryTable (Key : Type) where
  rows : List (MemoryRow Key)
  unique : (rows.map MemoryRow.identity).Nodup

namespace MemoryTable

theorem unique_nil : (([] : List (MemoryRow Key)).map MemoryRow.identity).Nodup :=
  List.nodup_nil

def empty : MemoryTable Key := ⟨[], unique_nil⟩

theorem unique_filter (t : MemoryTable Key) (p : MemoryRow Key → Bool) :
    ((t.rows.filter p).map MemoryRow.identity).Nodup :=
  (List.filter_sublist.map MemoryRow.identity).nodup t.unique

/-- Keep the rows that satisfy `p`. -/
def keep (t : MemoryTable Key) (p : MemoryRow Key → Bool) : MemoryTable Key :=
  ⟨t.rows.filter p, unique_filter t p⟩

variable [LinearOrder Key]

-- ---------------------------------------------------------------------------
-- `_put`, `_get`
-- ---------------------------------------------------------------------------

/-- The documents of the two columns; `tags or {}` is written. -/
def documents (column : JsonColumn) (value : PyValue) (tags : Option Metadata) :
    Except Exn (PyValue × PyValue) := do
  let value' ← column.store value
  let tags' ← column.store (tags.getD []).dict
  return (value', tags')

/-- The row that a put inserts, or that excludes another one. -/
def insertedRow (id : Uuid) (serverNow : Time) (identity : Identity Key)
    (written : PyValue × PyValue) (expiresAt : Option Time) : MemoryRow Key :=
  ⟨id, identity, written.1, written.2, expiresAt, serverNow, serverNow⟩

/-- `_put`. Where a column refuses its value, the statement raises and nothing is written. -/
def put (column : JsonColumn) (t : MemoryTable Key) (now : Time) (id : Uuid) (serverNow : Time)
    (identity : Identity Key) (value : PyValue) (tags : Option Metadata)
    (expiresAt : Option Time) : Except Exn (MemoryTable Key × MemoryRecord Key) :=
  match documents column value tags with
  | .error e => .error e
  | .ok written =>
    let row := insertedRow id serverNow identity written expiresAt
    .ok (⟨(upsert row now t.rows).2, upsert_unique row now t.unique⟩, (upsert row now t.rows).1)

/-- `_get`. -/
def get (t : MemoryTable Key) (now : Time) (identity : Identity Key) :
    Except Exn (Option (MemoryRecord Key)) :=
  scalarOneOrNone (t.rows.filter fun row => row.identity = identity && row.unexpired now)

-- ---------------------------------------------------------------------------
-- `search`
-- ---------------------------------------------------------------------------

/-- `MemoryPage`. -/
structure MemoryPage (Key : Type) where
  items : List (MemoryRecord Key)
  nextOffset : Option Int

/-- The document that the tags must contain. The condition is left out where no tags are asked
for, and the statement raises where they cannot be written. -/
def askedTags (column : JsonColumn) : Option Metadata → Except Exn (Option PyValue)
  | none | some [] => .ok none
  | some (t :: ts) => (column.store (Metadata.dict (t :: ts))).map some

def tagged (contains : PyValue → PyValue → Bool) (asked : Option PyValue) (stored : PyValue) :
    Bool :=
  asked.all (contains stored)

/-- The rows of `SELECT … WHERE … ORDER BY memory_key`. -/
def select (t : MemoryTable Key) (contains : PyValue → PyValue → Bool) (now : Time)
    (namespace_ userKey : String) (asked : Option PyValue) : List (MemoryRow Key) :=
  (t.rows.filter fun row =>
      row.identity.namespace_ = namespace_ && row.identity.userKey = userKey &&
        row.unexpired now && tagged contains asked row.tags).insertionSort
    fun a b => a.identity.memoryKey ≤ b.identity.memoryKey

/-- What `search` makes of the rows that it selects: one more than the limit is read, to see
whether there is another page. -/
def pageOf {α : Type} (rows : List α) (limit offset : Int) : List α × Option Int :=
  let read := (rows.drop offset.toNat).take (limit.toNat + 1)
  (read.take limit.toNat, if limit.toNat < read.length then some (offset + limit) else none)

/-- `search`. -/
def search (column : JsonColumn) (t : MemoryTable Key) (contains : PyValue → PyValue → Bool)
    (now : Time) (namespace_ userKey : String) (tags : Option Metadata) (limit offset : Int) :
    Except Exn (MemoryPage Key) :=
  if ¬(1 ≤ limit ∧ limit ≤ 100) then
    .error (.py .valueError "limit must be between 1 and 100")
  else if offset < 0 then .error (.py .valueError "offset must not be negative")
  else
    match askedTags column tags with
    | .error e => .error e
    | .ok asked =>
      let page := pageOf (t.select contains now namespace_ userKey asked) limit offset
      .ok ⟨page.1, page.2⟩

-- ---------------------------------------------------------------------------
-- `delete`, `cleanup_expired`
-- ---------------------------------------------------------------------------

/-- `delete`. -/
def delete (t : MemoryTable Key) (identity : Identity Key) :
    MemoryTable Key × Bool :=
  (t.keep fun row => row.identity ≠ identity,
    (t.rows.filter fun row => row.identity = identity).length ≠ 0)

/-- The condition of `cleanup_expired`; an expiry that is `NULL` satisfies no comparison. -/
def removes (cutoff : Time) (namespace_ : Option String) (row : MemoryRow Key) : Bool :=
  row.expiresAt.any (· ≤ cutoff) && namespace_.all (row.identity.namespace_ = ·)

/-- `cleanup_expired`. -/
def cleanupExpired (t : MemoryTable Key) (now : Time) (before : Option Time)
    (namespace_ : Option String) : MemoryTable Key × Nat :=
  let cutoff := before.getD now
  (t.keep fun row => !removes cutoff namespace_ row,
    (t.rows.filter (removes cutoff namespace_)).length)

end MemoryTable

end LongTerm

end AgentRuntimeKit
