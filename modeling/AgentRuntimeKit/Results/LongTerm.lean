import AgentRuntimeKit.LongTerm.Refinement

/-!
# Long-term memory is an expiring map

For every sequence of calls whose clock readings do not decrease, a get returns what the JSONB
columns made of the last put under its key that did not raise, as long as that lives; the pages of a
search add up to the live values it asks for, and cleanups are not seen. What is plain JSON comes
back equal to what was put. A tuple among the tags does not.

The column is any column that keeps plain JSON (`JsonColumn.keeps`), and `contains` any containment
of tags: neither the order of the keys of an object nor what the server does with values that are
not JSON plays a part. The clock is read once by each call, and readings may repeat; the reading of
the last get is not before any of them.

The table is related to the replay of its writes by `run_agree`, so a read is a read of that replay
(`AgreeFrom.read_iff`). Pages are read from one selection, whose rows come in the strict order of
their keys; following `next_offset` takes prefixes off it until nothing is left (`pages_iff`). For
the cleanups, both sequences are compared with the one that has none (`answers_agree`).

## Results

* `pages_iff`     — the pages that `next_offset` leads through are the rest of the selected rows.
* `expiring_map`  — gets, searches and cleanups in every sequence of calls.
* `Sample.tupled_tags` — tags that come back as others than were put.
-/

namespace AgentRuntimeKit.LongTerm

open Lib MemoryTable

section Reads

variable {Key : Type} [LinearOrder Key] {column : JsonColumn}
  {contains : PyValue → PyValue → Bool} {t : MemoryTable Key} {now : Time}
  {namespace_ userKey : String} {tags : Option Metadata} {asked : Option PyValue}

/-- A search within its bounds. -/
theorem search_ok (hasked : askedTags column tags = .ok asked) {limit : Int}
    (hlimit : 1 ≤ limit ∧ limit ≤ 100) (n : Nat) :
    t.search column contains now namespace_ userKey tags limit n =
      let rest := (t.select contains now namespace_ userKey asked).drop n
      .ok ⟨rest.take limit.toNat,
        if limit.toNat < rest.length then some ((n + limit.toNat : Nat) : Int) else none⟩ := by
  have hoffset : ¬((n : Int) < 0) := by omega
  have hnext : (n : Int) + limit = ((n + limit.toNat : Nat) : Int) := by omega
  have hmin : min limit.toNat (limit.toNat + 1) = limit.toNat := by omega
  have hmore : ∀ m, limit.toNat < min (limit.toNat + 1) m ↔ limit.toNat < m := by
    intro m
    omega
  rw [search, if_neg (not_not.mpr hlimit), if_neg hoffset, hasked]
  simp only [pageOf, hnext, Int.toNat_natCast, List.take_take, hmin, List.length_take, hmore]

/-- The records of the pages from an offset on, with `limits i` as the limit of the `i`-th page. -/
inductive Pages (search : Int → Int → Except Exn (MemoryPage Key)) (limits : Nat → Int) :
    Nat → Int → List (MemoryRecord Key) → Prop
  | last {i : Nat} {offset : Int} {page : MemoryPage Key} :
    search (limits i) offset = .ok page → page.nextOffset = none →
    Pages search limits i offset page.items
  | more {i : Nat} {offset next : Int} {page : MemoryPage Key}
      {rest : List (MemoryRecord Key)} :
    search (limits i) offset = .ok page → page.nextOffset = some next →
    Pages search limits (i + 1) next rest → Pages search limits i offset (page.items ++ rest)

variable {limits : Nat → Int} {out : List (MemoryRecord Key)}

theorem eq_of_pages (hasked : askedTags column tags = .ok asked)
    (hlimits : ∀ i, 1 ≤ limits i ∧ limits i ≤ 100) {i : Nat} {offset : Int}
    (h : Pages (t.search column contains now namespace_ userKey tags) limits i offset out) (n : Nat)
    (hn : offset = n) : out = (t.select contains now namespace_ userKey asked).drop n := by
  induction h generalizing n with
  | @last i offset page hpage hnone =>
    rw [hn, search_ok hasked (hlimits i)] at hpage
    obtain rfl := Except.ok.inj hpage
    have hall : ¬(limits i).toNat <
        ((t.select contains now namespace_ userKey asked).drop n).length := by
      intro hlt
      dsimp only at hnone
      rw [if_pos hlt] at hnone
      exact absurd hnone (Option.some_ne_none _)
    exact List.take_of_length_le (Nat.not_lt.mp hall)
  | @more i offset next page rest hpage hsome _ ih =>
    rw [hn, search_ok hasked (hlimits i)] at hpage
    obtain rfl := Except.ok.inj hpage
    have hnext : ((n + (limits i).toNat : Nat) : Int) = next := by
      by_contra hne
      dsimp only at hsome
      split at hsome
      · exact hne (Option.some.inj hsome)
      · exact absurd hsome (by simp)
    rw [ih _ hnext.symm, ← List.drop_drop]
    exact List.take_append_drop _ _

theorem pages_last (hasked : askedTags column tags = .ok asked)
    (hlimits : ∀ i, 1 ≤ limits i ∧ limits i ≤ 100) {i n : Nat}
    (hlast : ((t.select contains now namespace_ userKey asked).drop n).length ≤ (limits i).toNat) :
    Pages (t.search column contains now namespace_ userKey tags) limits i n
      ((t.select contains now namespace_ userKey asked).drop n) := by
  have hsearch : t.search column contains now namespace_ userKey tags (limits i) n = _ :=
    search_ok hasked (hlimits i) n
  have hpage := Pages.last hsearch (if_neg (Nat.not_lt.mpr hlast))
  rwa [List.take_of_length_le hlast] at hpage

theorem pages_of_le (hasked : askedTags column tags = .ok asked)
    (hlimits : ∀ i, 1 ≤ limits i ∧ limits i ≤ 100) (left i n : Nat)
    (hleft : (t.select contains now namespace_ userKey asked).length ≤ n + left) :
    Pages (t.search column contains now namespace_ userKey tags) limits i n
      ((t.select contains now namespace_ userKey asked).drop n) := by
  have hlen : ((t.select contains now namespace_ userKey asked).drop n).length =
      (t.select contains now namespace_ userKey asked).length - n := List.length_drop
  induction left generalizing i n with
  | zero => exact pages_last hasked hlimits (by omega)
  | succ left ih =>
    by_cases hmore : (limits i).toNat <
        ((t.select contains now namespace_ userKey asked).drop n).length
    · have hpositive := (hlimits i).1
      have hrest := ih (i + 1) (n + (limits i).toNat) (by omega) List.length_drop
      have hpage := Pages.more (search_ok hasked (hlimits i) n) (if_pos hmore) hrest
      rwa [← List.drop_drop, List.take_append_drop] at hpage
    · exact pages_last hasked hlimits (Nat.not_lt.mp hmore)

/-- Following `next_offset` reads the rest of the rows, however many at a time. -/
theorem pages_iff (hasked : askedTags column tags = .ok asked)
    (hlimits : ∀ i, 1 ≤ limits i ∧ limits i ≤ 100) (i n : Nat) :
    Pages (t.search column contains now namespace_ userKey tags) limits i n out ↔
      out = (t.select contains now namespace_ userKey asked).drop n := by
  constructor
  · intro h
    exact eq_of_pages hasked hlimits h n rfl
  · rintro rfl
    exact pages_of_le hasked hlimits _ i n (Nat.le_add_left _ _)

end Reads

section Writes

variable {Key : Type} {column : JsonColumn} {calls : List (Call Key)}

/-- What the columns made of a value and its tags. What is plain JSON is read back as an equal
value. -/
structure Kept (column : JsonColumn) (value : PyValue) (tags : Option Metadata)
    (written : PyValue × PyValue) : Prop where
  documents : documents column value tags = .ok written
  value : column.Plain value → written.1.eq value = true
  tags : column.Plain (tags.getD []).dict → written.2.eq (tags.getD []).dict = true

theorem documents_eq_ok {value : PyValue} {tags : Option Metadata} {written : PyValue × PyValue} :
    documents column value tags = .ok written ↔
      column.store value = .ok written.1 ∧ column.store (tags.getD []).dict = .ok written.2 := by
  rw [documents]
  cases column.store value with
  | error e => simp [bind, Except.bind]
  | ok value' =>
    cases column.store (tags.getD []).dict with
    | error e => simp [bind, Except.bind]
    | ok tags' => simp [bind, Except.bind, pure, Except.pure, Prod.ext_iff]

theorem kept_of_documents {value : PyValue} {tags : Option Metadata}
    {written : PyValue × PyValue} (h : documents column value tags = .ok written) :
    Kept column value tags written := by
  obtain ⟨hvalue, htags⟩ := documents_eq_ok.mp h
  refine ⟨h, fun hplain => ?_, fun hplain => ?_⟩
  · obtain ⟨v', hv', heq⟩ := hplain.stored
    rw [hvalue] at hv'
    rwa [Except.ok.inj hv']
  · obtain ⟨v', hv', heq⟩ := hplain.stored
    rw [htags] at hv'
    rwa [Except.ok.inj hv']

/-- Plain JSON is written. -/
theorem exists_kept {value : PyValue} {tags : Option Metadata} (hvalue : column.Plain value)
    (htags : column.Plain (tags.getD []).dict) : ∃ written, Kept column value tags written := by
  obtain ⟨value', hvalue', -⟩ := hvalue.stored
  obtain ⟨tags', htags', -⟩ := htags.stored
  exact ⟨(value', tags'), kept_of_documents (documents_eq_ok.mpr ⟨hvalue', htags'⟩)⟩

/-- `e` is what the last of the calls that write or delete under `k` has written there. -/
inductive LatestPut (column : JsonColumn) (k : Identity Key) (e : Stored) :
    List (Call Key) → Prop
  | intro {before after : List (Call Key)} {reading : Time} {id : Uuid} {serverNow : Time}
      {value : PyValue} {tags : Option Metadata} (kept : Kept column value tags e.value)
      (last : ∀ call ∈ after, ∀ w, call.write? column = some w → w.1 ≠ k) :
      LatestPut column k e
        (before ++ .put reading id serverNow k value tags e.expiresAt :: after)

/-- A write under a key is a put that did not raise. -/
theorem put_of_write {call : Call Key} {k : Identity Key} {e : Stored}
    (h : call.write? column = some (k, some e)) : ∃ reading id serverNow value tags,
      call = .put reading id serverNow k value tags e.expiresAt ∧
        documents column value tags = .ok e.value := by
  cases call with
  | put reading id serverNow identity value tags expiresAt =>
    obtain ⟨written, hwritten, heq⟩ := Option.map_eq_some_iff.mp h
    obtain ⟨rfl, he⟩ := Prod.mk.inj heq
    obtain rfl := Option.some.inj he
    refine ⟨reading, id, serverNow, value, tags, rfl, ?_⟩
    cases hdocuments : documents column value tags with
    | error e =>
      rw [hdocuments] at hwritten
      cases hwritten
    | ok written' =>
      rw [hdocuments] at hwritten
      exact congrArg Except.ok (Option.some.inj hwritten)
  | delete identity => cases h
  | get => cases h
  | search => cases h
  | cleanupExpired => cases h

theorem latest_writes {k : Identity Key} {e : Stored} :
    Bindings.Latest k (some e) (writes column calls) ↔ LatestPut column k e calls := by
  constructor
  · rintro ⟨written, rest, hwrites, hlast⟩
    obtain ⟨before, calls', rfl, -, hcalls'⟩ := List.filterMap_eq_append_iff.mp hwrites
    obtain ⟨silent, call, after, rfl, -, hcall, rfl⟩ := List.filterMap_eq_cons_iff.mp hcalls'
    obtain ⟨reading, id, serverNow, value, tags, rfl, hdocuments⟩ := put_of_write hcall
    rw [← List.append_assoc]
    exact .intro (kept_of_documents hdocuments) fun call hmem w hw =>
      hlast w (List.mem_filterMap.mpr ⟨call, hmem, hw⟩)
  · rintro ⟨kept, last⟩
    have hwrites : ∀ before after reading id serverNow value tags,
        documents column value tags = .ok e.value →
        writes column (before ++ .put reading id serverNow k value tags e.expiresAt :: after) =
          writes column before ++ (k, some e) :: writes column after := by
      intro before after reading id serverNow value tags hdocuments
      have hput : (Call.put reading id serverNow k value tags e.expiresAt).write? column =
          some (k, some e) := by
        rw [Call.write?, hdocuments]
        rfl
      rw [writes, List.filterMap_append, List.filterMap_cons, hput]
      rfl
    refine ⟨_, _, hwrites _ _ _ _ _ _ _ kept.documents, fun w hw => ?_⟩
    obtain ⟨call, hcall, hwrite⟩ := List.mem_filterMap.mp hw
    exact last call hcall w hwrite

end Writes

/-- **Long-term memory is an expiring map, and cleanups are not seen.** `hclock`: the clock is not
set back, neither between the calls nor before the read at `now`. -/
theorem expiring_map {Key : Type} [LinearOrder Key] (column : JsonColumn)
    (contains : PyValue → PyValue → Bool) (calls : List (Call Key)) (now : Time)
    (hclock : (readings calls ++ [now]).Pairwise (· ≤ ·)) :
    -- a get returns the documents of the last put under its key that did not raise, if they live
    -- and were not deleted
    (∀ k, ∃ found, (run column contains empty calls).get now k = .ok found ∧
      ∀ s, found.map MemoryRow.seen = some s ↔
        s.1 = k ∧ LatestPut column k s.2 calls ∧ s.2.live now) ∧
    -- a put of plain JSON does not raise
    (∀ value (tags : Option Metadata), column.Plain value → column.Plain (tags.getD []).dict →
      ∃ written, Kept column value tags written) ∧
    -- the pages of a search come to an end, and are the live values it asks for, in key order
    (∀ namespace_ userKey tags asked limits, askedTags column tags = .ok asked →
      (∀ i, 1 ≤ limits i ∧ limits i ≤ 100) →
      ∃ out, (∀ pages, Pages ((run column contains empty calls).search column contains now
          namespace_ userKey tags) limits 0 0 pages ↔ pages = out) ∧
        (out.map MemoryRow.seen).Pairwise (fun a b => a.1.memoryKey < b.1.memoryKey) ∧
        ∀ s, s ∈ out.map MemoryRow.seen ↔ Sought contains namespace_ userKey asked s ∧
          LatestPut column s.1 s.2 calls ∧ s.2.live now) ∧
    -- calls that differ in their cleanups only show the same
    (∀ calls', (readings calls').Pairwise (· ≤ ·) →
      calls'.filter (fun call => !call.isCleanup) = calls.filter (fun call => !call.isCleanup) →
      answers column contains empty calls' = answers column contains empty calls) := by
  obtain ⟨hcalls, -, hbefore⟩ := List.pairwise_append.mp hclock
  have hagree : ExpiringMap.AgreeFrom now (run column contains empty calls).map
      (ExpiringMap.replay (writes column calls)) :=
    run_agree fun r hr => hbefore r hr now (List.mem_singleton_self now)
  have hread : ∀ k e, (run column contains empty calls).map.read now k = some e ↔
      LatestPut column k e calls ∧ e.live now :=
    fun k e => (hagree.read_iff (le_refl now)).trans (and_congr_left' latest_writes)
  refine ⟨fun k => ?_, fun value tags => exists_kept,
    fun namespace_ userKey tags asked limits hasked hlimits => ?_, fun calls' hcalls' h => ?_⟩
  · have hget := get_seen (run column contains empty calls) now k
    cases hfound : (run column contains empty calls).get now k with
    | error e =>
      rw [hfound] at hget
      cases hget
    | ok found =>
      rw [hfound] at hget
      refine ⟨found, rfl, fun s => ?_⟩
      rw [Except.ok.inj hget, Option.map_eq_some_iff]
      constructor
      · rintro ⟨e, he, rfl⟩
        exact ⟨rfl, (hread k e).mp he⟩
      · rintro ⟨rfl, hlatest⟩
        exact ⟨s.2, (hread s.1 s.2).mpr hlatest, rfl⟩
  · refine ⟨_, fun pages => pages_iff hasked hlimits 0 0, select_ordered, fun s => ?_⟩
    rw [List.drop_zero, mem_select_seen, hread]
  · have hstart : ∀ calls : List (Call Key), (readings calls).Pairwise (· ≤ ·) →
        (0 :: readings calls).Pairwise (· ≤ ·) :=
      fun calls h => List.pairwise_cons.mpr ⟨fun r _ => Nat.zero_le r, h⟩
    rw [answers_agree (ExpiringMap.AgreeFrom.refl 0 _) (hstart calls' hcalls'), h,
      ← answers_agree (ExpiringMap.AgreeFrom.refl 0 _) (hstart calls hcalls)]

open AgentRuntimeKit.Sample (listed tupled)

namespace Sample

/-- A column that refuses what is not plain, and stores the rest in its JSON form. -/
def column : JsonColumn where
  store v := if v.isPlain then .ok v.jsonForm
    else .error (.py .valueError "invalid input syntax for type json")
  maxDepth := 900
  keeps v hjson hplain _ := by
    refine ⟨v, ?_, PyValue.eq_of_isJson v hjson⟩
    rw [if_pos hplain, PyValue.jsonForm_of_isJson v hjson]

/-- Containment of objects whose members are scalars or equal lists. -/
def contains : PyValue → PyValue → Bool
  | .dict stored, .dict asked =>
    asked.all fun kv => stored.any fun kv' => kv.1 = kv'.1 && kv.2.eq kv'.2
  | _, _ => false

def identity (memoryKey : Nat) : Identity Nat := ⟨"tenant", "user", memoryKey⟩

/-- A value that is cleaned up and put again, one that stays, and one that is refused. -/
def calls : List (Call Nat) :=
  [.put 1 1 1 (identity 0) (.int 10) (some [(PyStr.ofString "kind", .int 1)]) (some 5),
    .put 2 2 2 (identity 1) (.list [.int 11]) (some listed) none,
    .cleanupExpired 5 (some "tenant"),
    .put 5 4 5 (identity 1) (.nonFinite .nan) none none,
    .search 6 "tenant" "user" none 1 0,
    .put 7 3 7 (identity 0) (.int 12) none (some 9)]

/-- Tags with a tuple. -/
def tupledCalls : List (Call Nat) := [.put 1 1 1 (identity 0) (.int 10) (some tupled) none]

end Sample

/-- A key that is written again after its value was cleaned up, and expires at the reading; a put
that raises leaves the other value in its place. -/
theorem Sample.expiring_map_calls :
    (∀ k, ∃ found, (run column contains empty calls).get 9 k = .ok found ∧
      ∀ s, found.map MemoryRow.seen = some s ↔
        s.1 = k ∧ LatestPut column k s.2 calls ∧ s.2.live 9) ∧
      (run column contains empty calls).get 9 (identity 0) = .ok none ∧
      ∃ row, (run column contains empty calls).get 9 (identity 1) = .ok (some row) ∧
        row.value = .list [.int 11] ∧ row.tags = listed.dict :=
  ⟨(expiring_map column contains calls 9 (by decide)).1, by rfl, _, by rfl, by rfl, by rfl⟩

/-- **Tags that come back as others.** `{"pair": (1, 2)}` is put, `{"pair": [1, 2]}` returned. -/
theorem Sample.tupled_tags :
    ¬∀ (column : JsonColumn) (calls : List (Call Nat)) (now : Time),
      (readings calls ++ [now]).Pairwise (· ≤ ·) →
        ∀ k found, (run column contains empty calls).get now k = .ok found →
          ∀ s, found.map MemoryRow.seen = some s → ∃ e, Bindings.Latest k (some e) (given calls) ∧
            s.2.value.1.eq e.value.1 = true ∧ s.2.value.2.eq e.value.2 = true ∧
              s.2.expiresAt = e.expiresAt := by
  intro h
  obtain ⟨e, hlatest, -, htags, -⟩ :=
    h column tupledCalls 1 (by decide) (identity 0) _ (by rfl) _ (by rfl)
  have hgiven : (identity 0, some e) ∈
      [(identity 0, some (⟨(.int 10, tupled.dict), none⟩ : Stored))] := hlatest.mem
  obtain rfl := Option.some.inj (Prod.mk.inj (List.mem_singleton.mp hgiven)).2
  exact absurd htags (by decide)

end AgentRuntimeKit.LongTerm
