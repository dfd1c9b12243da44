import AgentRuntimeKit.Feedback.Export
import AgentRuntimeKit.Results.Feedback

/-!
# Exports with a cutoff

The runbook recommends a fixed `created_to` "for repeatable exports while submissions continue".
A row gets the time at which its transaction began, but is seen once that commits. So a row from
before the cutoff may still appear while pages are read. Where it sorts before the offset to read
next, it pushes a row that has been read over the offset, and the next page repeats that row.

An export here is any interleaving of pages with moves of the store, which begins with a page. The
theorems assume:

* `hlimit`  — a page size that the store accepts;
* `hcutoff` — a cutoff that is not in the future. Otherwise rows may match for ever.

They say that every export ends, whatever is committed meanwhile, and that it is exact (`Exact`:
every row that matched at its start, in order, no row twice) iff nothing that matches is committed
before the offset that is read next (`Undisturbed`).

The pages are those of a reader with an offset over a sorted list (`Lib/Paging`): inserting behind
the offset keeps it in step (`InStep`), and inserting before it makes it repeat a row (`Repeats`),
which nothing afterwards repairs. The export ends because the rows that can match are bounded: each
was begun before the cutoff by a submission that has been made already.

## Results

* `Reachable.exportEnds` — every export ends.
* `export_exact_iff`     — an export is exact iff nothing is committed before its offset.
* `export_repeats`       — an export with its cutoff in the past that repeats a row.
-/

namespace AgentRuntimeKit.Feedback

open Lib

/-- The pages are an exact export of these rows. -/
structure Exact (f : Filters) (rows pages : List FeedbackRow) : Prop where
  complete : ∀ row ∈ rows, f.matches row = true → row ∈ pages
  ordered : pages.Pairwise fun a b => a.le b = true
  once : (pages.map FeedbackRow.id).Nodup

/-- Following `next_offset` comes to an end, whatever the store does meanwhile: until it is `None`
the next page can be read, and there are only so many pages. -/
structure Ends (payloadHash : FeedbackSubmission → String) (f : Filters) (limit : Int) (c : Cfg) :
    Prop where
  bounded : ∃ bound, ∀ mvs s, exportRun payloadHash f limit (c, .start) mvs = some s →
    mvs.countP ExportMove.isPage ≤ bound
  goes : ∀ mvs c' e, exportRun payloadHash f limit (c, .start) mvs = some (c', e) → e.next ≠ none →
    (exportStep payloadHash f limit (c', e) .page).isSome = true

section Exports

variable {payloadHash : FeedbackSubmission → String} {f : Filters} {limit : Int} {cutoff : Time}
  {c c' : Cfg} {rows table : List FeedbackRow} {r : Reader FeedbackRow} {mvs : List ExportMove}
  {e : Export}

theorem Reachable.exported (h : Reachable payloadHash c) (hlimit : 1 ≤ limit ∧ limit ≤ 100)
    (hrun : exportRun payloadHash f limit (c, .start) mvs = some (c', e)) :
    ∃ r, e = ofReader r ∧
      if Undisturbed payloadHash f limit (c, .start) mvs then
        r.InStep (f.select c.world.rows) (f.select c'.world.rows)
      else r.Repeats (f.select c'.world.rows) :=
  exportRun_inStep h hlimit (Reader.InStep.start (List.Sublist.refl _)) hrun

/-- A reader that stayed in step has read the matching rows. -/
theorem exact_of_inStep (hr : r.InStep (f.select rows) (f.select table)) (hdone : r.next = none)
    (hids : (table.map FeedbackRow.id).Nodup) : Exact f rows r.out where
  complete _ hrow hmatch := (hr.ended hdone).1.subset (mem_select.mpr ⟨hrow, hmatch⟩)
  ordered := select_sorted.sublist (hr.ended hdone).2
  once := (select_nodup_ids hids).sublist ((hr.ended hdone).2.map _)

theorem Reachable.exportEnds (h : Reachable payloadHash c) (hlimit : 1 ≤ limit ∧ limit ≤ 100)
    (hto : f.createdTo = some cutoff) (hcutoff : cutoff ≤ c.world.clock) :
    Ends payloadHash f limit c := by
  obtain ⟨bound, hbound⟩ := h.select_bounded hto hcutoff
  constructor
  · exact ⟨_, fun mvs s hrun => countP_isPage_le (r := ⟨some 0, []⟩) hlimit hbound hrun⟩
  · intro mvs c' e hrun hnext
    obtain ⟨r, rfl, -⟩ := h.exported hlimit hrun
    cases hn : r.next with
    | none => exact absurd (congrArg (Option.map Int.ofNat) hn) hnext
    | some n =>
      rw [exportStep, page_ofReader hlimit hn]
      rfl

/-- **An export is exact iff nothing is committed before its offset.** The export has a page size
that the store accepts and a cutoff that is not in the future; it begins with a page in a reachable
configuration and goes on until there is no next offset, amid any moves of the store. -/
theorem export_exact_iff (h : Reachable payloadHash c) (hlimit : 1 ≤ limit ∧ limit ≤ 100)
    (hto : f.createdTo = some cutoff) (hcutoff : cutoff ≤ c.world.clock) :
    Ends payloadHash f limit c ∧
      ∀ mvs c' e, exportRun payloadHash f limit (c, .start) (.page :: mvs) = some (c', e) →
        e.next = none →
        (Exact f c.world.rows e.rows ↔
          Undisturbed payloadHash f limit (c, .start) (.page :: mvs)) := by
  refine ⟨h.exportEnds hlimit hto hcutoff, fun mvs c' e hrun hnext => ?_⟩
  obtain ⟨r, rfl, hr⟩ := h.exported hlimit hrun
  have hdone : r.next = none := Option.map_eq_none_iff.mp hnext
  constructor
  · intro hexact
    by_contra hdisturbed
    rw [if_neg hdisturbed] at hr
    exact hr.done hdone (List.Nodup.of_map _ hexact.once)
  · intro hundisturbed
    rw [if_pos hundisturbed] at hr
    have hafter := h.reaches (exportRun_reaches hrun)
    exact exact_of_inStep hr hdone hafter.inv.nodup_ids

end Exports

-- ---------------------------------------------------------------------------
-- Two exports
-- ---------------------------------------------------------------------------

namespace Sample

/-- A submission whose transaction takes its time. -/
def early : FeedbackSubmission :=
  { submission with
    feedbackId := 302
    idempotencyKey := "early" }

def tick (d : Time) : Move Choice Env := .env (.store (.env (.tick d)))

/-- Feedback and its correction are recorded after the other transaction has begun. -/
def beginning : List (Move Choice Env) :=
  .env (.start 3 early) :: ok 3 1 ++ tick 10 :: recording ++ [tick 10]

set_option maxRecDepth 4000 in
def exporting : Cfg := ((machine payloadHash).run opened beginning).get (by decide)

/-- All that is from before time 20. -/
def filters : Filters := ⟨none, none, none, none, none, none, some 20⟩

/-- The other transaction commits after the last page. -/
def undisturbed : List ExportMove := .page :: .page :: (ok 3 4).map .store

/-- The other transaction commits after the first page. -/
def disturbed : List ExportMove := .page :: (ok 3 4).map .store ++ [.page, .page]

theorem reachable_exporting : Reachable payloadHash exporting :=
  reachable_opened.reaches (.of_run (fun _ _ _ => trivial) (Option.some_get _).symm)

set_option maxRecDepth 4000 in
def exact : Cfg × Export :=
  (exportRun payloadHash filters 1 (exporting, .start) undisturbed).get (by decide)

set_option maxRecDepth 4000 in
def repeated : Cfg × Export :=
  (exportRun payloadHash filters 1 (exporting, .start) disturbed).get (by decide)

end Sample

set_option maxRecDepth 4000 in
/-- A late commit after the last page. -/
theorem Sample.export_exact_late :
    Ends payloadHash filters 1 exporting ∧ exact.1.world.rows.map FeedbackRow.id = [300, 301, 302] ∧
      exact.2.rows.map FeedbackRow.id = [300, 301] ∧
      Exact filters exporting.world.rows exact.2.rows := by
  have hlimit : 1 ≤ (1 : Int) ∧ (1 : Int) ≤ 100 := by decide
  obtain ⟨hends, hexact⟩ := export_exact_iff (f := filters) reachable_exporting hlimit rfl
    (by decide)
  have hrun : exportRun payloadHash filters 1 (exporting, .start) undisturbed = some exact :=
    (Option.some_get _).symm
  refine ⟨hends, by decide, by decide, ?_⟩
  exact (hexact (.page :: (ok 3 4).map .store) exact.1 exact.2 hrun (by decide)).mpr (by decide)

set_option maxRecDepth 4000 in
/-- **A late commit between two pages makes an export repeat a row.** -/
theorem export_repeats :
    Reachable Sample.payloadHash Sample.exporting ∧
      Sample.filters.createdTo = some 20 ∧ 20 ≤ Sample.exporting.world.clock ∧
      exportRun Sample.payloadHash Sample.filters 1 (Sample.exporting, .start) Sample.disturbed =
        some Sample.repeated ∧
      Sample.repeated.2.next = none ∧
      Sample.repeated.2.rows.map FeedbackRow.id = [300, 300, 301] ∧
      ¬Exact Sample.filters Sample.exporting.world.rows Sample.repeated.2.rows := by
  refine ⟨Sample.reachable_exporting, rfl, by decide, (Option.some_get _).symm, by decide,
    by decide, fun hexact => ?_⟩
  have honce : (Sample.repeated.2.rows.map FeedbackRow.id).Nodup := hexact.once
  exact absurd honce (by decide)

end AgentRuntimeKit.Feedback
