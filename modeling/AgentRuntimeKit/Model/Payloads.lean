import AgentRuntimeKit.Lib.PyValue
import AgentRuntimeKit.Lib.Trail
import AgentRuntimeKit.Model.Errors
import Mathlib.Data.Fintype.Basic

/-!
# Payload checks

`validate_json_value` of `_json.py`, on a heap of Python objects that may share objects and may be
cyclic. The recursion of `visit` is bounded by the frames the interpreter has left for it.

A payload is lossless JSON (`Lossless`) if it unfolds to a tree of `None`, booleans, strings,
integers, finite floats, lists, and dicts with strings for keys, all of exactly these types. A
container within itself never unfolds; one that is reached twice does.

The main theorem assumes:

* a finite set of objects from which no reference leads out (`hclosed`), the root among them;
* for the second part, more frames than a path without repetition needs (`Within`). There is such a
  bound, as the set is finite. With fewer frames `visit` stops with `nestedPayload`.

`visit` keeps the set of ancestors in one mutable variable. A visit adds its container and removes
it, whatever happens below, so that its caller finds the set as it left it (`visit_memory`). With
that, a visit is a function of the object and of its ancestors. What it accepts unfolds, by
induction on the frames; what unfolds is accepted, by induction on the unfolding, which no ancestor
can be part of.

## Results

* `visit_memory` — a visit leaves the heap and the set of ancestors as it found them.
* `visit_unfolds`, `visit_accepts`, `visit_frames` — what a visit accepts unfolds to JSON; JSON is
  accepted where the frames last; they last where they outnumber the trails without repetition.
* `validateJsonValue_decides` — what is accepted is lossless JSON.
-/

namespace AgentRuntimeKit

open Lib

/-- A Python object; containers hold references. -/
inductive PyObject (α : Type)
  | none
  | bool (b : Bool)
  | int (i : Int)
  | float (f : PyFloat)
  | nonFinite (f : NonFinite)
  | str (s : PyStr)
  | list (items : List α)
  | dict (entries : List (α × α))
  /-- An object of any other type, subclasses of these included. -/
  | other

namespace PyObject

variable {α : Type}

/-- `type(item) is str`. -/
def isStr : PyObject α → Bool
  | str _ => true
  | _ => false

/-- `None`, or a `str`, `bool`, `int` or finite `float` of exactly that type. -/
def isLeaf : PyObject α → Bool
  | none | bool _ | int _ | float _ | str _ => true
  | _ => false

/-- The values a container holds. -/
def children : PyObject α → List α
  | list items => items
  | dict entries => entries.map Prod.snd
  | _ => []

end PyObject

/-- The heap, and the set `ancestors` of a call. -/
structure PyMemory (α : Type) where
  heap : α → PyObject α
  ancestors : Finset α

def notJson : Exn := .py .valueError "Tool payload must contain only finite JSON values"

def cyclicPayload : Exn := .py .valueError "Tool payload must be an acyclic JSON value"

def nonStringKey : Exn := .py .valueError "Tool payload object keys must be strings"

def recursionExceeded : Exn := .py .recursionError "maximum recursion depth exceeded"

def nestedPayload : Exn := .py .valueError "Tool payload exceeds supported nesting"

/-- A computation on the memory that may raise. -/
abbrev PyAction (α : Type) := PyMemory α → Except Exn Unit × PyMemory α

/-- A `for` loop. -/
def forEach {α β : Type} (body : β → PyAction α) : List β → PyAction α
  | [], m => (.ok (), m)
  | x :: xs, m =>
    match body x m with
    | (.ok (), m') => forEach body xs m'
    | (.error e, m') => (.error e, m')

section Visit

variable {α : Type} [DecidableEq α]

/-- The part of `visit` for a container: `ancestors` holds its identity in the `try` block. -/
def inside (item : α) (body : PyAction α) : PyAction α := fun m =>
  if item ∈ m.ancestors then (.error cyclicPayload, m)
  else
    let (r, m') := body { m with ancestors := insert item m.ancestors }
    (r, { m' with ancestors := m'.ancestors.erase item })

/-- One entry of a dictionary. -/
def visitEntry (visit : α → PyAction α) (entry : α × α) : PyAction α := fun m =>
  if (m.heap entry.1).isStr then visit entry.2 m else (.error nonStringKey, m)

/-- `visit`, with some frames left. -/
def visit : Nat → α → PyAction α
  | 0, _, m => (.error recursionExceeded, m)
  | frames + 1, item, m =>
    match m.heap item with
    | .list items => inside item (forEach (visit frames) items) m
    | .dict entries => inside item (forEach (visitEntry (visit frames)) entries) m
    | .nonFinite _ | .other => (.error notJson, m)
    | _ => (.ok (), m)

/-- `validate_json_value`, on the object at a reference. -/
def validateJsonValue (frames : Nat) (heap : α → PyObject α) (value : α) :
    Except Exn α × PyMemory α :=
  match visit frames value ⟨heap, ∅⟩ with
  | (.ok (), m) => (.ok value, m)
  | (.error (.py .recursionError _), m) => (.error nestedPayload, m)
  | (.error e, m) => (.error e, m)

end Visit

-- ---------------------------------------------------------------------------
-- Lossless JSON
-- ---------------------------------------------------------------------------

section Lossless

variable {α : Type} (heap : α → PyObject α)

/-- The object holds the other one. -/
def Holds (x y : α) : Prop := y ∈ (heap x).children

/-- What lossless JSON asks of one object. -/
def IsJsonNode (x : α) : Prop :=
  match heap x with
  | .list _ => True
  | .dict entries => ∀ entry ∈ entries, (heap entry.1).isStr = true
  | object => object.isLeaf = true

/-- Every path from the root is finite, every leaf is of a JSON type, every key is a string. -/
structure Lossless (root : α) : Prop where
  paths : FinitePaths (Holds heap) root
  nodes : ∀ x, Relation.ReflTransGen (Holds heap) root x → IsJsonNode heap x

/-- The same by recursion over what the root holds. -/
inductive Unfolds : α → Prop
  | mk {x : α} : IsJsonNode heap x → (∀ y, Holds heap x y → Unfolds y) → Unfolds x

theorem Unfolds.lossless {root : α} (h : Unfolds heap root) : Lossless heap root := by
  constructor
  · induction h with
    | @mk x _ _ ih =>
      intro path hpath
      by_cases hholds : Holds heap (path 0) (path 1)
      · rw [hpath] at hholds
        obtain ⟨n, hn⟩ := ih (path 1) hholds (fun n => path (n + 1)) rfl
        exact ⟨n + 1, hn⟩
      · exact ⟨0, hholds⟩
  · intro x hreach
    have hx : Unfolds heap x := by
      induction hreach with
      | refl => exact h
      | tail _ hholds ih =>
        cases ih with
        | mk _ hchildren => exact hchildren _ hholds
    cases hx with
    | mk hnode _ => exact hnode

end Lossless

-- ---------------------------------------------------------------------------
-- One visit
-- ---------------------------------------------------------------------------

section ForEach

variable {α β : Type} {body : β → PyAction α}

theorem forEach_memory {xs : List β} {m : PyMemory α} (hbody : ∀ x ∈ xs, (body x m).2 = m) :
    (forEach body xs m).2 = m := by
  induction xs with
  | nil => rfl
  | cons x xs ih =>
    have hx := hbody x List.mem_cons_self
    have hxs := ih fun y hy => hbody y (List.mem_cons_of_mem x hy)
    rw [forEach]
    rcases hr : body x m with ⟨_ | _, m'⟩ <;> rw [hr] at hx <;> simp only at hx ⊢
    · exact hx
    · rw [hx]
      exact hxs

/-- A loop that leaves the memory alone raises what the first failing round raises. -/
theorem forEach_eq_error {xs : List β} {m : PyMemory α} (hbody : ∀ x ∈ xs, (body x m).2 = m)
    {e : Exn} (h : (forEach body xs m).1 = .error e) : ∃ x ∈ xs, (body x m).1 = .error e := by
  induction xs with
  | nil => simp only [forEach, reduceCtorEq] at h
  | cons x xs ih =>
    have hx := hbody x List.mem_cons_self
    rw [forEach] at h
    rcases hr : body x m with ⟨e' | _, m'⟩ <;> rw [hr] at hx h <;> simp only at hx h
    · exact ⟨x, List.mem_cons_self, by rw [hr]; exact h⟩
    · rw [hx] at h
      obtain ⟨y, hy, he⟩ := ih (fun y hy => hbody y (List.mem_cons_of_mem x hy)) h
      exact ⟨y, List.mem_cons_of_mem x hy, he⟩

theorem forEach_eq_ok {xs : List β} {m : PyMemory α} (hbody : ∀ x ∈ xs, (body x m).2 = m)
    (h : (forEach body xs m).1 = .ok ()) : ∀ x ∈ xs, (body x m).1 = .ok () := by
  induction xs with
  | nil => exact fun x hx => absurd hx List.not_mem_nil
  | cons x xs ih =>
    intro y hy
    have hx := hbody x List.mem_cons_self
    rw [forEach] at h
    rcases hr : body x m with ⟨e' | _, m'⟩ <;> rw [hr] at hx h <;> simp only at hx h
    · cases h
    · rw [hx] at h
      rcases List.mem_cons.mp hy with rfl | hy
      · rw [hr]
      · exact ih (fun y hy => hbody y (List.mem_cons_of_mem x hy)) h y hy

theorem visitEntry_memory {visit : α → PyAction α} {entry : α × α} {m : PyMemory α}
    (h : (visit entry.2 m).2 = m) : (visitEntry visit entry m).2 = m := by
  unfold visitEntry
  split
  · exact h
  · rfl

end ForEach

section OneVisit

variable {α : Type} [DecidableEq α]

/-- The memory in which the children of a container are visited. -/
def PyMemory.enter (m : PyMemory α) (item : α) : PyMemory α :=
  { m with ancestors := insert item m.ancestors }

theorem inside_memory {item : α} {body : PyAction α} {m : PyMemory α}
    (hbody : (body (m.enter item)).2 = m.enter item) : (inside item body m).2 = m := by
  unfold inside
  split
  · rfl
  · next hnew =>
    show { (body (m.enter item)).2 with
      ancestors := (body (m.enter item)).2.ancestors.erase item } = m
    rw [hbody, PyMemory.enter, Finset.erase_insert hnew]

theorem inside_result {item : α} {body : PyAction α} {m : PyMemory α} (h : item ∉ m.ancestors) :
    (inside item body m).1 = (body (m.enter item)).1 := by
  rw [inside, if_neg h]
  rfl

theorem inside_of_ancestor {item : α} {body : PyAction α} {m : PyMemory α}
    (h : item ∈ m.ancestors) : (inside item body m).1 = .error cyclicPayload := by
  rw [inside, if_pos h]

/-- A visit leaves the heap and the set of ancestors as it found them. -/
theorem visit_memory (frames : Nat) (item : α) (m : PyMemory α) :
    (visit frames item m).2 = m := by
  induction frames generalizing item m with
  | zero => rfl
  | succ frames ih =>
    unfold visit
    split
    · exact inside_memory (forEach_memory fun x _ => ih x _)
    · exact inside_memory (forEach_memory fun entry _ => visitEntry_memory (ih entry.2 _))
    all_goals rfl

/-- The children of a container are visited with the container among the ancestors. -/
theorem visit_error_cases {frames : Nat} {item : α} {m : PyMemory α} {e : Exn}
    (h : (visit (frames + 1) item m).1 = .error e) :
    e = notJson ∧ ¬IsJsonNode m.heap item ∨
    e = nonStringKey ∧ ¬IsJsonNode m.heap item ∨
    e = cyclicPayload ∧ item ∈ m.ancestors ∨
    item ∉ m.ancestors ∧ ∃ child, Holds m.heap item child ∧
      (visit frames child (m.enter item)).1 = .error e := by
  rw [visit] at h
  rcases hobj : m.heap item with _ | b | i | f | f | s | items | entries | _ <;>
    rw [hobj] at h <;> simp only [reduceCtorEq] at h
  · cases h
    exact .inl ⟨rfl, by simp [IsJsonNode, hobj, PyObject.isLeaf]⟩
  · by_cases hmem : item ∈ m.ancestors
    · rw [inside_of_ancestor hmem] at h
      cases h
      exact .inr (.inr (.inl ⟨rfl, hmem⟩))
    · rw [inside_result hmem] at h
      obtain ⟨child, hchild, he⟩ := forEach_eq_error (fun x _ => visit_memory frames x _) h
      exact .inr (.inr (.inr ⟨hmem, child, by simpa [Holds, hobj, PyObject.children], he⟩))
  · by_cases hmem : item ∈ m.ancestors
    · rw [inside_of_ancestor hmem] at h
      cases h
      exact .inr (.inr (.inl ⟨rfl, hmem⟩))
    · rw [inside_result hmem] at h
      obtain ⟨entry, hentry, he⟩ :=
        forEach_eq_error (fun entry _ => visitEntry_memory (visit_memory frames entry.2 _)) h
      unfold visitEntry at he
      split at he
      · have hholds : Holds m.heap item entry.2 := by
          rw [Holds, hobj]
          exact List.mem_map_of_mem hentry
        exact .inr (.inr (.inr ⟨hmem, entry.2, hholds, he⟩))
      · next hkey =>
        cases he
        refine .inr (.inl ⟨rfl, fun hnode => hkey ?_⟩)
        simp only [IsJsonNode, hobj] at hnode
        exact hnode entry hentry
  · cases h
    exact .inl ⟨rfl, by simp [IsJsonNode, hobj, PyObject.isLeaf]⟩

theorem visit_ok_cases {frames : Nat} {item : α} {m : PyMemory α}
    (h : (visit (frames + 1) item m).1 = .ok ()) :
    IsJsonNode m.heap item ∧ ∀ child, Holds m.heap item child →
      (visit frames child (m.enter item)).1 = .ok () := by
  have hnew (body : PyAction α) (h : (inside item body m).1 = .ok ()) :
      (body (m.enter item)).1 = .ok () := by
    by_cases hmem : item ∈ m.ancestors
    · rw [inside_of_ancestor hmem] at h
      cases h
    · rwa [inside_result hmem] at h
  rw [visit] at h
  rcases hobj : m.heap item with _ | b | i | f | f | s | items | entries | _ <;>
    rw [hobj] at h <;> simp only [reduceCtorEq] at h <;>
    simp only [IsJsonNode, Holds, hobj, PyObject.isLeaf, PyObject.children, List.not_mem_nil,
      false_implies, implies_true, and_self, true_and]
  · exact forEach_eq_ok (fun x _ => visit_memory frames x _) (hnew _ h)
  · have hall := forEach_eq_ok
      (fun entry _ => visitEntry_memory (visit_memory frames entry.2 _)) (hnew _ h)
    refine ⟨fun entry hentry => ?_, fun child hchild => ?_⟩
    · have hentry := hall entry hentry
      unfold visitEntry at hentry
      split at hentry
      · next hkey => exact hkey
      · cases hentry
    · obtain ⟨entry, hmem, rfl⟩ := List.mem_map.mp hchild
      have hentry := hall entry hmem
      unfold visitEntry at hentry
      split at hentry
      · exact hentry
      · cases hentry

end OneVisit

-- ---------------------------------------------------------------------------
-- Whole visits
-- ---------------------------------------------------------------------------

section Visits

variable {α : Type} [DecidableEq α]

/-- What is accepted unfolds to JSON, whatever frames were left. -/
theorem visit_unfolds {frames : Nat} {item : α} {m : PyMemory α}
    (h : (visit frames item m).1 = .ok ()) : Unfolds m.heap item := by
  induction frames generalizing item m with
  | zero => cases h
  | succ frames ih =>
    obtain ⟨hnode, hchildren⟩ := visit_ok_cases h
    refine .mk hnode fun child hchild => ?_
    have hunfolds := ih (m := m.enter item) (hchildren child hchild)
    exact hunfolds

theorem visit_error {frames : Nat} {item : α} {m : PyMemory α} {e : Exn}
    (h : (visit frames item m).1 = .error e) :
    e = notJson ∨ e = nonStringKey ∨ e = cyclicPayload ∨ e = recursionExceeded := by
  induction frames generalizing item m with
  | zero =>
    cases h
    exact .inr (.inr (.inr rfl))
  | succ frames ih =>
    rcases visit_error_cases h with ⟨he, -⟩ | ⟨he, -⟩ | ⟨he, -⟩ | ⟨-, child, -, he⟩
    · exact .inl he
    · exact .inr (.inl he)
    · exact .inr (.inr (.inl he))
    · exact ih he

variable {heap : α → PyObject α} {root : α} {limit : Nat}

/-- The ancestors of a call are what the trail to its object has come through, and no two of them
are the same, so the frames last. -/
theorem visit_frames (hlimit : Within (Holds heap) root limit) {through : List α} {item : α}
    (htrail : Trail (Holds heap) root through item) (hnodup : through.Nodup)
    {frames : Nat} (hframes : limit < frames + through.length) :
    (visit frames item ⟨heap, through.toFinset⟩).1 ≠ .error recursionExceeded := by
  induction frames generalizing through item with
  | zero =>
    -- A trail that came through `limit + 1` different objects: its own tail breaks the bound.
    cases htrail with
    | start => exact absurd hframes (by simp)
    | step htrail _ =>
      have := hlimit _ _ htrail hnodup
      simp only [List.length_cons] at hframes
      omega
  | succ frames ih =>
    intro h
    rcases visit_error_cases h with ⟨he, -⟩ | ⟨he, -⟩ | ⟨he, -⟩ | ⟨hnew, child, hchild, he⟩
    · cases he
    · cases he
    · cases he
    · have hthrough : item ∉ through := fun hmem => hnew (List.mem_toFinset.mpr hmem)
      have hmemory : PyMemory.enter ⟨heap, through.toFinset⟩ item
          = ⟨heap, (item :: through).toFinset⟩ := by
        rw [List.toFinset_cons]
        rfl
      rw [hmemory] at he
      refine ih (htrail.step hchild) (List.nodup_cons.mpr ⟨hthrough, hnodup⟩) ?_ he
      rw [List.length_cons]
      omega

/-- Lossless JSON is refused for want of frames only. -/
theorem visit_accepts (hlossless : Lossless heap root) {through : List α} {item : α}
    (htrail : Trail (Holds heap) root through item) {frames : Nat} {e : Exn}
    (h : (visit frames item ⟨heap, through.toFinset⟩).1 = .error e) : e = recursionExceeded := by
  induction frames generalizing through item with
  | zero =>
    cases h
    rfl
  | succ frames ih =>
    have hnode := hlossless.nodes item htrail.reaches
    rcases visit_error_cases h with ⟨-, hbad⟩ | ⟨-, hbad⟩ | ⟨-, hmem⟩ | ⟨-, child, hchild, he⟩
    · exact absurd hnode hbad
    · exact absurd hnode hbad
    · exact absurd (htrail.leads item (List.mem_toFinset.mp hmem))
        (hlossless.paths.acyclic htrail.reaches)
    · refine ih (htrail.step hchild) ?_
      rw [List.toFinset_cons]
      exact he

theorem validateJsonValue_memory (frames : Nat) (heap : α → PyObject α) (root : α) :
    (validateJsonValue frames heap root).2 = ⟨heap, ∅⟩ := by
  have hmemory := visit_memory frames root ⟨heap, ∅⟩
  unfold validateJsonValue
  split <;> rename_i hvisit <;> rw [hvisit] at hmemory <;> exact hmemory

/-- The two outcomes of the check, and where each comes from. -/
theorem validateJsonValue_cases (frames : Nat) (heap : α → PyObject α) (root : α) :
    (visit frames root ⟨heap, ∅⟩).1 = .ok () ∧ (validateJsonValue frames heap root).1 = .ok root ∨
    (visit frames root ⟨heap, ∅⟩).1 = .error recursionExceeded ∧
      (validateJsonValue frames heap root).1 = .error nestedPayload ∨
    ∃ e, (e = notJson ∨ e = nonStringKey ∨ e = cyclicPayload) ∧
      (visit frames root ⟨heap, ∅⟩).1 = .error e ∧
      (validateJsonValue frames heap root).1 = .error e := by
  unfold validateJsonValue
  rcases hvisit : visit frames root ⟨heap, ∅⟩ with ⟨e | _, m⟩
  · have herror : (visit frames root ⟨heap, ∅⟩).1 = .error e := by rw [hvisit]
    rcases visit_error herror with rfl | rfl | rfl | rfl
    · exact .inr (.inr ⟨notJson, .inl rfl, rfl, rfl⟩)
    · exact .inr (.inr ⟨nonStringKey, .inr (.inl rfl), rfl, rfl⟩)
    · exact .inr (.inr ⟨cyclicPayload, .inr (.inr rfl), rfl, rfl⟩)
    · exact .inr (.inl ⟨rfl, rfl⟩)
  · exact .inl ⟨rfl, rfl⟩

/-- The check decides lossless JSON on every finite object graph: with more frames than the trails
without repetition need, and there is such a bound, it ends of itself and accepts lossless JSON
only, all of it, and never changes an object. -/
theorem validateJsonValue_decides (heap : α → PyObject α) (root : α) (nodes : Finset α)
    (hroot : root ∈ nodes) (hclosed : ∀ x ∈ nodes, ∀ y, Holds heap x y → y ∈ nodes) :
    (∃ limit, Within (Holds heap) root limit) ∧
    ∀ limit, Within (Holds heap) root limit → ∀ frames, limit < frames →
      (validateJsonValue frames heap root).2 = ⟨heap, ∅⟩ ∧
      (validateJsonValue frames heap root).1 ≠ .error nestedPayload ∧
      ((validateJsonValue frames heap root).1 = .ok root ↔ Lossless heap root) ∧
      (¬Lossless heap root →
        ∃ message, (validateJsonValue frames heap root).1 = .error (.py .valueError message)) := by
  refine ⟨⟨nodes.card, within_of_finite hroot hclosed (Nat.le_refl _)⟩, ?_⟩
  intro limit hlimit frames hframes
  have hlasts : (visit frames root ⟨heap, ∅⟩).1 ≠ .error recursionExceeded :=
    visit_frames hlimit .start List.nodup_nil (by simpa using hframes)
  refine ⟨validateJsonValue_memory frames heap root, ?_⟩
  rcases validateJsonValue_cases frames heap root with
    ⟨hvisit, hresult⟩ | ⟨hvisit, -⟩ | ⟨e, he, hvisit, hresult⟩
  · have hlossless : Lossless heap root := (visit_unfolds hvisit).lossless
    exact ⟨by simp [hresult], by simp [hresult, hlossless], fun h => absurd hlossless h⟩
  · exact absurd hvisit hlasts
  · have hno : ¬Lossless heap root := fun hlossless =>
      hlasts (visit_accepts hlossless .start hvisit ▸ hvisit)
    rcases he with rfl | rfl | rfl <;>
      exact ⟨by simp [hresult, notJson, nonStringKey, cyclicPayload, nestedPayload],
        by simp [hresult, hno], fun _ => ⟨_, hresult⟩⟩

end Visits

namespace Sample

/-- `{"a": shared, "b": shared}` with `shared = [shared_leaf]`. -/
def sharedHeap : Fin 5 → PyObject (Fin 5)
  | 0 => .dict [(1, 3), (2, 3)]
  | 1 => .str (.ofString "a")
  | 2 => .str (.ofString "b")
  | 3 => .list [4, 4]
  | 4 => .int 7

end Sample

/-- A list that two keys share is accepted. -/
theorem shared_decided :
    (∃ limit, Within (Holds Sample.sharedHeap) 0 limit) ∧
    Lossless Sample.sharedHeap 0 := by
  have hdecides := validateJsonValue_decides Sample.sharedHeap 0 Finset.univ (Finset.mem_univ _)
    fun _ _ y _ => Finset.mem_univ y
  obtain ⟨hbounded, hall⟩ := hdecides
  have hwithin : Within (Holds Sample.sharedHeap) 0 5 :=
    within_of_finite (Finset.mem_univ _) (fun _ _ y _ => Finset.mem_univ y) (by decide)
  exact ⟨hbounded, (hall 5 hwithin 6 (by decide)).2.2.1.mp (by rfl)⟩

end AgentRuntimeKit
