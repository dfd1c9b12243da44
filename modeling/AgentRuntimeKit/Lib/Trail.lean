import Mathlib.Data.Finset.Card
import Mathlib.Data.List.Nodup
import Mathlib.Logic.Relation
import Mathlib.Tactic.Choose

/-!
# Trails in a graph

A trail leads from a root to a node and remembers the nodes it has come through, nearest first.
`Within` bounds the trails that come through no node twice; in a finite graph there is such a bound.
A graph whose paths from the root are all finite has no cycle there.
-/

namespace AgentRuntimeKit.Lib

universe u

variable {α : Type u} {r : α → α → Prop} {root : α}

inductive Trail (r : α → α → Prop) (root : α) : List α → α → Prop
  | start : Trail r root [] root
  | step {through : List α} {x y : α} : Trail r root through x → r x y →
      Trail r root (x :: through) y

/-- No trail without repetition is longer than `limit`. -/
def Within (r : α → α → Prop) (root : α) (limit : Nat) : Prop :=
  ∀ through x, Trail r root through x → (x :: through).Nodup → through.length < limit

/-- Every path from the root ends. -/
def FinitePaths (r : α → α → Prop) (root : α) : Prop :=
  ∀ path : Nat → α, path 0 = root → ∃ n, ¬r (path n) (path (n + 1))

namespace Trail

variable {through : List α} {x : α}

theorem reaches (h : Trail r root through x) : Relation.ReflTransGen r root x := by
  induction h with
  | start => exact .refl
  | step _ hr ih => exact ih.tail hr

/-- What a trail has come through leads to its end. -/
theorem leads (h : Trail r root through x) : ∀ a ∈ through, Relation.TransGen r a x := by
  induction h with
  | start => exact fun a ha => absurd ha List.not_mem_nil
  | @step through x y _ hr ih =>
    intro a ha
    rcases List.mem_cons.mp ha with rfl | ha
    · exact .single hr
    · exact (ih a ha).tail hr

theorem mem_of_closed {nodes : Finset α} (hroot : root ∈ nodes)
    (hclosed : ∀ x ∈ nodes, ∀ y, r x y → y ∈ nodes) (h : Trail r root through x) :
    ∀ a ∈ x :: through, a ∈ nodes := by
  induction h with
  | start =>
    intro a ha
    rw [List.mem_singleton.mp ha]
    exact hroot
  | @step through x y _ hr ih =>
    intro a ha
    rcases List.mem_cons.mp ha with rfl | ha
    · exact hclosed x (ih x List.mem_cons_self) a hr
    · exact ih a ha

end Trail

/-- A finite graph has no more nodes to come through than it has. -/
theorem within_of_finite {nodes : Finset α} (hroot : root ∈ nodes)
    (hclosed : ∀ x ∈ nodes, ∀ y, r x y → y ∈ nodes) {limit : Nat} (hlimit : nodes.card ≤ limit) :
    Within r root limit := by
  classical
  intro through x h hnodup
  have hsubset : (x :: through).toFinset ⊆ nodes := fun a ha =>
    h.mem_of_closed hroot hclosed a (List.mem_toFinset.mp ha)
  have hcard := Finset.card_le_card hsubset
  rw [List.toFinset_card_of_nodup hnodup, List.length_cons] at hcard
  omega

/-- A cycle that is reached gives a path without an end. -/
theorem FinitePaths.acyclic (h : FinitePaths r root) {x : α}
    (hreach : Relation.ReflTransGen r root x) :
    ¬Relation.TransGen r x x := by
  intro hcycle
  have hnext : ∀ y : {y // Relation.ReflTransGen r y x}, ∃ z : {z // Relation.ReflTransGen r z x},
      r y.1 z.1 := by
    rintro ⟨y, hy⟩
    rcases Relation.ReflTransGen.cases_head hy with rfl | ⟨z, hr, hz⟩
    · obtain ⟨z, hr, hz⟩ := Relation.TransGen.head'_iff.mp hcycle
      exact ⟨⟨z, hz⟩, hr⟩
    · exact ⟨⟨z, hz⟩, hr⟩
  choose next hnext using hnext
  obtain ⟨n, hn⟩ := h (fun n => (next^[n] ⟨root, hreach⟩).1) rfl
  refine hn ?_
  rw [Function.iterate_succ_apply']
  exact hnext _

/-- Where nothing leads back to itself, a trail comes through no node twice. -/
theorem Trail.nodup {through : List α} {x : α} (h : Trail r root through x)
    (hacyclic : ∀ x, Relation.ReflTransGen r root x → ¬Relation.TransGen r x x) :
    (x :: through).Nodup := by
  induction h with
  | start => exact List.nodup_singleton root
  | @step through x y hx hr ih =>
    refine List.nodup_cons.mpr ⟨fun hy => ?_, ih⟩
    have htrail := hx.step hr
    exact hacyclic y htrail.reaches (htrail.leads y hy)

end AgentRuntimeKit.Lib
