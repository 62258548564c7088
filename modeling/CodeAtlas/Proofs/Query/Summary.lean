import CodeAtlas.Query.BlastRadius
import CodeAtlas.Query.Cycles
import Mathlib.Algebra.BigOperators.Group.List.Basic
import Mathlib.Algebra.Ring.Nat
import Mathlib.Data.List.Nodup

/-!
# Summaries

The numbers of a summary are those of the list that is reported. A bound is reached by an entry of the
list; of an empty list it is zero.

* `sum_length_filter_eq_length`  the counts by a key add up to the length of the list;
* `eq_nil_or_exists_eq_getD`     a number that is picked from a list is that of an entry;
* `BlastRadius.deepest_summarize`, `BlastRadius.direct_summarize`   of a blast radius;
* `CycleSummary.unique_ofCycles`, `shortest_ofCycles`, `longest_ofCycles`   of cycles.
-/

namespace CodeAtlas

/-- the ids of the entities of a cycle -/
def Cycle.ids (c : Cycle) : List String := c.entities.map (·.id)

theorem eq_nil_or_exists_eq_getD {α : Type} {f : α → Nat} {xs : List α} {picked : Option Nat}
    (hnone : picked = none → xs.map f = []) (hmem : ∀ n, picked = some n → n ∈ xs.map f) :
    xs = [] ∧ picked.getD 0 = 0 ∨ ∃ x ∈ xs, f x = picked.getD 0 := by
  cases picked with
  | none => exact .inl ⟨List.map_eq_nil_iff.mp (hnone rfl), rfl⟩
  | some n => exact .inr (List.mem_map.mp (hmem n rfl))

theorem nodup_eraseDups (ids : List String) : ids.eraseDups.Nodup := by
  cases ids with
  | nil => exact .nil
  | cons id ids =>
    rw [List.eraseDups_cons, List.nodup_cons]
    refine ⟨fun hmem => ?_, nodup_eraseDups _⟩
    have hne := (List.mem_filter.mp (List.mem_eraseDups.mp hmem)).2
    rw [beq_self_eq_true] at hne
    cases hne
termination_by ids.length
decreasing_by exact Nat.lt_succ_of_le (List.length_filter_le _ _)

theorem sum_map_ite_beq {κ : Type} [BEq κ] [LawfulBEq κ] (key : κ) (keys : List κ) :
    (keys.map fun other => if key == other then 1 else 0).sum = keys.count key := by
  induction keys with
  | nil => rfl
  | cons other keys ih =>
    rw [List.map_cons, List.sum_cons, ih, List.count_cons, Nat.add_comm]
    by_cases h : other = key
    · simp [h]
    · simp [h, Ne.symm h]

/-- The members of a list are counted by a key. -/
theorem sum_length_filter_eq_length {α κ : Type} [BEq κ] [LawfulBEq κ] {keys : List κ}
    (hkeys : keys.Nodup) (key : α → κ) (xs : List α) (hxs : ∀ x ∈ xs, key x ∈ keys) :
    (keys.map fun k => (xs.filter (key · == k)).length).sum = xs.length := by
  induction xs with
  | nil => simp
  | cons x xs ih =>
    have hone : (keys.map fun k => if key x == k then 1 else 0).sum = 1 := by
      rw [sum_map_ite_beq, List.count_eq_one_of_mem hkeys (hxs x List.mem_cons_self)]
    have hcons : (fun k => ((x :: xs).filter (key · == k)).length) =
        fun k => (if key x == k then 1 else 0) + (xs.filter (key · == k)).length := by
      funext k
      rw [List.filter_cons]
      split
      · rw [List.length_cons, Nat.add_comm]
      · rw [Nat.zero_add]
    rw [hcons, List.sum_map_add, hone, ih fun y hy => hxs y (List.mem_cons_of_mem _ hy),
      List.length_cons, Nat.add_comm]

namespace BlastRadius

variable (affected : List AffectedEntity)

theorem deepest_summarize :
    (∀ a ∈ affected, a.depth ≤ (summarize affected).maxDepth) ∧
      (affected = [] ∧ (summarize affected).maxDepth = 0 ∨
        ∃ a ∈ affected, a.depth = (summarize affected).maxDepth) := by
  refine ⟨fun a ha => ?_, ?_⟩
  · exact List.le_max?_getD_of_mem (List.mem_map_of_mem ha)
  · exact eq_nil_or_exists_eq_getD List.max?_eq_none_iff.mp fun _ => List.max?_mem

theorem direct_summarize :
    (summarize affected).directDependents = affected.countP (·.depth = 0) := by
  rw [List.countP_eq_length_filter]
  rfl

end BlastRadius

namespace CycleSummary

variable (cycles : List Cycle) (truncated : Bool)

theorem unique_ofCycles :
    ∃ ids : List String, ids.Nodup ∧ (∀ id, id ∈ ids ↔ ∃ c ∈ cycles, id ∈ c.ids) ∧
      (ofCycles cycles truncated).uniqueEntities = ids.length := by
  refine ⟨_, nodup_eraseDups (cycles.flatMap Cycle.ids), fun id => ?_, rfl⟩
  rw [List.mem_eraseDups, List.mem_flatMap]

theorem shortest_ofCycles :
    (∀ c ∈ cycles, (ofCycles cycles truncated).shortest ≤ c.entities.length) ∧
      (cycles = [] ∧ (ofCycles cycles truncated).shortest = 0 ∨
        ∃ c ∈ cycles, c.entities.length = (ofCycles cycles truncated).shortest) := by
  refine ⟨fun c hc => ?_, ?_⟩
  · exact List.min?_getD_le_of_mem (List.mem_map_of_mem (f := Cycle.length) hc)
  · exact eq_nil_or_exists_eq_getD List.min?_eq_none_iff.mp fun _ => List.min?_mem

theorem longest_ofCycles :
    (∀ c ∈ cycles, c.entities.length ≤ (ofCycles cycles truncated).longest) ∧
      (cycles = [] ∧ (ofCycles cycles truncated).longest = 0 ∨
        ∃ c ∈ cycles, c.entities.length = (ofCycles cycles truncated).longest) := by
  refine ⟨fun c hc => ?_, ?_⟩
  · exact List.le_max?_getD_of_mem (List.mem_map_of_mem (f := Cycle.length) hc)
  · exact eq_nil_or_exists_eq_getD List.max?_eq_none_iff.mp fun _ => List.max?_mem

end CycleSummary

end CodeAtlas
