import CodeAtlas.Proofs.Query.Cycles.Iterations
import CodeAtlas.Proofs.Query.Cycles.Recorded
import CodeAtlas.Proofs.Query.Representation

/-!
# Searches in good order

At every iteration the parts of the state agree with each other, so a cycle is always cut out of the
path. Over all searches no entity is put on the stack twice and no link is examined twice, and two
entities close one cycle at most: as long as the last entity of a recorded cycle is not left, the
cycle is a part of the path without gaps, and another link between the same entities would close
the same one.

* `Search.Whole`           a recorded cycle is a part of the path, or its last entity was left;
* `Search.Closings`        all recorded cycles are, and they are closed between different entities;
* `closings_of_next`       every step keeps this;
* `Search.Orderly`         what holds at every iteration, and what happens once;
* `runAll_orderly`         all searches of every graph come to an end, and are of this kind.
-/

namespace CodeAtlas.Cycles

/-- the last and the first id of a cycle, between which the link leads that closes it -/
def Found.closing (f : Found) : Option String × Option String := (f.ids.getLast?, f.ids.head?)

namespace Search

/-! ### Cycles that are closed once -/

/-- until the last entity of a cycle is left, the cycle is a part of the path without gaps -/
def Whole (s : Search) (f : Found) : Prop :=
  (∃ id ∈ s.done, f.ids.getLast? = some id) ∨ f.ids <:+: s.path

/-- all recorded cycles are whole, and no two of them are closed between the same entities -/
structure Closings (s : Search) : Prop where
  whole : ∀ f ∈ s.found, s.Whole f
  once : (s.found.map Found.closing).Nodup

/-- A part of a list without repetitions that ends where the list ends is all that follows from the
place of its head on. -/
theorem eq_drop_of_ends {path ids : List String} {place : Nat} {first last : String}
    (hpath : path.Nodup) (hpart : ids <:+: path) (hhead : ids.head? = some first)
    (hlast : ids.getLast? = some last) (hplace : path[place]? = some first)
    (hend : path.getLast? = some last) : ids = path.drop place := by
  obtain ⟨front, back, rfl⟩ := hpart
  have hback : back = [] := by
    by_contra hne
    rw [List.getLast?_append_of_ne_nil _ hne] at hend
    exact (List.nodup_append.mp hpath).2.2 last
      (List.mem_append_right _ (List.mem_of_getLast? hlast)) last (List.mem_of_getLast? hend) rfl
  rw [hback, List.append_nil] at hpath hplace ⊢
  have hfront : (front ++ ids)[front.length]? = some first := by
    rw [List.getElem?_append_right (Nat.le_refl _), Nat.sub_self, ← List.head?_eq_getElem?, hhead]
  have hlt := (List.getElem?_eq_some_iff.mp hplace).1
  have hsame : place = front.length := (List.getElem?_inj hlt hpath).mp (hplace.trans hfront.symm)
  rw [hsame, List.drop_left]

section

variable {g : DependencyGraph} {starts : List String} {s s' : Search} {top : Frame}
  {outer : List Frame} {link : Link} {place : Nat} {f : Found}

/-- A recorded cycle that is closed between the same entities has the same ids in the same order. -/
theorem ids_eq_of_closing_eq (haligned : Aligned g s) (hframes : s.frames = top :: outer)
    (hplace : s.onStack.lookup link.entityId = some place) (hwhole : s.Whole f)
    (hclosing : f.closing = (s.closeAt place link).closing) :
    f.ids = (s.closeAt place link).ids := by
  have hpath := haligned.path_eq hframes
  obtain ⟨hlast, hhead⟩ := Prod.mk.inj hclosing
  rw [getLast?_closeAt haligned hframes hplace] at hlast
  rw [head?_closeAt haligned hplace] at hhead
  rcases hwhole with ⟨id, hdone, hid⟩ | hpart
  · -- its last entity is the innermost one, which was not left
    obtain rfl : top.node = id := Option.some.inj (hlast.symm.trans hid)
    have htop : top.node ∈ s.path := hpath ▸ List.mem_append_right _ (List.mem_singleton_self _)
    exact absurd rfl ((List.nodup_append.mp haligned.distinct).2.2 _ htop _ hdone)
  · have hend : s.path.getLast? = some top.node := by rw [hpath, List.getLast?_concat]
    exact eq_drop_of_ends haligned.nodup_path hpart hhead hlast
      ((haligned.places _ _).mp hplace) hend

theorem Whole.leave (h : s.Whole f) (haligned : Aligned g s) (hframes : s.frames = top :: outer) :
    (s.leave top.node outer).Whole f := by
  have hpath := haligned.path_eq hframes
  have hshort : (s.leave top.node outer).path = (outer.map Frame.node).reverse := by
    show s.path.dropLast = _
    rw [hpath, List.dropLast_concat]
  rcases h with ⟨id, hdone, hid⟩ | hpart
  · exact .inl ⟨id, List.mem_cons_of_mem _ hdone, hid⟩
  · rw [hpath, List.infix_concat_iff, List.suffix_concat_iff] at hpart
    rw [Whole, hshort]
    rcases hpart with (hnil | ⟨front, hids, _⟩) | hpart
    · exact .inr (hnil ▸ List.nil_infix)
    · -- a cycle that reaches to the end of the path ends with the entity that is left
      exact .inl ⟨top.node, List.mem_cons_self, by rw [hids, List.getLast?_concat]⟩
    · exact .inr hpart

theorem Whole.enter (h : s.Whole f) : (s.enter link).Whole f :=
  h.imp_right fun hpart => hpart.trans (List.prefix_append _ _).isInfix

theorem Whole.startAt (h : s.Whole f) (haligned : Aligned g s) (hclosed : s.frames = [])
    (start : String) : (s.startAt start).Whole f := by
  refine h.imp_right fun hpart => ?_
  rw [haligned.path_eq_nil hclosed, List.infix_nil] at hpart
  exact hpart ▸ List.nil_infix

namespace Closings

theorem of_found (h : Closings s) (hfound : s'.found = s.found)
    (hwhole : ∀ f, s.Whole f → s'.Whole f) : Closings s' where
  whole f hf := hwhole f (h.whole f (hfound ▸ hf))
  once := hfound ▸ h.once

theorem record (h : Closings s) (haligned : Aligned g s) (hrecorded : Recorded g starts s)
    (hframes : s.frames = top :: outer)
    (hplace : s.onStack.lookup link.entityId = some place) :
    Closings (s.record (s.closeAt place link)) := by
  rcases record_cases s (s.closeAt place link) with ⟨_, heq⟩ | ⟨hnew, heq⟩
  · rw [heq]
    exact h
  · rw [heq]
    refine ⟨fun f hf => ?whole, ?once⟩
    case whole =>
      rcases List.mem_append.mp hf with hf | hf
      · exact h.whole f hf
      · rw [List.mem_singleton.mp hf]
        exact .inr (List.drop_suffix place s.path).isInfix
    case once =>
      show ((s.found ++ [s.closeAt place link]).map Found.closing).Nodup
      rw [List.map_append, List.map_singleton, ← List.concat_eq_append]
      refine .concat (fun hmem => hnew ?_) h.once
      -- a cycle between the same entities would have the signature that is not there
      obtain ⟨f, hf, hclosing⟩ := List.mem_map.mp hmem
      have hids := ids_eq_of_closing_eq haligned hframes hplace (h.whole f hf) hclosing
      exact (hrecorded.seen _).mpr ⟨f, hf, congrArg signature hids⟩

theorem initial : Closings initial := ⟨nofun, .nil⟩

end Closings

theorem Next.closings (hnext : Next g starts s s') (haligned : Aligned g s)
    (hrecorded : Recorded g starts s) (h : Closings s) : Closings s' := by
  cases hnext with
  | start _ _ hclosed => exact h.of_found rfl fun f hf => hf.startAt haligned hclosed _
  | move hmove =>
    cases hmove with
    | leave hframes _ => exact h.of_found rfl fun f hf => hf.leave haligned hframes
    | pass _ _ _ => exact h.of_found rfl fun f hf => hf
    | @close top outer link place hframes _ _ hplace =>
      have hadvance : Closings (s.advance top outer) := h.of_found rfl fun f hf => hf
      have hrecorded' : Recorded g starts (s.advance top outer) :=
        hrecorded.of_found rfl rfl (List.Subset.refl _) hrecorded.reached
      exact hadvance.record (haligned.advance hframes) hrecorded' rfl hplace
    | enter _ _ _ _ => exact h.of_found rfl fun f hf => hf.enter

theorem closings_of_next (hsteps : Relation.ReflTransGen (Next g starts) s s')
    (haligned : Aligned g s) (hrecorded : Recorded g starts s) (h : Closings s) : Closings s' := by
  induction hsteps with
  | refl => exact h
  | tail hsteps hnext ih =>
    exact hnext.closings (aligned_of_next hsteps haligned).1
      (recorded_of_next hsteps haligned hrecorded) ih

end

/-! ### All searches -/

theorem Aligned.place_in_range {g : DependencyGraph} {s : Search} (h : Aligned g s) {id : String}
    {place : Nat} (hplace : s.onStack.lookup id = some place) :
    place < s.path.length ∧ place ≤ s.pathLinks.length := by
  have hlt := (List.getElem?_eq_some_iff.mp ((h.places id place).mp hplace)).1
  have hlength := h.length
  omega

/-- what holds at every iteration of all searches, and what happens once in all of them -/
structure Orderly (g : DependencyGraph) (starts : List String) (log : List Change)
    (last : Search) : Prop where
  /-- The searches take as many changes as the graph is large, and two more for every start. -/
  length : log.length ≤ g.edgeCount + g.nodeCount + 2 * starts.length
  /-- Frames, path, links of the path and places agree, and nothing on the path was left; -/
  aligned : ∀ c ∈ log, Aligned g c.before
  /-- so what is cut out of the path and of its links begins within them. -/
  inRange : ∀ c ∈ log, ∀ id place, c.before.onStack.lookup id = some place →
    place < c.before.path.length ∧ place ≤ c.before.pathLinks.length
  /-- No entity is put on the stack twice, from whatever start, -/
  pushed : (log.filterMap Change.pushed).Nodup
  /-- and no link of an entity is examined twice. -/
  examined : (log.filterMap (Change.examined g)).Nodup
  /-- What was recorded is closed by a link from its last entity to its first one, -/
  closed : ∀ f ∈ last.found, f.Closed g
  /-- and no two of these lead from the same entity to the same entity. -/
  closings : (last.found.map Found.closing).Nodup

/-- **All searches come to an end and are in good order.** Whatever edges a graph is built from, and
whatever the starts and the cap are, the loops of all searches end by themselves, with the result
that is computed. At every iteration the parts of the state agree and what is cut out of the path is
in range. Over all searches together no entity is put on the stack twice, no link is examined twice,
and no two recorded cycles are closed from the same entity to the same entity. -/
theorem runAll_orderly (edges : List DependencyGraph.Arc) (maxCycles : Nat) (starts : List String) :
    ∃ log, RunsAll (.ofEdges edges) maxCycles initial starts log
        (runAll (.ofEdges edges) maxCycles initial starts) ∧
      Orderly (.ofEdges edges) starts log (runAll (.ofEdges edges) maxCycles initial starts).2 := by
  have hbuilt : (DependencyGraph.ofEdges edges).IsBuilt := ⟨_, DependencyGraph.ofEdges_eq edges⟩
  obtain ⟨log, hruns⟩ : ∃ log, RunsAll (.ofEdges edges) maxCycles initial starts log _ :=
    exists_runsAll hbuilt .initial starts
  have hsteps := hruns.steps (List.Subset.refl starts) rfl
  have haligned := hsteps.aligned .initial
  have hrecorded := recorded_of_next hsteps.reaches .initial .initial
  have hclosings := closings_of_next hsteps.reaches .initial .initial .initial
  have hlength := hruns.length_le hbuilt .initial rfl
  rw [remaining_initial hbuilt] at hlength
  exact ⟨log, hruns, {
    length := Nat.le_of_add_right_le hlength
    aligned := haligned
    inRange := fun c hc _ _ hplace => (haligned c hc).place_in_range hplace
    pushed := (hsteps.nodup_events marks_pushed .initial).1
    examined := (hsteps.nodup_events marks_examined .initial).1
    closed := hrecorded.closed
    closings := hclosings.once }⟩

/-- An entity that depends on itself, and a repeated edge, which closes its cycle once. -/
example :
    (runAll (.ofEdges [⟨"a", "a", .calls⟩, ⟨"a", "b", .calls⟩, ⟨"b", "a", .calls⟩,
      ⟨"b", "a", .imports⟩]) 0 initial ["a", "b"]).2.found = [⟨["a", "b"], [.calls, .calls]⟩] := by
  decide

end Search

end CodeAtlas.Cycles
