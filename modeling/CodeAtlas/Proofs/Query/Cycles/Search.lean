import CodeAtlas.Proofs.Query.Adjacency
import CodeAtlas.Proofs.Query.Cycles.Signature
import Mathlib.Algebra.Order.BigOperators.Group.List

/-!
# Depth-first search

The search for cycles, state after state. A step is one of four moves, and whatever is said of all
searches is said of one move, and of the start of one search, first.

* `Search.Move`            what a step can do;
* `Search.Aligned`         frames, path, links of the path and places agree, and no id is met twice;
* `Move.aligned`           every move keeps this;
* `Move.remaining_lt`      every move brings the search closer to its end;
* `Search.Runs`            the iterations of a loop, without a bound on their number;
* `Search.Next`            a move, or the start of one more search when the last one is over;
* `runAll_next`            all searches together are a sequence of these, and unless the cap stops
                           them every start was left.
-/

namespace CodeAtlas.Cycles.Search

/-! ### Moves -/

/-- one more link of the innermost entity is followed -/
def advance (s : Search) (top : Frame) (outer : List Frame) : Search :=
  { s with frames := { top with next := top.next + 1 } :: outer }

/-- what a step can do -/
inductive Move (g : DependencyGraph) (s : Search) : Search → Prop where
  /-- the innermost entity has no more link -/
  | leave {top : Frame} {outer : List Frame} (hframes : s.frames = top :: outer)
      (hlink : (g.dependencies top.node)[top.next]? = none) : Move g s (s.leave top.node outer)
  /-- the link leads to the entity itself or to what the search has left -/
  | pass {top : Frame} {outer : List Frame} {link : Link} (hframes : s.frames = top :: outer)
      (hlink : (g.dependencies top.node)[top.next]? = some link)
      (hpass : link.entityId = top.node ∨ link.entityId ∈ s.done) : Move g s (s.advance top outer)
  /-- the link leads back to the path -/
  | close {top : Frame} {outer : List Frame} {link : Link} {place : Nat}
      (hframes : s.frames = top :: outer)
      (hlink : (g.dependencies top.node)[top.next]? = some link) (hne : link.entityId ≠ top.node)
      (hplace : s.onStack.lookup link.entityId = some place) :
      Move g s ((s.advance top outer).record (s.closeAt place link))
  /-- the link leads to a new entity -/
  | enter {top : Frame} {outer : List Frame} {link : Link} (hframes : s.frames = top :: outer)
      (hlink : (g.dependencies top.node)[top.next]? = some link)
      (hplace : s.onStack.lookup link.entityId = none) (hdone : link.entityId ∉ s.done) :
      Move g s ((s.advance top outer).enter link)

section

variable {g : DependencyGraph} {maxCycles : Nat} {s s' : Search}

theorem step_of_frames {top : Frame} {outer : List Frame} (hframes : s.frames = top :: outer) :
    s.step g maxCycles =
      match (g.dependencies top.node)[top.next]? with
      | none => .running (s.leave top.node outer)
      | some link =>
        if link.entityId = top.node then .running (s.advance top outer)
        else
          match s.onStack.lookup link.entityId with
          | some place =>
            if ((s.advance top outer).record (s.closeAt place link)).capped maxCycles then
              .capped ((s.advance top outer).record (s.closeAt place link))
            else .running ((s.advance top outer).record (s.closeAt place link))
          | none =>
            if s.done.contains link.entityId then .running (s.advance top outer)
            else .running ((s.advance top outer).enter link) := by
  unfold step
  rw [hframes]
  rfl

theorem step_eq_finished : s.step g maxCycles = .finished ↔ s.frames = [] := by
  cases hframes : s.frames with
  | nil =>
    unfold step
    rw [hframes]
    exact ⟨fun _ => rfl, fun _ => rfl⟩
  | cons top outer =>
    rw [step_of_frames hframes]
    refine ⟨fun h => ?_, nofun⟩
    repeat' split at h
    all_goals cases h

/-- A step that does not find the search finished is a move. -/
theorem move_of_step
    (h : s.step g maxCycles = .running s' ∨
      s.step g maxCycles = .capped s' ∧ s'.capped maxCycles = true) : Move g s s' := by
  cases hframes : s.frames with
  | nil =>
    rw [step_eq_finished.mpr hframes] at h
    rcases h with h | ⟨h, _⟩
    · cases h
    · cases h
  | cons top outer =>
    rw [step_of_frames hframes] at h
    cases hlink : (g.dependencies top.node)[top.next]? with
    | none =>
      simp only [hlink, Step.running.injEq, reduceCtorEq, false_and, or_false] at h
      exact h ▸ .leave hframes hlink
    | some link =>
      simp only [hlink] at h
      by_cases hself : link.entityId = top.node
      · simp only [hself, if_true, Step.running.injEq, reduceCtorEq, false_and, or_false] at h
        exact h ▸ .pass hframes hlink (.inl hself)
      · cases hplace : s.onStack.lookup link.entityId with
        | some place =>
          have hmove := Move.close hframes hlink hself hplace
          simp only [if_neg hself, hplace] at h
          split at h
          · rcases h with h | ⟨h, _⟩
            · cases h
            · cases h
              exact hmove
          · rcases h with h | ⟨h, _⟩
            · cases h
              exact hmove
            · cases h
        | none =>
          simp only [if_neg hself, hplace] at h
          by_cases hdone : link.entityId ∈ s.done
          · simp only [List.contains_iff_mem.mpr hdone, if_true, Step.running.injEq, reduceCtorEq,
              false_and, or_false] at h
            exact h ▸ .pass hframes hlink (.inr hdone)
          · have hcontains : s.done.contains link.entityId = false := by
              rwa [← Bool.not_eq_true, List.contains_iff_mem]
            simp only [hcontains, Bool.false_eq_true, if_false, Step.running.injEq, reduceCtorEq,
              false_and, or_false] at h
            exact h ▸ .enter hframes hlink hplace hdone

theorem capped_of_step (h : s.step g maxCycles = .capped s') : s'.capped maxCycles = true := by
  cases hframes : s.frames with
  | nil =>
    rw [step_eq_finished.mpr hframes] at h
    cases h
  | cons top outer =>
    rw [step_of_frames hframes] at h
    repeat' split at h
    all_goals cases h
    assumption

theorem record_frames (c : Found) :
    (s.record c).frames = s.frames ∧ (s.record c).path = s.path ∧
      (s.record c).pathLinks = s.pathLinks ∧ (s.record c).onStack = s.onStack ∧
      (s.record c).done = s.done := by
  unfold record
  dsimp only
  split <;> exact ⟨rfl, rfl, rfl, rfl, rfl⟩

end

/-! ### Frames, path and places -/

/-- frames, path, links of the path and places agree, and no id is met twice -/
structure Aligned (g : DependencyGraph) (s : Search) : Prop where
  nodes : s.path = (s.frames.map Frame.node).reverse
  length : s.pathLinks.length = s.path.length - 1
  edges : ∀ i a b, s.path[i]? = some a → s.path[i + 1]? = some b →
    ∃ kind, s.pathLinks[i]? = some kind ∧ ⟨b, kind⟩ ∈ g.dependencies a
  places : ∀ id i, s.onStack.lookup id = some i ↔ s.path[i]? = some id
  distinct : (s.path ++ s.done).Nodup

/-- a search begins at an entity -/
def startAt (s : Search) (start : String) : Search :=
  { s with frames := [⟨start, 0⟩], path := [start], pathLinks := [], onStack := [(start, 0)] }

section

variable {g : DependencyGraph} {s s' : Search} {top : Frame} {outer : List Frame} {link : Link}

theorem lookup_filter_ne (places : List (String × Nat)) (node id : String) :
    (places.filter (·.1 != node)).lookup id = if id = node then none else places.lookup id := by
  induction places with
  | nil => exact (ite_self none).symm
  | cons entry places ih =>
    obtain ⟨key, place⟩ := entry
    by_cases hkey : key = node
    · rw [List.filter_cons_of_neg (by simp [hkey]), ih, lookup_cons_eq_ite]
      by_cases hid : id = node
      · rw [if_pos hid, if_pos hid]
      · rw [if_neg hid, if_neg hid, if_neg fun heq => hid (heq.trans hkey)]
    · rw [List.filter_cons_of_pos (by simpa using hkey), lookup_cons_eq_ite, lookup_cons_eq_ite, ih]
      by_cases hid : id = node
      · rw [if_pos hid, if_pos hid, if_neg fun heq => hkey (heq.symm.trans hid)]
      · rw [if_neg hid, if_neg hid]

/-- an entry of a list with one more at its end -/
theorem getElem?_concat_eq_some {α : Type} {l : List α} {a b : α} {i : Nat} :
    (l ++ [a])[i]? = some b ↔ l[i]? = some b ∨ i = l.length ∧ b = a := by
  rcases Nat.lt_trichotomy i l.length with hlt | rfl | hgt
  · rw [List.getElem?_append_left hlt]
    exact ⟨.inl, fun h => h.resolve_right fun hlast => absurd hlast.1 hlt.ne⟩
  · rw [List.getElem?_concat_length, List.getElem?_eq_none le_rfl, Option.some_inj]
    simp [eq_comm]
  · rw [List.getElem?_eq_none (by rw [List.length_append, List.length_singleton]; omega),
      List.getElem?_eq_none hgt.le]
    simp [hgt.ne']

namespace Aligned

theorem path_eq (h : Aligned g s) (hframes : s.frames = top :: outer) :
    s.path = (outer.map Frame.node).reverse ++ [top.node] := by
  rw [h.nodes, hframes, List.map_cons, List.reverse_cons]

theorem path_eq_nil (h : Aligned g s) (hframes : s.frames = []) : s.path = [] := by
  rw [h.nodes, hframes]
  rfl

theorem length_path (h : Aligned g s) (hframes : s.frames = top :: outer) :
    s.path.length = s.pathLinks.length + 1 := by
  rw [h.length, h.path_eq hframes, List.length_append, List.length_singleton, Nat.add_sub_cancel]

theorem lookup_eq_none (h : Aligned g s) {id : String} :
    s.onStack.lookup id = none ↔ id ∉ s.path := by
  rw [Option.eq_none_iff_forall_ne_some, List.mem_iff_getElem?, not_exists]
  exact forall_congr' fun i => not_congr (h.places id i)

theorem nodup_path (h : Aligned g s) : s.path.Nodup := (List.nodup_append.mp h.distinct).1

theorem advance (h : Aligned g s) (hframes : s.frames = top :: outer) :
    Aligned g (s.advance top outer) where
  nodes := by
    show s.path = _
    rw [h.nodes, hframes]
    rfl
  length := h.length
  edges := h.edges
  places := h.places
  distinct := h.distinct

theorem record (h : Aligned g s) (c : Found) : Aligned g (s.record c) := by
  obtain ⟨hframes, hpath, hlinks, hplaces, hdone⟩ := record_frames (s := s) c
  refine ⟨?nodes, ?length, ?edges, ?places, ?distinct⟩
  case nodes =>
    rw [hpath, hframes]
    exact h.nodes
  case length =>
    rw [hpath, hlinks]
    exact h.length
  case edges =>
    rw [hpath, hlinks]
    exact h.edges
  case places =>
    rw [hpath, hplaces]
    exact h.places
  case distinct =>
    rw [hpath, hdone]
    exact h.distinct

theorem leave (h : Aligned g s) (hframes : s.frames = top :: outer) :
    Aligned g (s.leave top.node outer) := by
  have hpath := h.path_eq hframes
  have hshort : (s.leave top.node outer).path = (outer.map Frame.node).reverse := by
    show s.path.dropLast = _
    rw [hpath, List.dropLast_concat]
  have hentry : ∀ (i : Nat) (id : String), s.path[i]? = some id ↔
      (outer.map Frame.node).reverse[i]? = some id ∨
        i = (outer.map Frame.node).reverse.length ∧ id = top.node := by
    rw [hpath]
    exact fun i id => getElem?_concat_eq_some
  have hlength := h.length_path hframes
  rw [hpath, List.length_append, List.length_singleton, Nat.add_right_cancel_iff] at hlength
  refine ⟨hshort, ?length, fun i a b ha hb => ?edges, fun id i => ?places, ?distinct⟩
  case length =>
    show s.pathLinks.dropLast.length = _
    rw [hshort, List.length_dropLast, hlength]
  case edges =>
    rw [hshort] at ha hb
    obtain ⟨kind, hkind, hedge⟩ :=
      h.edges i a b ((hentry i a).mpr (.inl ha)) ((hentry (i + 1) b).mpr (.inl hb))
    have hi := (List.getElem?_eq_some_iff.mp hb).1
    refine ⟨kind, ?_, hedge⟩
    show s.pathLinks.dropLast[i]? = _
    rw [List.getElem?_dropLast, if_pos (by omega), hkind]
  case places =>
    show (s.onStack.filter (·.1 != top.node)).lookup id = some i ↔ _
    rw [lookup_filter_ne, hshort]
    by_cases hid : id = top.node
    · -- the entity that was left is not on what remains of the path
      have hnodup := h.nodup_path
      rw [hpath, ← List.concat_eq_append, List.nodup_concat] at hnodup
      rw [if_pos hid, hid]
      exact ⟨nofun, fun hi => absurd (List.mem_of_getElem? hi) hnodup.1⟩
    · rw [if_neg hid, h.places, hentry]
      exact or_iff_left fun hlast => hid hlast.2
  case distinct =>
    have hdistinct := h.distinct
    rw [hpath, List.append_assoc] at hdistinct
    rw [hshort]
    exact hdistinct

theorem enter (h : Aligned g s) (hframes : s.frames = top :: outer)
    (hlink : link ∈ g.dependencies top.node) (hplace : s.onStack.lookup link.entityId = none)
    (hdone : link.entityId ∉ s.done) : Aligned g (s.enter link) := by
  have hnew : link.entityId ∉ s.path := h.lookup_eq_none.mp hplace
  have hlength := h.length_path hframes
  refine ⟨?nodes, ?length, fun i a b ha hb => ?edges, fun id i => ?places, ?distinct⟩
  case nodes =>
    show s.path ++ [link.entityId] = ((⟨link.entityId, 0⟩ :: s.frames).map Frame.node).reverse
    rw [h.nodes, List.map_cons, List.reverse_cons]
  case length =>
    show (s.pathLinks ++ [link.kind]).length = (s.path ++ [link.entityId]).length - 1
    rw [List.length_append, List.length_append, List.length_singleton, List.length_singleton,
      Nat.add_sub_cancel, hlength]
  case edges =>
    show ∃ kind, (s.pathLinks ++ [link.kind])[i]? = some kind ∧ _
    have hlt := (List.getElem?_eq_some_iff.mp hb).1
    change i + 1 < (s.path ++ [link.entityId]).length at hlt
    rw [List.length_append, List.length_singleton] at hlt
    have ha' := (getElem?_concat_eq_some.mp ha).resolve_right (by omega)
    rcases getElem?_concat_eq_some.mp hb with hb' | ⟨hlast, rfl⟩
    · obtain ⟨kind, hkind, hedge⟩ := h.edges i a b ha' hb'
      exact ⟨kind, getElem?_concat_eq_some.mpr (.inl hkind), hedge⟩
    · -- the new link leads from the last entity of the path
      have hi : i = (outer.map Frame.node).reverse.length := by
        rw [h.path_eq hframes, List.length_append, List.length_singleton] at hlast
        exact Nat.add_right_cancel hlast
      rw [h.path_eq hframes, hi, List.getElem?_concat_length, Option.some_inj] at ha'
      rw [← ha']
      exact ⟨link.kind, getElem?_concat_eq_some.mpr (.inr ⟨by omega, rfl⟩), hlink⟩
  case places =>
    show List.lookup id ((link.entityId, s.path.length) :: s.onStack) = some i ↔
      (s.path ++ [link.entityId])[i]? = some id
    rw [lookup_cons_eq_ite, getElem?_concat_eq_some]
    by_cases hid : id = link.entityId
    · have hnone : ¬ s.path[i]? = some id := fun hi => hnew (hid ▸ List.mem_of_getElem? hi)
      rw [if_pos hid, or_iff_right hnone, Option.some_inj, eq_comm]
      exact (and_iff_left hid).symm
    · rw [if_neg hid, h.places]
      exact (or_iff_left fun hlast => hid hlast.2).symm
  case distinct =>
    show ((s.path ++ [link.entityId]) ++ s.done).Nodup
    rw [List.append_assoc, List.singleton_append, List.nodup_middle, List.nodup_cons]
    refine ⟨?_, h.distinct⟩
    rw [List.mem_append, not_or]
    exact ⟨hnew, hdone⟩

theorem startAt (h : Aligned g s) {start : String} (hstart : start ∉ s.done) :
    Aligned g (s.startAt start) where
  nodes := rfl
  length := rfl
  edges _ _ _ _ hb := by cases hb
  places id i := by
    show List.lookup id [(start, 0)] = some i ↔ [start][i]? = some id
    rw [lookup_cons_eq_ite, List.lookup_nil]
    cases i with
    | zero =>
      by_cases hid : id = start
      · simp [hid]
      · simp [hid, Ne.symm hid]
    | succ i => simp
  distinct := List.nodup_cons.mpr ⟨hstart, (List.nodup_append.mp h.distinct).2.1⟩

theorem initial : Aligned g initial where
  nodes := rfl
  length := rfl
  edges _ _ _ ha := by cases ha
  places _ _ := ⟨nofun, nofun⟩
  distinct := .nil

end Aligned

theorem Move.aligned (hmove : Move g s s') (h : Aligned g s) : Aligned g s' := by
  cases hmove with
  | leave hframes _ => exact h.leave hframes
  | pass hframes _ _ => exact h.advance hframes
  | close hframes _ _ _ => exact (h.advance hframes).record _
  | enter hframes hlink hplace hdone =>
    exact (h.advance hframes).enter rfl (List.mem_of_getElem? hlink) hplace hdone

end

/-! ### The end of a search -/

section

variable (g : DependencyGraph) (s : Search)

/-- the ids that were met, in the order of the path and then from the last one left -/
def met : List String := s.path ++ s.done

/-- the ids of the graph that were not met -/
def unmet : List String := g.nodes.filter fun id => !s.met.contains id

/-- the moves that an entity takes when it is entered: one for each link, one to leave it -/
def moves (id : String) : Nat := (g.dependencies id).length + 1

/-- how many more moves there can be -/
def remaining : Nat :=
  (s.frames.map fun f => (g.dependencies f.node).length - f.next + 1).sum +
    ((s.unmet g).map (moves g)).sum

end

section

variable {g : DependencyGraph} {maxCycles : Nat} {s s' : Search}

theorem remaining_of_frames {top : Frame} {outer : List Frame} (hframes : s.frames = top :: outer) :
    s.remaining g = ((g.dependencies top.node).length - top.next + 1) +
      ((outer.map fun f => (g.dependencies f.node).length - f.next + 1).sum +
        ((s.unmet g).map (moves g)).sum) := by
  unfold remaining
  rw [hframes, List.map_cons, List.sum_cons, Nat.add_assoc]

theorem remaining_eq_zero (h : s.remaining g = 0) : s.frames = [] := by
  cases hframes : s.frames with
  | nil => rfl
  | cons top outer =>
    rw [remaining_of_frames hframes] at h
    omega

theorem remaining_advance {top : Frame} {outer : List Frame} {link : Link}
    (hframes : s.frames = top :: outer)
    (hlink : (g.dependencies top.node)[top.next]? = some link) :
    (s.advance top outer).remaining g + 1 = s.remaining g := by
  have hnext := (List.getElem?_eq_some_iff.mp hlink).1
  have hunmet : (s.advance top outer).unmet g = s.unmet g := rfl
  rw [remaining_of_frames hframes, remaining_of_frames (s := s.advance top outer) rfl, hunmet]
  dsimp only
  omega

theorem remaining_record (c : Found) : (s.record c).remaining g = s.remaining g := by
  obtain ⟨hframes, hpath, _, _, hdone⟩ := record_frames (s := s) c
  unfold remaining unmet met
  rw [hframes, hpath, hdone]

/-- Meeting an id of the graph takes its moves from what is left for the ids that were not met. -/
theorem sum_unmet (hbuilt : g.IsBuilt) {id : String} (hmem : id ∈ g.nodes) (hnew : id ∉ s.met)
    (hmet : ∀ other, other ∈ s'.met ↔ other = id ∨ other ∈ s.met) :
    moves g id + ((s'.unmet g).map (moves g)).sum = ((s.unmet g).map (moves g)).sum := by
  have hunmet : s'.unmet g = (s.unmet g).erase id := by
    have hnodup : (s.unmet g).Nodup := hbuilt.nodup_nodes.filter _
    rw [hnodup.erase_eq_filter]
    unfold unmet
    rw [List.filter_filter]
    refine List.filter_congr fun other _ => ?_
    rw [Bool.eq_iff_iff]
    simp only [Bool.not_eq_true', ← Bool.not_eq_true, List.contains_iff_mem, hmet, not_or,
      Bool.and_eq_true, bne_iff_ne]
  have hid : id ∈ s.unmet g := by
    refine List.mem_filter.mpr ⟨hmem, ?_⟩
    rw [Bool.not_eq_true', ← Bool.not_eq_true, List.contains_iff_mem]
    exact hnew
  rw [hunmet, List.sum_map_erase _ hid]

theorem remaining_leave (h : Aligned g s) {top : Frame} {outer : List Frame}
    (hframes : s.frames = top :: outer) :
    s.remaining g =
      ((g.dependencies top.node).length - top.next + 1) + (s.leave top.node outer).remaining g := by
  have hunmet : (s.leave top.node outer).unmet g = s.unmet g := by
    unfold unmet met
    show (g.nodes.filter fun id => !(s.path.dropLast ++ top.node :: s.done).contains id) = _
    rw [h.path_eq hframes, List.dropLast_concat, List.append_assoc, List.singleton_append]
  rw [remaining_of_frames hframes, ← hunmet]
  rfl

/-- What is entered brings its own moves, which are taken from those of what was not met. -/
theorem remaining_enter (hbuilt : g.IsBuilt) {link : Link} (hmem : link.entityId ∈ g.nodes)
    (hnew : link.entityId ∉ s.met) : (s.enter link).remaining g = s.remaining g := by
  have hmet : ∀ other, other ∈ (s.enter link).met ↔ other = link.entityId ∨ other ∈ s.met := by
    intro other
    show other ∈ (s.path ++ [link.entityId]) ++ s.done ↔ _ ∨ other ∈ s.path ++ s.done
    simp only [List.mem_append, List.mem_singleton, or_comm, or_assoc]
  have hsum := sum_unmet hbuilt hmem hnew hmet
  have hentered : (s.enter link).remaining g = moves g link.entityId +
      ((s.frames.map fun f => (g.dependencies f.node).length - f.next + 1).sum +
        (((s.enter link).unmet g).map (moves g)).sum) :=
    remaining_of_frames (s := s.enter link) rfl
  rw [hentered, remaining, ← hsum]
  omega

theorem Move.remaining_lt (hmove : Move g s s') (h : Aligned g s) (hbuilt : g.IsBuilt) :
    s'.remaining g < s.remaining g := by
  cases hmove with
  | leave hframes _ =>
    have hleave := remaining_leave h hframes
    omega
  | pass hframes hlink _ =>
    have hadvance := remaining_advance hframes hlink
    omega
  | close hframes hlink _ _ =>
    have hadvance := remaining_advance hframes hlink
    rw [remaining_record]
    omega
  | enter hframes hlink hplace hdone =>
    have hadvance := remaining_advance hframes hlink
    have hmem := (hbuilt.ends_mem_nodes (List.mem_of_getElem? hlink)).2
    rw [remaining_enter hbuilt hmem]
    · omega
    · rw [met, List.mem_append, not_or]
      exact ⟨h.lookup_eq_none.mp hplace, hdone⟩

/-- The moves of all ids together: one for every edge, and one to leave every id. -/
theorem sum_moves (hbuilt : g.IsBuilt) :
    (g.nodes.map (moves g)).sum = g.edgeCount + g.nodeCount := by
  unfold moves
  rw [List.sum_map_add, hbuilt.sum_length, List.map_const', List.sum_replicate_nat, Nat.mul_one]
  rfl

/-- An id that the graph does not have has no links. -/
theorem moves_of_not_mem_nodes (hbuilt : g.IsBuilt) {id : String} (hmem : id ∉ g.nodes) :
    moves g id = 1 := by
  have hlinks : g.dependencies id = [] :=
    List.eq_nil_iff_forall_not_mem.mpr fun link hlink => hmem (hbuilt.ends_mem_nodes hlink).1
  rw [moves, hlinks, List.length_nil]

theorem remaining_startAt_eq (start : String) :
    (s.startAt start).remaining g =
      moves g start + (((s.startAt start).unmet g).map (moves g)).sum := by
  rw [remaining_of_frames (s := s.startAt start) rfl]
  exact congrArg _ (Nat.zero_add _)

/-- The bound on the number of steps is large enough for the search from one entity. -/
theorem remaining_startAt (hbuilt : g.IsBuilt) {start : String} :
    (s.startAt start).remaining g ≤ bound g := by
  have hremaining := remaining_startAt_eq (g := g) (s := s) start
  have htotal := sum_moves hbuilt
  by_cases hmem : start ∈ g.nodes
  · have hsub : ((s.startAt start).unmet g).Sublist (g.nodes.erase start) := by
      rw [hbuilt.nodup_nodes.erase_eq_filter]
      refine List.monotone_filter_right g.nodes fun id hid => ?_
      rw [Bool.not_eq_true', ← Bool.not_eq_true, List.contains_iff_mem] at hid
      exact bne_iff_ne.mpr fun heq => hid (heq ▸ List.mem_cons_self)
    have hle := (hsub.map (moves g)).sum_le_sum fun _ _ => Nat.zero_le _
    have hsum := List.sum_map_erase (moves g) hmem
    unfold bound
    omega
  · have hone := moves_of_not_mem_nodes hbuilt hmem
    have hle := (List.filter_sublist (p := fun id => !(s.startAt start).met.contains id)
      (l := g.nodes)).map (moves g) |>.sum_le_sum fun _ _ => Nat.zero_le _
    have hle' : (((s.startAt start).unmet g).map (moves g)).sum ≤ (g.nodes.map (moves g)).sum := hle
    unfold bound
    omega

/-! ### The loop without a bound -/

/-- the start of a search, or one iteration of its loop -/
structure Change where
  before : Search
  after : Search

/-- the iterations of a loop, until the stack is empty or the cap is reached -/
inductive Runs (g : DependencyGraph) (maxCycles : Nat) :
    Search → List Change → Bool × Search → Prop where
  | finished {s : Search} (hstep : s.step g maxCycles = .finished) : Runs g maxCycles s [] (true, s)
  | capped {s s' : Search} (hstep : s.step g maxCycles = .capped s') :
      Runs g maxCycles s [⟨s, s'⟩] (false, s')
  | running {s s' : Search} {log : List Change} {result : Bool × Search}
      (hstep : s.step g maxCycles = .running s') (hrest : Runs g maxCycles s' log result) :
      Runs g maxCycles s (⟨s, s'⟩ :: log) result

/-- With a bound that is large enough the loop ends as it does without one. -/
theorem exists_runs (hbuilt : g.IsBuilt) {fuel : Nat} (h : Aligned g s)
    (hfuel : s.remaining g ≤ fuel) : ∃ log, Runs g maxCycles s log (loop g maxCycles fuel s) := by
  induction fuel generalizing s with
  | zero =>
    have hframes : s.frames = [] := remaining_eq_zero (Nat.le_zero.mp hfuel)
    exact ⟨[], .finished (step_eq_finished.mpr hframes)⟩
  | succ fuel ih =>
    unfold loop
    cases hstep : s.step g maxCycles with
    | finished => exact ⟨[], .finished hstep⟩
    | capped s' => exact ⟨_, .capped hstep⟩
    | running s' =>
      have hmove : Move g s s' := move_of_step (.inl hstep)
      have hlt := hmove.remaining_lt h hbuilt
      obtain ⟨log, hrest⟩ := ih (hmove.aligned h) (by omega)
      exact ⟨_, .running hstep hrest⟩

theorem Runs.moves {log : List Change} {result : Bool × Search}
    (hrun : Runs g maxCycles s log result) :
    Relation.ReflTransGen (Move g) s result.2 ∧
      if result.1 = true then result.2.frames = [] else result.2.capped maxCycles = true := by
  induction hrun with
  | finished hstep => exact ⟨.refl, step_eq_finished.mp hstep⟩
  | capped hstep =>
    have hcapped := capped_of_step hstep
    exact ⟨.single (move_of_step (.inr ⟨hstep, hcapped⟩)), hcapped⟩
  | running hstep _ ih => exact ⟨.head (move_of_step (.inl hstep)) ih.1, ih.2⟩

/-- A search goes on, move after move, until nothing is open or the cap is reached. -/
theorem loop_moves (hbuilt : g.IsBuilt) {fuel : Nat} {ended : Bool} (h : Aligned g s)
    (hfuel : s.remaining g ≤ fuel) (hloop : loop g maxCycles fuel s = (ended, s')) :
    Relation.ReflTransGen (Move g) s s' ∧
      if ended = true then s'.frames = [] else s'.capped maxCycles = true := by
  obtain ⟨log, hrun⟩ : ∃ log, Runs g maxCycles s log (loop g maxCycles fuel s) :=
    exists_runs hbuilt h hfuel
  rw [hloop] at hrun
  exact hrun.moves

end

/-! ### One search after another -/

section

variable {g : DependencyGraph} {maxCycles : Nat} {starts : List String} {s s' : Search}

/-- a move, or the start of one more search when nothing is open -/
inductive Next (g : DependencyGraph) (starts : List String) (s : Search) : Search → Prop where
  | move {s' : Search} (hmove : Move g s s') : Next g starts s s'
  | start {id : String} (hmem : id ∈ starts) (hnew : id ∉ s.done) (hclosed : s.frames = []) :
      Next g starts s (s.startAt id)

theorem Next.aligned (hnext : Next g starts s s') (h : Aligned g s) : Aligned g s' := by
  cases hnext with
  | move hmove => exact hmove.aligned h
  | start _ hnew _ => exact h.startAt hnew

theorem Next.met_subset (hnext : Next g starts s s') (h : Aligned g s) : s.met ⊆ s'.met := by
  cases hnext with
  | start _ _ hclosed =>
    rw [met, h.path_eq_nil hclosed, List.nil_append]
    exact List.subset_cons_self _ _
  | move hmove =>
    cases hmove with
    | @leave top outer hframes _ =>
      show s.path ++ s.done ⊆ s.path.dropLast ++ top.node :: s.done
      rw [h.path_eq hframes, List.dropLast_concat, List.append_assoc, List.singleton_append]
      exact List.Subset.refl _
    | pass _ _ _ => exact List.Subset.refl _
    | @close top outer link place _ _ _ _ =>
      obtain ⟨_, hpath, _, _, hdone⟩ :=
        record_frames (s := s.advance top outer) (s.closeAt place link)
      rw [met, met, hpath, hdone]
      exact List.Subset.refl _
    | @enter top outer link _ _ _ _ =>
      show s.path ++ s.done ⊆ (s.path ++ [link.entityId]) ++ s.done
      rw [List.append_assoc]
      exact List.append_subset.mpr ⟨List.subset_append_left _ _,
        List.Subset.trans (List.subset_cons_self _ _) (List.subset_append_right _ _)⟩

theorem aligned_of_next (hsteps : Relation.ReflTransGen (Next g starts) s s') (h : Aligned g s) :
    Aligned g s' ∧ s.met ⊆ s'.met := by
  induction hsteps with
  | refl => exact ⟨h, List.Subset.refl _⟩
  | tail _ hnext ih => exact ⟨hnext.aligned ih.1, List.Subset.trans ih.2 (hnext.met_subset ih.1)⟩

theorem runFrom_next (hbuilt : g.IsBuilt) {id : String} {ended : Bool} (h : Aligned g s)
    (hclosed : s.frames = []) (hmem : id ∈ starts)
    (hrun : runFrom g maxCycles s id = (ended, s')) :
    Relation.ReflTransGen (Next g starts) s s' ∧
      if ended = true then s'.frames = [] ∧ id ∈ s'.done else s'.capped maxCycles = true := by
  unfold runFrom at hrun
  by_cases hdone : id ∈ s.done
  · rw [if_pos (List.contains_iff_mem.mpr hdone)] at hrun
    cases hrun
    exact ⟨.refl, hclosed, hdone⟩
  · rw [if_neg (by rwa [List.contains_iff_mem])] at hrun
    have hstart : Aligned g (s.startAt id) := h.startAt hdone
    obtain ⟨hmoves, hend⟩ := loop_moves hbuilt hstart (remaining_startAt hbuilt) hrun
    have hsteps : Relation.ReflTransGen (Next g starts) (s.startAt id) s' :=
      hmoves.lift (fun s => s) fun _ _ => .move
    refine ⟨.head (.start hmem hdone hclosed) hsteps, ?_⟩
    cases ended with
    | false => exact hend
    | true =>
      obtain ⟨haligned, hsub⟩ := aligned_of_next hsteps hstart
      have hmet : id ∈ s'.path ++ s'.done := hsub List.mem_cons_self
      rw [haligned.path_eq_nil hend, List.nil_append] at hmet
      exact ⟨hend, hmet⟩

/-- All searches together go on step after step. Unless the cap stops them, every start was left. -/
theorem runAll_next (hbuilt : g.IsBuilt) {ids : List String} {ended : Bool} (hids : ids ⊆ starts)
    (h : Aligned g s) (hclosed : s.frames = []) (hrun : runAll g maxCycles s ids = (ended, s')) :
    Relation.ReflTransGen (Next g starts) s s' ∧
      if ended = true then s'.frames = [] ∧ ∀ id ∈ ids, id ∈ s'.done
      else s'.capped maxCycles = true := by
  induction ids generalizing s with
  | nil =>
    cases hrun
    exact ⟨.refl, hclosed, nofun⟩
  | cons id ids ih =>
    unfold runAll at hrun
    obtain ⟨first, mid, hfirst⟩ : ∃ first mid, runFrom g maxCycles s id = (first, mid) :=
      ⟨_, _, rfl⟩
    obtain ⟨hsteps, hmid⟩ := runFrom_next hbuilt h hclosed (hids List.mem_cons_self) hfirst
    rw [hfirst] at hrun
    cases first with
    | false =>
      cases hrun
      exact ⟨hsteps, hmid⟩
    | true =>
      obtain ⟨hopen, hdone⟩ := hmid
      have haligned := (aligned_of_next hsteps h).1
      obtain ⟨hrest, hend⟩ := ih (List.subset_of_cons_subset hids) haligned hopen hrun
      refine ⟨hsteps.trans hrest, ?_⟩
      cases ended with
      | false => exact hend
      | true =>
        obtain ⟨hclosed', hall⟩ := hend
        obtain ⟨haligned', hsub⟩ := aligned_of_next hrest haligned
        have hmet : id ∈ s'.path ++ s'.done := hsub (List.mem_append_right _ hdone)
        rw [haligned'.path_eq_nil hclosed', List.nil_append] at hmet
        refine ⟨hclosed', fun other hother => ?_⟩
        rcases List.mem_cons.mp hother with rfl | hother
        · exact hmet
        · exact hall other hother

end

end CodeAtlas.Cycles.Search
