import CodeAtlas.Proofs.Query.Cycles.Explored
import CodeAtlas.Proofs.Query.Cycles.Report

/-!
# Cycles that are not missed

Without a cap the search reports, for every circuit within its reach, a cycle that is closed by an
edge of the circuit. Not every circuit is reported, but nothing is reported only if there is none.

* `Tables.Circuit`, `Tables.Connected`   circuits, and the ids that lie on circuits together;
* `rel_of_circular`        a preorder that holds along a circuit holds all around it;
* `CycleReport.Complete`   what it means that a report misses nothing;
* `find_complete`          without a cap every report is of this kind.
-/

namespace CodeAtlas

open Cycles

/-- ids, not all of them the same, each of which depends on the next one, and the last on the first -/
structure Tables.Circuit (t : Tables) (ids : List String) : Prop where
  differ : ∃ a ∈ ids, ∃ b ∈ ids, a ≠ b
  edges : ∀ i a b, ids[i]? = some a → ids[(i + 1) % ids.length]? = some b → t.Depends a b

/-- dependency edges lead from each of two ids to the other -/
def Tables.Connected (t : Tables) (a b : String) : Prop :=
  Relation.ReflTransGen t.Depends a b ∧ Relation.ReflTransGen t.Depends b a

/-- every circuit within reach has an edge that leads from the last entity of a reported cycle to its
first one; nothing is reported only if no circuit is within reach; and a cycle is reported of any
connected ids within reach -/
structure CycleReport.Complete (options : Options) (t : Tables) (r : CycleReport) : Prop where
  circuits : ∀ ids, t.Circuit ids → (∃ id ∈ ids, options.Reaches t id) →
    ∃ c ∈ r.cycles, ∃ i first last, c.entities.head? = some first ∧
      c.entities.getLast? = some last ∧ ids[i]? = some last.id ∧
      ids[(i + 1) % ids.length]? = some first.id
  empty : r.cycles = [] ↔ ∀ ids, t.Circuit ids → ∀ id ∈ ids, ¬ options.Reaches t id
  components : ∀ a b, a ≠ b → t.Connected a b → options.Reaches t a →
    ∃ c ∈ r.cycles, ∀ e ∈ c.entities, t.Connected a e.id

/-! ### Around a circuit -/

/-- A reflexive and transitive relation between neighbours holds all around. -/
theorem rel_of_circular {R : String → String → Prop} {ids : List String} (hrefl : ∀ a, R a a)
    (htrans : ∀ a b c, R a b → R b c → R a c)
    (hnext : ∀ i a b, ids[i]? = some a → ids[(i + 1) % ids.length]? = some b → R a b) :
    ∀ a ∈ ids, ∀ b ∈ ids, R a b := by
  -- first from one place to the one that is some steps further
  have hsteps : ∀ (k i : Nat) (a b : String), ids[i]? = some a →
      ids[(i + k) % ids.length]? = some b → R a b := by
    intro k
    induction k with
    | zero =>
      intro i a b ha hb
      have hi := (List.getElem?_eq_some_iff.mp ha).1
      rw [Nat.add_zero, Nat.mod_eq_of_lt hi, ha, Option.some_inj] at hb
      exact hb ▸ hrefl a
    | succ k ih =>
      intro i a b ha hb
      have hi := (List.getElem?_eq_some_iff.mp ha).1
      have hmid : (i + k) % ids.length < ids.length := Nat.mod_lt _ (Nat.zero_lt_of_lt hi)
      have hb' : ids[((i + k) % ids.length + 1) % ids.length]? = some b := by
        rw [Nat.mod_add_mod]
        exact hb
      exact htrans _ _ _ (ih i a _ ha (List.getElem?_eq_getElem hmid))
        (hnext _ _ b (List.getElem?_eq_getElem hmid) hb')
  intro a ha b hb
  obtain ⟨i, hi⟩ := List.mem_iff_getElem?.mp ha
  obtain ⟨j, hj⟩ := List.mem_iff_getElem?.mp hb
  have hlt := (List.getElem?_eq_some_iff.mp hi).1
  have hlt' := (List.getElem?_eq_some_iff.mp hj).1
  refine hsteps (j + ids.length - i) i a b hi ?_
  rw [show i + (j + ids.length - i) = j + ids.length by omega, Nat.add_mod_right,
    Nat.mod_eq_of_lt hlt', hj]

section

variable {t : Tables} {options : Options}

theorem Tables.Circuit.leads {ids : List String} (h : t.Circuit ids) :
    ∀ a ∈ ids, ∀ b ∈ ids, Relation.ReflTransGen t.Depends a b :=
  rel_of_circular (fun _ => .refl) (fun _ _ _ => .trans) fun i a b ha hb =>
    .single (h.edges i a b ha hb)

theorem Cycles.Options.Reaches.walk {a b : String} (h : options.Reaches t a)
    (hwalk : Relation.ReflTransGen t.Depends a b) : options.Reaches t b := by
  obtain ⟨start, hstart, hreach⟩ := h
  exact ⟨start, hstart, hreach.trans hwalk⟩

theorem Cycle.Genuine.circuit {c : Cycle} (h : c.Genuine options t) : t.Circuit c.ids := by
  have hlength : c.ids.length = c.entities.length := List.length_map _
  have htwo := h.two
  refine ⟨?_, fun i a b ha hb => ?_⟩
  · have hfirst : 0 < c.ids.length := by omega
    have hsecond : 1 < c.ids.length := by omega
    refine ⟨c.ids[0], List.getElem_mem hfirst, c.ids[1], List.getElem_mem hsecond, fun heq => ?_⟩
    have hplaces := h.distinct.getElem_inj_iff.mp heq
    omega
  · rw [hlength] at hb
    unfold Cycle.ids at ha hb
    rw [List.getElem?_map, Option.map_eq_some_iff] at ha hb
    obtain ⟨e, he, rfl⟩ := ha
    obtain ⟨e', he', rfl⟩ := hb
    obtain ⟨kind, _, hkind, hedge⟩ := h.edges i e e' he he'
    exact ⟨kind, hkind, hedge⟩

end

namespace Cycles

/-! ### The end of a search of a store -/

theorem Found.Closed.exists_edge {g : DependencyGraph} {f : Found} (h : f.Closed g) {id : String}
    (hid : id ∈ f.ids) : ∃ target, g.Edge id target := by
  obtain ⟨i, hi⟩ := List.mem_iff_getElem?.mp hid
  have htwo := h.two
  have hnext : (i + 1) % f.ids.length < f.ids.length := Nat.mod_lt _ (by omega)
  obtain ⟨kind, _, hedge⟩ := h.edges i id _ hi (List.getElem?_eq_getElem hnext)
  exact ⟨_, kind, hedge⟩

/-- The ids of a closed cycle are stored, since edges start at stored entities. -/
theorem Found.Closed.exists_row {g : DependencyGraph} {f : Found} {t : Tables} (h : f.Closed g)
    (hload : DependencyGraph.load t = .ok g)
    (hends : ∀ r ∈ t.relationshipRows, ∃ e ∈ t.entityRows, e.id = r.sourceId) {id : String}
    (hid : id ∈ f.ids) : ∃ e ∈ t.entityRows, e.id = id := by
  obtain ⟨target, hedge⟩ := h.exists_edge hid
  obtain ⟨_, _, r, hr, hsource, _, _⟩ := (edge_iff_depends hload).mp hedge
  obtain ⟨e, he, hsource'⟩ := hends r hr
  exact ⟨e, he, hsource'.trans hsource⟩

/-- a search of a store that came to its end, and the cycles that are reported of it -/
structure Finished (options : Options) (t : Tables) (g : DependencyGraph) (starts : List String)
    (s : Search) (cycles : List Cycle) : Prop where
  holds : t.HoldsGraph
  load : DependencyGraph.load t = .ok g
  mem_starts : ∀ id, id ∈ starts ↔ options.IsStart t id
  aligned : Search.Aligned g s
  recorded : Search.Recorded g starts s
  explored : Search.Explored g s
  closed : s.frames = []
  left : ∀ id ∈ starts, id ∈ s.done
  shown : materialize t s.found = .ok cycles
  circuits : ∀ c ∈ cycles, t.Circuit c.ids

/-- Without a cap all searches come to their end. -/
theorem finished_of_compute {t : Tables} {name : Option String} {r : CycleReport}
    (hholds : t.HoldsGraph) (h : compute ⟨name, 0⟩ t = .ok r) :
    ∃ g starts s, Finished ⟨name, 0⟩ t g starts s r.cycles := by
  obtain ⟨g, ids, ended, s, hload, hids, hrun, hcycles, _⟩ := compute_eq_ok h
  obtain ⟨haligned, hrecorded⟩ := recorded_of_runAll hload hrun
  obtain ⟨hsteps, hend⟩ := Search.runAll_next (DependencyGraph.isBuilt_of_load hload)
    (List.Subset.refl ids) .initial rfl hrun
  have hexplored := Search.explored_of_next hsteps .initial .initial .initial
  have hcircuits : ∀ c ∈ r.cycles, t.Circuit c.ids := fun c hc =>
    ((compute_genuine h).cycles c hc).circuit
  cases ended with
  | true =>
    exact ⟨g, ids, s, hholds, hload, mem_starts hload hids, haligned, hrecorded, hexplored, hend.1,
      hend.2, hcycles, hcircuits⟩
  | false => cases hend

namespace Finished

variable {options : Options} {t : Tables} {g : DependencyGraph} {starts : List String} {s : Search}
  {cycles : List Cycle} (h : Finished options t g starts s cycles)
include h

theorem walk_iff {a b : String} :
    Relation.ReflTransGen g.Edge a b ↔ Relation.ReflTransGen t.Depends a b := by
  have heq : g.Edge = t.Depends := by
    funext a b
    exact propext (edge_iff_depends h.load)
  rw [heq]

theorem mem_done {id : String} (hreach : options.Reaches t id) : id ∈ s.done := by
  obtain ⟨start, hstart, hwalk⟩ := hreach
  exact Search.mem_done_of_walk h.aligned h.recorded h.explored h.closed
    (h.left start ((h.mem_starts start).mpr hstart)) (h.walk_iff.mpr hwalk)

/-- A recorded cycle is reported: all of its ids are stored, being the sources of edges. -/
theorem exists_cycle {source target : String} (hcloses : s.Closes source target) :
    ∃ c ∈ cycles, ∃ first last, c.entities.head? = some first ∧ c.entities.getLast? = some last ∧
      first.id = target ∧ last.id = source := by
  obtain ⟨f, hf, hhead, hlast⟩ := hcloses
  obtain ⟨kept, _, hshows, hkept⟩ := materialize_eq_ok h.shown
  have hmem : f ∈ kept := by
    rcases hkept f hf with hmem | ⟨id, hid, hmissing⟩
    · exact hmem
    · obtain ⟨e, he, hid'⟩ :=
        (h.recorded.closed f hf).exists_row h.load (fun r hr => (h.holds.ends r hr).1) hid
      exact absurd hid' (hmissing e he)
  obtain ⟨c, hc, hshown⟩ := exists_of_forall₂_of_mem_left hshows hmem
  have hids : c.entities.map (·.id) = f.ids := hshown.ids
  rw [← hids, List.head?_map, Option.map_eq_some_iff] at hhead
  rw [← hids, List.getLast?_map, Option.map_eq_some_iff] at hlast
  obtain ⟨first, hfirst, hfirstId⟩ := hhead
  obtain ⟨last, hlast, hlastId⟩ := hlast
  exact ⟨c, hc, first, last, hfirst, hlast, hfirstId, hlastId⟩

/-- An edge of a circuit closes a recorded cycle. Otherwise the places in the list of what was left
would never go back around the circuit, and all of them would be the same. -/
theorem closes_of_circuit {ids : List String} (hcircuit : t.Circuit ids)
    (hleft : ∀ id ∈ ids, id ∈ s.done) :
    ∃ i a b, ids[i]? = some a ∧ ids[(i + 1) % ids.length]? = some b ∧ s.Closes a b := by
  by_contra hnone
  have hle : ∀ a ∈ ids, ∀ b ∈ ids, s.done.idxOf a ≤ s.done.idxOf b := by
    refine rel_of_circular (fun _ => Nat.le_refl _) (fun _ _ _ => Nat.le_trans) ?_
    intro i a b ha hb
    have hedge := (edge_iff_depends h.load).mpr (hcircuit.edges i a b ha hb)
    have hplaces := (Search.closed_of_explored h.aligned h.recorded h.explored h.closed
      (hleft a (List.mem_of_getElem? ha)) hedge).2
    rcases hplaces with hcloses | hle
    · exact absurd ⟨i, a, b, ha, hb, hcloses⟩ hnone
    · exact hle
  obtain ⟨a, ha, b, hb, hne⟩ := hcircuit.differ
  have heq := Nat.le_antisymm (hle a ha b hb) (hle b hb a ha)
  exact hne ((List.idxOf_inj (hleft a ha)).mp heq)

/-- One of the walks between two connected ids has an edge that closes a recorded cycle. -/
theorem closes_of_connected {a b : String} (hne : a ≠ b) (hconnected : t.Connected a b)
    (ha : a ∈ s.done) (hb : b ∈ s.done) :
    ∃ x y, Relation.ReflTransGen t.Depends a x ∧ Relation.ReflTransGen t.Depends y a ∧
      s.Closes x y := by
  obtain ⟨hab, hba⟩ := hconnected
  have hthere := Search.place_le_or_recorded h.aligned h.recorded h.explored h.closed ha
    (h.walk_iff.mpr hab)
  have hback := Search.place_le_or_recorded h.aligned h.recorded h.explored h.closed hb
    (h.walk_iff.mpr hba)
  simp only [h.walk_iff] at hthere hback
  rcases hthere with ⟨x, y, hax, _, hyb, hcloses⟩ | hle
  · exact ⟨x, y, hax, hyb.trans hba, hcloses⟩
  rcases hback with ⟨x, y, hbx, _, hya, hcloses⟩ | hle'
  · exact ⟨x, y, hab.trans hbx, hya, hcloses⟩
  · exact absurd ((List.idxOf_inj ha).mp (Nat.le_antisymm hle hle')) hne

/-- A cycle that an edge of a component closes is within the component. -/
theorem exists_cycle_of_connected {a x y : String} (hax : Relation.ReflTransGen t.Depends a x)
    (hya : Relation.ReflTransGen t.Depends y a) (hcloses : s.Closes x y) :
    ∃ c ∈ cycles, ∀ e ∈ c.entities, t.Connected a e.id := by
  obtain ⟨c, hc, first, last, hfirst, hlast, rfl, rfl⟩ := h.exists_cycle hcloses
  have haround := (h.circuits c hc).leads
  have hfirst' : first.id ∈ c.ids := List.mem_map_of_mem (List.mem_of_head? hfirst)
  have hlast' : last.id ∈ c.ids := List.mem_map_of_mem (List.mem_of_getLast? hlast)
  refine ⟨c, hc, fun e he => ?_⟩
  have he' : e.id ∈ c.ids := List.mem_map_of_mem he
  exact ⟨hax.trans (haround _ hlast' _ he'), (haround _ he' _ hfirst').trans hya⟩

end Finished

/-! ### Reports -/

theorem compute_complete {t : Tables} {name : Option String} {r : CycleReport}
    (hholds : t.HoldsGraph) (h : compute ⟨name, 0⟩ t = .ok r) : r.Complete ⟨name, 0⟩ t := by
  obtain ⟨g, starts, s, hfinished⟩ := finished_of_compute hholds h
  have hcircuits : ∀ ids, t.Circuit ids → (∃ id ∈ ids, Options.Reaches ⟨name, 0⟩ t id) →
      ∃ c ∈ r.cycles, ∃ i first last, c.entities.head? = some first ∧
        c.entities.getLast? = some last ∧ ids[i]? = some last.id ∧
        ids[(i + 1) % ids.length]? = some first.id := by
    rintro ids hcircuit ⟨id, hid, hreach⟩
    have hleft : ∀ a ∈ ids, a ∈ s.done := fun a ha =>
      hfinished.mem_done (hreach.walk (hcircuit.leads id hid a ha))
    obtain ⟨i, a, b, ha, hb, hcloses⟩ := hfinished.closes_of_circuit hcircuit hleft
    obtain ⟨c, hc, first, last, hfirst, hlast, rfl, rfl⟩ := hfinished.exists_cycle hcloses
    exact ⟨c, hc, i, first, last, hfirst, hlast, ha, hb⟩
  refine ⟨hcircuits, ⟨?_, ?_⟩, ?_⟩
  · intro hempty ids hcircuit id hid hreach
    obtain ⟨c, hc, _⟩ := hcircuits ids hcircuit ⟨id, hid, hreach⟩
    rw [hempty] at hc
    cases hc
  · intro hnone
    refine List.eq_nil_iff_forall_not_mem.mpr fun c hc => ?_
    have hcycle := (compute_genuine h).cycles c hc
    obtain ⟨_, hid, _⟩ := hcycle.circuit.differ
    obtain ⟨e, he, rfl⟩ := List.mem_map.mp hid
    exact hnone c.ids hcycle.circuit e.id hid (hcycle.reached e he)
  · intro a b hne hconnected hreach
    have ha := hfinished.mem_done hreach
    have hb := hfinished.mem_done (hreach.walk hconnected.1)
    obtain ⟨x, y, hax, hya, hcloses⟩ := hfinished.closes_of_connected hne hconnected ha hb
    exact hfinished.exists_cycle_of_connected hax hya hcloses

/-- Without a cap the search misses no circuit of a store that can be queried. -/
theorem find_complete (name : Option String) (db : Database) (h : db.tables.HoldsGraph) :
    ∃ r, (find ⟨name, 0⟩).runOn db = (.ok r, db) ∧ r.Complete ⟨name, 0⟩ db.tables := by
  obtain ⟨r, hr⟩ := exists_compute h ⟨name, 0⟩
  exact ⟨r, by rw [find_runOn, hr], compute_complete h hr⟩

theorem find_complete_named :
    ∃ db r, (find ⟨some "c", 0⟩).runOn db = (.ok r, db) ∧
      r.cycles.map (fun c => c.entities.map (·.name)) = [["c", "a", "b"], ["a", "b"]] ∧
      r.Complete ⟨some "c", 0⟩ db.tables := by
  obtain ⟨r, hr, hcomplete⟩ := find_complete (some "c") _ holdsGraph_storingTwoCycles
  have hlist : ((find ⟨some "c", 0⟩).runOn
        (storingTwoCycles.run.runOn (Database.opened true)).2).1.map
      (fun r => r.cycles.map fun c => c.entities.map (·.name)) =
      .ok [["c", "a", "b"], ["a", "b"]] := by
    rw [Database.opened_true]
    decide +kernel
  rw [hr] at hlist
  exact ⟨_, r, hr, Except.ok.inj hlist, hcomplete⟩

end Cycles

end CodeAtlas
