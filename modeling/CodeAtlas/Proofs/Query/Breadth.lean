import CodeAtlas.Proofs.Query.Adjacency
import CodeAtlas.Query.BlastRadius

/-!
# Breadth-first search

The search of the blast radius, state after state. Every visited id has a level, zero for the seeds
and one more than its depth for what is affected; the list of these levels only grows at its end.

* `Search.levels`        the visited ids in their order, with their levels;
* `Search.Ordered`       levels go up in steps of one, and the queue is what of them is not expanded;
* `Search.Invariant`     in addition, what is expanded has all of its dependents within one level;
* `Invariant.steps`      every state of a search has it;
* `loop_eq_ok`           the search ends with an empty queue;
* `Invariant.mem_levels` then the levels are the distances.
-/

namespace CodeAtlas

/-! ### Distances -/

namespace Tables

/-- as many dependency edges as the number says lead from an id to an entity of a file -/
def LeadsTo (t : Tables) (filePath : String) : Nat → String → Prop
  | 0, id => ∃ r ∈ t.entityRows, r.filePath = filePath ∧ r.id = id
  | n + 1, id => ∃ target, t.Depends id target ∧ t.LeadsTo filePath n target

/-- the length of a shortest path from an id to an entity of a file -/
def Distance (t : Tables) (filePath id : String) (n : Nat) : Prop :=
  t.LeadsTo filePath n id ∧ ∀ m < n, ¬ t.LeadsTo filePath m id

end Tables

namespace BlastRadius.Search

/-- the visited ids with their levels, in the order in which they were visited -/
def levels (seeds : List String) (s : Search) : List (String × Nat) :=
  seeds.map (·, 0) ++ s.affected.map fun a => (a.entity.id, a.depth + 1)

section

variable (g : DependencyGraph) (t : Tables) (maxDepth : Nat) (seeds : List String)

/-- what a link to something new does, by what is stored of it -/
def meet (depth : Nat) (s : Search) (link : Link) : Option Entity → Search
  | none => { s with visited := link.entityId :: s.visited }
  | some e =>
    { queue := s.queue ++ [(link.entityId, depth + 1)].filter (·.2 < maxDepth)
      visited := link.entityId :: s.visited
      affected := s.affected ++ [⟨e, depth, link.kind⟩] }

/-- one id of the queue is expanded -/
def Steps (s s' : Search) : Prop := s.step g t maxDepth = .ok (some s')

/-- levels go up, and what is not deepest is expanded or in the queue -/
structure Ordered (expanded : List (String × Nat)) (s : Search) : Prop where
  distinct : ((s.levels seeds).map Prod.fst).Nodup
  visited : ∀ id, id ∈ s.visited ↔ ∃ n, (id, n) ∈ s.levels seeds
  sorted : (s.levels seeds).Pairwise fun a b => a.2 ≤ b.2
  deepest : ∀ l ∈ s.levels seeds, l.2 ≤ maxDepth
  queued : (s.levels seeds).filter (·.2 < maxDepth) = expanded ++ s.queue
  reached : ∀ a ∈ s.affected, ∃ id,
    (id, a.depth) ∈ s.levels seeds ∧ ⟨a.entity.id, a.kind⟩ ∈ g.dependents id
  stored : ∀ a ∈ s.affected, ∃ r ∈ t.entityRows, r.read = .ok a.entity

/-- the dependents of an id are at most one level further -/
def Covers (s : Search) (x : String × Nat) : Prop :=
  ∀ link ∈ g.dependents x.1, ∃ n, (link.entityId, n) ∈ s.levels seeds ∧ n ≤ x.2 + 1

/-- what holds of every state of a search -/
structure Invariant (expanded : List (String × Nat)) (s : Search) : Prop
    extends Ordered g t maxDepth seeds expanded s where
  covered : ∀ x ∈ expanded, Covers g seeds s x
  span : ∀ l ∈ s.levels seeds, ∀ q ∈ s.queue, l.2 ≤ q.2 + 1

/-- what holds while the dependents of `x` are visited -/
structure Expanding (expanded : List (String × Nat)) (x : String × Nat) (s : Search) : Prop
    extends Ordered g t maxDepth seeds (expanded ++ [x]) s where
  covered : ∀ y ∈ expanded, Covers g seeds s y
  ahead : ∀ q ∈ s.queue, x.2 ≤ q.2
  below : ∀ l ∈ s.levels seeds, l.2 ≤ x.2 + 1

/-- the ids of the graph that were not visited -/
def unvisited (s : Search) : List String := g.nodes.filter fun id => !s.visited.contains id

/-- how many more steps there can be -/
def remaining (s : Search) : Nat := s.queue.length + (s.unvisited g).length

end

variable {g : DependencyGraph} {t : Tables} {maxDepth : Nat} {seeds : List String}
  {s s' : Search} {expanded : List (String × Nat)} {x : String × Nat}

theorem Covers.mono (h : Covers g seeds s x) (hlevels : s.levels seeds ⊆ s'.levels seeds) :
    Covers g seeds s' x := by
  intro link hlink
  obtain ⟨n, hmem, hle⟩ := h link hlink
  exact ⟨n, hlevels hmem, hle⟩

/-! ### Visiting one link -/

theorem visit_of_visited {link : Link} {depth : Nat} (h : link.entityId ∈ s.visited) :
    visit t maxDepth depth s link = .ok s := by
  unfold visit
  rw [if_pos (List.contains_iff_mem.mpr h)]

theorem visit_eq_ok {link : Link} {depth : Nat} : visit t maxDepth depth s link = .ok s' ↔
    link.entityId ∈ s.visited ∧ s' = s ∨ link.entityId ∉ s.visited ∧
      ∃ found, Entities.find? link.entityId t = .ok found ∧ s' = s.meet maxDepth depth link found := by
  by_cases hseen : link.entityId ∈ s.visited
  · rw [visit_of_visited hseen]
    refine ⟨fun h => .inl ⟨hseen, (Except.ok.inj h).symm⟩, ?_⟩
    rintro (⟨_, rfl⟩ | ⟨hnew, _⟩)
    · rfl
    · exact absurd hseen hnew
  · have hvisit : visit t maxDepth depth s link =
        Entities.find? link.entityId t >>= fun found => .ok (s.meet maxDepth depth link found) := by
      unfold visit
      rw [if_neg (by rwa [List.contains_iff_mem])]
      refine congrArg _ (funext fun found => ?_)
      cases found with
      | none => rfl
      | some e => by_cases hdepth : depth + 1 < maxDepth <;> simp [meet, hdepth] <;> rfl
    rw [hvisit, Tables.bind_eq_ok]
    constructor
    · rintro ⟨found, hfind, h⟩
      exact .inr ⟨hseen, found, hfind, (Except.ok.inj h).symm⟩
    · rintro (⟨hmem, _⟩ | ⟨_, found, hfind, rfl⟩)
      · exact absurd hmem hseen
      · exact ⟨found, hfind, rfl⟩

/-- A link to what was not visited adds one level at the end. -/
theorem visit_of_new {link : Link} {depth : Nat} (hnew : link.entityId ∉ s.visited)
    (hstored : ∃ r ∈ t.entityRows, r.id = link.entityId)
    (h : visit t maxDepth depth s link = .ok s') :
    ∃ e : Entity, e.id = link.entityId ∧ (∃ r ∈ t.entityRows, r.read = .ok e) ∧
      s'.queue = s.queue ++ [(link.entityId, depth + 1)].filter (·.2 < maxDepth) ∧
      s'.visited = link.entityId :: s.visited ∧
      s'.affected = s.affected ++ [⟨e, depth, link.kind⟩] := by
  rcases visit_eq_ok.mp h with ⟨hseen, _⟩ | ⟨_, found, hfind, rfl⟩
  · exact absurd hseen hnew
  cases found with
  | none =>
    obtain ⟨r, hr, hid⟩ := hstored
    exact absurd hid (Entities.find?_eq_none hfind r hr)
  | some e =>
    obtain ⟨r, hr, hid, hread⟩ := Entities.find?_eq_some hfind
    exact ⟨e, (EntityRow.read_eq_ok hread).1.trans hid, ⟨r, hr, hread⟩, rfl, rfl, rfl⟩

theorem Ordered.extend {id : String} {a : AffectedEntity}
    (h : Ordered g t maxDepth seeds expanded s) (hnew : id ∉ s.visited) (hid : a.entity.id = id)
    (hstored : ∃ r ∈ t.entityRows, r.read = .ok a.entity)
    (hdepth : a.depth + 1 ≤ maxDepth) (hbelow : ∀ l ∈ s.levels seeds, l.2 ≤ a.depth + 1)
    (hreached : ∃ from_, (from_, a.depth) ∈ s.levels seeds ∧
      ⟨a.entity.id, a.kind⟩ ∈ g.dependents from_)
    (hqueue : s'.queue = s.queue ++ [(id, a.depth + 1)].filter (·.2 < maxDepth))
    (hvisited : s'.visited = id :: s.visited) (haffected : s'.affected = s.affected ++ [a]) :
    Ordered g t maxDepth seeds expanded s' ∧
      s'.levels seeds = s.levels seeds ++ [(id, a.depth + 1)] := by
  have hlevels : s'.levels seeds = s.levels seeds ++ [(id, a.depth + 1)] := by
    unfold levels
    rw [haffected, List.map_append, ← List.append_assoc, List.map_singleton, hid]
  have hsub : s.levels seeds ⊆ s'.levels seeds := by
    rw [hlevels]
    exact List.subset_append_left _ _
  refine ⟨⟨?distinct, ?visited, ?sorted, ?deepest, ?queued, ?reached, ?stored⟩, hlevels⟩
  case distinct =>
    have hfresh : id ∉ (s.levels seeds).map Prod.fst := by
      intro hmem
      obtain ⟨l, hl, rfl⟩ := List.mem_map.mp hmem
      exact hnew ((h.visited l.1).mpr ⟨l.2, hl⟩)
    rw [hlevels, List.map_append, List.map_singleton, ← List.concat_eq_append]
    exact .concat hfresh h.distinct
  case visited =>
    intro other
    rw [hvisited, hlevels, List.mem_cons, h.visited]
    simp only [List.mem_append, List.mem_singleton, Prod.mk.injEq, exists_or]
    constructor
    · rintro (rfl | hother)
      · exact .inr ⟨_, rfl, rfl⟩
      · exact .inl hother
    · rintro (hother | ⟨_, rfl, _⟩)
      · exact .inr hother
      · exact .inl rfl
  case sorted =>
    rw [hlevels, List.pairwise_append]
    refine ⟨h.sorted, List.pairwise_singleton _ _, ?_⟩
    intro l hl l' hl'
    rw [List.mem_singleton.mp hl']
    exact hbelow l hl
  case deepest =>
    intro l hl
    rw [hlevels, List.mem_append, List.mem_singleton] at hl
    rcases hl with hl | rfl
    · exact h.deepest l hl
    · exact hdepth
  case queued =>
    rw [hlevels, List.filter_append, h.queued, hqueue, List.append_assoc]
  case reached =>
    intro b hb
    rw [haffected, List.mem_append, List.mem_singleton] at hb
    rcases hb with hb | rfl
    · obtain ⟨from_, hfrom, hlink⟩ := h.reached b hb
      exact ⟨from_, hsub hfrom, hlink⟩
    · obtain ⟨from_, hfrom, hlink⟩ := hreached
      exact ⟨from_, hsub hfrom, hlink⟩
  case stored =>
    intro b hb
    rw [haffected, List.mem_append, List.mem_singleton] at hb
    rcases hb with hb | rfl
    · exact h.stored b hb
    · exact hstored

theorem mem_levels_of_mem_expanded (h : Ordered g t maxDepth seeds expanded s)
    (hx : x ∈ expanded) : x ∈ s.levels seeds ∧ x.2 < maxDepth := by
  have hmem : x ∈ (s.levels seeds).filter (·.2 < maxDepth) :=
    h.queued ▸ List.mem_append_left _ hx
  exact ⟨(List.mem_filter.mp hmem).1, by simpa using (List.mem_filter.mp hmem).2⟩

theorem Expanding.visit (h : Expanding g t maxDepth seeds expanded x s) {link : Link}
    (hlink : link ∈ g.dependents x.1) (hstored : ∃ r ∈ t.entityRows, r.id = link.entityId)
    (hvisit : visit t maxDepth x.2 s link = .ok s') :
    Expanding g t maxDepth seeds expanded x s' ∧ s.levels seeds ⊆ s'.levels seeds ∧
      ∃ n, (link.entityId, n) ∈ s'.levels seeds ∧ n ≤ x.2 + 1 := by
  obtain ⟨hx, hdepth⟩ := mem_levels_of_mem_expanded h.toOrdered
    (List.mem_append_right _ (List.mem_singleton_self x))
  by_cases hseen : link.entityId ∈ s.visited
  · rw [visit_of_visited hseen] at hvisit
    obtain ⟨n, hn⟩ := (h.visited _).mp hseen
    cases hvisit
    exact ⟨h, List.Subset.refl _, n, hn, h.below _ hn⟩
  · obtain ⟨e, hid, hread, hqueue, hvisited, haffected⟩ := visit_of_new hseen hstored hvisit
    have hreached : ∃ from_, (from_, x.2) ∈ s.levels seeds ∧
        ⟨e.id, link.kind⟩ ∈ g.dependents from_ := ⟨x.1, hx, hid ▸ hlink⟩
    obtain ⟨hordered, hlevels⟩ := h.toOrdered.extend (a := ⟨e, x.2, link.kind⟩) hseen hid hread
      hdepth h.below hreached hqueue hvisited haffected
    have hsub : s.levels seeds ⊆ s'.levels seeds := hlevels ▸ List.subset_append_left _ _
    have hnew : (link.entityId, x.2 + 1) ∈ s'.levels seeds :=
      hlevels ▸ List.mem_append_right _ (List.mem_singleton_self _)
    refine ⟨⟨hordered, fun y hy => (h.covered y hy).mono hsub, ?_, ?_⟩, hsub, _, hnew, Nat.le_refl _⟩
    · intro q hq
      rw [hqueue, List.mem_append, List.mem_filter, List.mem_singleton] at hq
      rcases hq with hq | ⟨rfl, _⟩
      · exact h.ahead q hq
      · exact Nat.le_succ _
    · intro l hl
      rw [hlevels, List.mem_append, List.mem_singleton] at hl
      rcases hl with hl | rfl
      · exact h.below l hl
      · exact Nat.le_refl _

theorem Expanding.foldlM (h : Expanding g t maxDepth seeds expanded x s) (links : List Link)
    (hlinks : links ⊆ g.dependents x.1)
    (hstored : ∀ link ∈ links, ∃ r ∈ t.entityRows, r.id = link.entityId)
    (hfold : links.foldlM (Search.visit t maxDepth x.2) s = .ok s') :
    Expanding g t maxDepth seeds expanded x s' ∧ s.levels seeds ⊆ s'.levels seeds ∧
      ∀ link ∈ links, ∃ n, (link.entityId, n) ∈ s'.levels seeds ∧ n ≤ x.2 + 1 := by
  induction links generalizing s with
  | nil =>
    cases hfold
    exact ⟨h, List.Subset.refl _, nofun⟩
  | cons link links ih =>
    rw [List.foldlM_cons] at hfold
    obtain ⟨mid, hvisit, hfold⟩ := Tables.bind_eq_ok.mp hfold
    obtain ⟨hmid, hsub, n, hn, hle⟩ := h.visit (hlinks List.mem_cons_self)
      (hstored link List.mem_cons_self) hvisit
    obtain ⟨hend, hsub', hall⟩ := ih hmid (List.subset_of_cons_subset hlinks)
      (fun link' hlink' => hstored link' (List.mem_cons_of_mem _ hlink')) hfold
    refine ⟨hend, List.Subset.trans hsub hsub', fun link' hlink' => ?_⟩
    rcases List.mem_cons.mp hlink' with rfl | hlink'
    · exact ⟨n, hsub' hn, hle⟩
    · exact hall link' hlink'

/-! ### Steps -/

theorem step_of_queue {rest : List (String × Nat)} (hqueue : s.queue = x :: rest) :
    s.step g t maxDepth =
      some <$> (g.dependents x.1).foldlM (Search.visit t maxDepth x.2) { s with queue := rest } := by
  unfold Search.step
  rw [hqueue]

theorem steps_iff {rest : List (String × Nat)} (hqueue : s.queue = x :: rest) :
    Steps g t maxDepth s s' ↔
      (g.dependents x.1).foldlM (Search.visit t maxDepth x.2) { s with queue := rest } =
        .ok s' := by
  unfold Steps
  rw [step_of_queue hqueue]
  cases (g.dependents x.1).foldlM (Search.visit t maxDepth x.2) { s with queue := rest } with
  | error e => exact ⟨nofun, nofun⟩
  | ok s'' => exact ⟨fun h => congrArg _ (Option.some.inj (Except.ok.inj h)), fun h => by cases h; rfl⟩

theorem Steps.exists_queue (h : Steps g t maxDepth s s') : ∃ x rest, s.queue = x :: rest ∧
    (g.dependents x.1).foldlM (Search.visit t maxDepth x.2) { s with queue := rest } = .ok s' := by
  cases hqueue : s.queue with
  | nil =>
    unfold Steps Search.step at h
    rw [hqueue] at h
    cases h
  | cons x rest => exact ⟨x, rest, rfl, (steps_iff hqueue).mp h⟩

/-- What is queued goes up. -/
theorem Ordered.pairwise_queue (h : Ordered g t maxDepth seeds expanded s) :
    s.queue.Pairwise fun a b => a.2 ≤ b.2 :=
  (List.pairwise_append.mp (h.queued ▸ h.sorted.filter _)).2.1

theorem Invariant.step (h : Invariant g t maxDepth seeds expanded s)
    (hlinks : ∀ id, ∀ link ∈ g.dependents id, ∃ r ∈ t.entityRows, r.id = link.entityId)
    (hstep : Steps g t maxDepth s s') :
    ∃ x, Invariant g t maxDepth seeds (expanded ++ [x]) s' := by
  obtain ⟨x, rest, hqueue, hfold⟩ := hstep.exists_queue
  have hqueued : (s.levels seeds).filter (·.2 < maxDepth) = expanded ++ x :: rest :=
    hqueue ▸ h.queued
  have hsorted : (x :: rest).Pairwise fun a b => a.2 ≤ b.2 := hqueue ▸ h.pairwise_queue
  -- the queue goes up, so that nothing in it is nearer than its first id
  have hexpanding : Expanding g t maxDepth seeds expanded x { s with queue := rest } :=
    { h.toOrdered with
      queued := by
        show (s.levels seeds).filter _ = _
        rw [hqueued, List.append_assoc]
        rfl
      covered := fun y hy => h.covered y hy
      ahead := (List.pairwise_cons.mp hsorted).1
      below := fun l hl => h.span l hl x (hqueue ▸ List.mem_cons_self) }
  obtain ⟨hend, hsub, hall⟩ := hexpanding.foldlM (g.dependents x.1) (List.Subset.refl _)
    (hlinks x.1) hfold
  refine ⟨x, hend.toOrdered, fun y hy => ?_, fun l hl q hq => ?_⟩
  · rcases List.mem_append.mp hy with hy | hy
    · exact hend.covered y hy
    · rw [List.mem_singleton.mp hy]
      exact hall
  · have hbelow := hend.below l hl
    have hahead := hend.ahead q hq
    omega

theorem invariant_start (hdepth : 0 < maxDepth) (hseeds : seeds.Nodup) :
    Invariant g t maxDepth seeds [] (start seeds) := by
  have hlevels : (start seeds).levels seeds = seeds.map (·, 0) := List.append_nil _
  have hzero : ∀ l ∈ (start seeds).levels seeds, l.2 = 0 := by
    intro l hl
    rw [hlevels] at hl
    obtain ⟨id, _, rfl⟩ := List.mem_map.mp hl
    rfl
  refine ⟨⟨?distinct, ?visited, ?sorted, ?deepest, ?queued, nofun, nofun⟩, nofun, ?span⟩
  case distinct =>
    rw [hlevels, List.map_map]
    exact (List.map_id seeds).symm ▸ hseeds
  case visited =>
    intro id
    rw [hlevels]
    simp [start]
  case sorted =>
    rw [hlevels, List.pairwise_map]
    exact List.pairwise_of_forall fun _ _ => Nat.le_refl 0
  case deepest =>
    intro l hl
    rw [hzero l hl]
    exact Nat.zero_le _
  case queued =>
    rw [List.nil_append, hlevels]
    refine List.filter_eq_self.mpr fun l hl => ?_
    rw [decide_eq_true_iff, hzero l (hlevels ▸ hl)]
    exact hdepth
  case span =>
    intro l hl q _
    rw [hzero l hl]
    exact Nat.zero_le _

theorem Invariant.steps (h : Invariant g t maxDepth seeds expanded s)
    (hlinks : ∀ id, ∀ link ∈ g.dependents id, ∃ r ∈ t.entityRows, r.id = link.entityId)
    (hsteps : Relation.ReflTransGen (Steps g t maxDepth) s s') :
    ∃ expanded', Invariant g t maxDepth seeds expanded' s' := by
  induction hsteps with
  | refl => exact ⟨expanded, h⟩
  | tail _ hstep ih =>
    obtain ⟨expanded', hmid⟩ := ih
    obtain ⟨x, hend⟩ := hmid.step hlinks hstep
    exact ⟨_, hend⟩

/-- Nothing is queued whose dependents would be too deep. -/
theorem Invariant.queue_lt (h : Invariant g t maxDepth seeds expanded s) :
    ∀ q ∈ s.queue, q.2 < maxDepth := by
  intro q hq
  have hmem : q ∈ (s.levels seeds).filter (·.2 < maxDepth) :=
    h.queued ▸ List.mem_append_right _ hq
  simpa using (List.mem_filter.mp hmem).2

/-! ### The end of a search -/

theorem unvisited_lt {id : String} (hmem : id ∈ g.nodes) (hnew : id ∉ s.visited)
    (hvisited : s'.visited = id :: s.visited) :
    (s'.unvisited g).length < (s.unvisited g).length := by
  have hfilter : s'.unvisited g = (s.unvisited g).filter (· != id) := by
    unfold unvisited
    rw [List.filter_filter, hvisited]
    refine List.filter_congr fun other _ => ?_
    rw [List.contains_cons, Bool.not_or]
    rfl
  rw [hfilter, List.length_filter_lt_length_iff_exists]
  refine ⟨id, List.mem_filter.mpr ⟨hmem, ?_⟩, by simp⟩
  rw [Bool.not_eq_true', ← Bool.not_eq_true, List.contains_iff_mem]
  exact hnew

theorem remaining_visit {link : Link} {depth : Nat} (hmem : link.entityId ∈ g.nodes)
    (hstored : ∃ r ∈ t.entityRows, r.id = link.entityId)
    (h : visit t maxDepth depth s link = .ok s') : s'.remaining g ≤ s.remaining g := by
  by_cases hseen : link.entityId ∈ s.visited
  · rw [visit_of_visited hseen] at h
    cases h
    exact Nat.le_refl _
  · obtain ⟨e, _, _, hqueue, hvisited, _⟩ := visit_of_new hseen hstored h
    have hlt := unvisited_lt hmem hseen hvisited
    have hqueued : s'.queue.length ≤ s.queue.length + 1 := by
      rw [hqueue, List.length_append]
      exact Nat.add_le_add_left (List.length_filter_le _ _) _
    unfold remaining
    omega

theorem remaining_foldlM {depth : Nat} (links : List Link)
    (hlinks : ∀ link ∈ links,
      link.entityId ∈ g.nodes ∧ ∃ r ∈ t.entityRows, r.id = link.entityId)
    (h : links.foldlM (visit t maxDepth depth) s = .ok s') : s'.remaining g ≤ s.remaining g := by
  induction links generalizing s with
  | nil =>
    cases h
    exact Nat.le_refl _
  | cons link links ih =>
    rw [List.foldlM_cons] at h
    obtain ⟨mid, hvisit, h⟩ := Tables.bind_eq_ok.mp h
    obtain ⟨hmem, hstored⟩ := hlinks link List.mem_cons_self
    have hfirst := remaining_visit hmem hstored hvisit
    have hrest := ih (fun link' hlink' => hlinks link' (List.mem_cons_of_mem _ hlink')) h
    omega

theorem remaining_step
    (hlinks : ∀ id, ∀ link ∈ g.dependents id,
      link.entityId ∈ g.nodes ∧ ∃ r ∈ t.entityRows, r.id = link.entityId)
    (hstep : Steps g t maxDepth s s') : s'.remaining g < s.remaining g := by
  obtain ⟨x, rest, hqueue, hfold⟩ := hstep.exists_queue
  have hle := remaining_foldlM _ (hlinks x.1) hfold
  have hlt : remaining g { s with queue := rest } < s.remaining g := by
    unfold remaining
    rw [hqueue, List.length_cons]
    exact Nat.add_lt_add_right (Nat.lt_succ_self _) _
  omega

theorem remaining_start : (start seeds).remaining g ≤ bound g seeds := by
  unfold remaining bound DependencyGraph.nodeCount unvisited
  have hqueue : (start seeds).queue.length = seeds.length := List.length_map _
  have hrest := List.length_filter_le (fun id => !(start seeds).visited.contains id) g.nodes
  omega

/-- A search goes on until its queue is empty. -/
theorem loop_eq_ok {fuel : Nat}
    (hlinks : ∀ id, ∀ link ∈ g.dependents id,
      link.entityId ∈ g.nodes ∧ ∃ r ∈ t.entityRows, r.id = link.entityId)
    (hfuel : s.remaining g ≤ fuel) (h : loop g t maxDepth fuel s = .ok s') :
    Relation.ReflTransGen (Steps g t maxDepth) s s' ∧ s'.queue = [] := by
  induction fuel generalizing s with
  | zero =>
    cases h
    unfold remaining at hfuel
    exact ⟨.refl, List.length_eq_zero_iff.mp (by omega)⟩
  | succ fuel ih =>
    obtain ⟨next, hstep, h⟩ := Tables.bind_eq_ok.mp h
    cases next with
    | none =>
      cases h
      refine ⟨.refl, ?_⟩
      cases hqueue : s'.queue with
      | nil => rfl
      | cons x rest =>
        rw [step_of_queue hqueue] at hstep
        obtain ⟨_, _, hstep⟩ := Tables.bind_eq_ok.mp hstep
        cases hstep
    | some mid =>
      have hlt := remaining_step hlinks hstep
      obtain ⟨hsteps, hend⟩ := ih (by omega) h
      exact ⟨.head hstep hsteps, hend⟩

theorem exists_visit (h : t.HoldsGraph) (depth : Nat) (s : Search) (link : Link) :
    ∃ s', visit t maxDepth depth s link = .ok s' := by
  unfold visit
  split
  · exact ⟨s, rfl⟩
  · obtain ⟨found, hfind⟩ := Entities.exists_find? h link.entityId
    rw [hfind]
    cases found with
    | none => exact ⟨_, rfl⟩
    | some e => exact ⟨_, rfl⟩

theorem exists_foldlM (h : t.HoldsGraph) (depth : Nat) (links : List Link) (s : Search) :
    ∃ s', links.foldlM (visit t maxDepth depth) s = .ok s' := by
  induction links generalizing s with
  | nil => exact ⟨s, rfl⟩
  | cons link links ih =>
    obtain ⟨mid, hmid⟩ := exists_visit h depth s link
    obtain ⟨s', hs'⟩ := ih mid
    exact ⟨s', by rw [List.foldlM_cons, hmid]; exact hs'⟩

theorem exists_loop (h : t.HoldsGraph) (fuel : Nat) (s : Search) :
    ∃ s', loop g t maxDepth fuel s = .ok s' := by
  induction fuel generalizing s with
  | zero => exact ⟨s, rfl⟩
  | succ fuel ih =>
    cases hqueue : s.queue with
    | nil =>
      refine ⟨s, ?_⟩
      unfold loop Search.step
      rw [hqueue]
      rfl
    | cons x rest =>
      obtain ⟨mid, hmid⟩ := exists_foldlM h x.2 (g.dependents x.1) { s with queue := rest }
      obtain ⟨s', hs'⟩ := ih mid
      refine ⟨s', ?_⟩
      unfold loop
      rw [step_of_queue hqueue, hmid]
      exact hs'

/-! ### Levels are distances -/

section

variable {filePath : String}
  (hedge : ∀ {source target kind}, ⟨source, kind⟩ ∈ g.dependents target ↔
    kind.isDependency = true ∧ t.HasEdge source target kind.name)
  (hseeds : ∀ id, id ∈ seeds ↔ t.LeadsTo filePath 0 id)
include hedge hseeds

/-- As many edges as its level lead from an id to the file. -/
theorem Ordered.leadsTo (h : Ordered g t maxDepth seeds expanded s) {id : String} {n : Nat}
    (hmem : (id, n) ∈ s.levels seeds) : t.LeadsTo filePath n id := by
  induction n generalizing id with
  | zero =>
    rw [← hseeds]
    simpa [levels] using hmem
  | succ n ih =>
    have hmem' : ∃ a ∈ s.affected, a.entity.id = id ∧ a.depth = n := by
      simpa [levels] using hmem
    obtain ⟨a, ha, rfl, rfl⟩ := hmem'
    obtain ⟨target, htarget, hlink⟩ := h.reached a ha
    exact ⟨target, ⟨a.kind, hedge.mp hlink⟩, ih htarget⟩

/-- When nothing is left to expand, every path to the file shows in the levels. -/
theorem Invariant.exists_level (h : Invariant g t maxDepth seeds expanded s)
    (hend : s.queue = []) {id : String} {n : Nat} (hn : n ≤ maxDepth)
    (hleads : t.LeadsTo filePath n id) : ∃ m ≤ n, (id, m) ∈ s.levels seeds := by
  induction n generalizing id with
  | zero =>
    refine ⟨0, Nat.le_refl 0, List.mem_append_left _ ?_⟩
    exact List.mem_map_of_mem ((hseeds id).mpr hleads)
  | succ n ih =>
    obtain ⟨target, ⟨kind, hdep⟩, hleads⟩ := hleads
    obtain ⟨m, hm, hlevel⟩ := ih (Nat.le_of_succ_le hn) hleads
    -- the next id on the path is not deepest, and nothing is left in the queue
    have hexpanded : (target, m) ∈ expanded := by
      have hqueued := h.queued
      rw [hend, List.append_nil] at hqueued
      rw [← hqueued, List.mem_filter, decide_eq_true_iff]
      exact ⟨hlevel, by omega⟩
    obtain ⟨l, hl, hle⟩ := h.covered _ hexpanded _ (hedge.mpr hdep)
    exact ⟨l, by omega, hl⟩

/-- At the end of a search the levels are the distances up to the last one. -/
theorem Invariant.mem_levels (h : Invariant g t maxDepth seeds expanded s) (hend : s.queue = [])
    {id : String} {n : Nat} :
    (id, n) ∈ s.levels seeds ↔ n ≤ maxDepth ∧ t.Distance filePath id n := by
  have hunique : ∀ {m n : Nat}, (id, m) ∈ s.levels seeds → (id, n) ∈ s.levels seeds → m = n := by
    intro m n hm hn
    have heq := List.inj_on_of_nodup_map h.distinct hm hn rfl
    exact congrArg Prod.snd heq
  constructor
  · intro hmem
    refine ⟨h.deepest _ hmem, h.leadsTo hedge hseeds hmem, fun m hm hleads => ?_⟩
    have hdeep := h.deepest _ hmem
    obtain ⟨l, hl, hlevel⟩ := h.exists_level hedge hseeds hend (by omega) hleads
    have heq := hunique hlevel hmem
    omega
  · rintro ⟨hn, hleads, hshortest⟩
    obtain ⟨l, hl, hlevel⟩ := h.exists_level hedge hseeds hend hn hleads
    have hnot : ¬ l < n := fun hlt => hshortest l hlt (h.leadsTo hedge hseeds hlevel)
    have heq : l = n := by omega
    exact heq ▸ hlevel

end

end BlastRadius.Search

end CodeAtlas
