import CodeAtlas.Proofs.Query.BlastRadius

/-!
# Blast radii of different depths

A search with a lower limit takes the same steps as one with a higher limit, for as long as what is
expanded lies within the lower one. What the deeper search finds after that is too deep for the
other one, so the list of the lower limit is the first part of the deeper list.

* `Search.Within`            the state of one search shows the near part of the other one;
* `Search.Follows.step`      one step of the deeper search, followed by at most one of the other one;
* `Search.Follows.steps`     all steps of it;
* `Shallower`                how the reports of two depths are related;
* `run_shallower`            the reports of any two depths are.
-/

namespace CodeAtlas.BlastRadius

section

variable {α : Type} {key : α → Nat} {x : α} {xs : List α} {d : Nat}

theorem filter_lt_eq_nil (h : (x :: xs).Pairwise fun a b => key a ≤ key b) (hx : ¬ key x < d) :
    (x :: xs).filter (key · < d) = [] := by
  rw [List.filter_eq_nil_iff]
  intro y hy
  rw [decide_eq_true_iff]
  rcases List.mem_cons.mp hy with rfl | hy
  · exact hx
  · have hle := (List.pairwise_cons.mp h).1 y hy
    omega

/-- What is small comes first in a list that goes up. -/
theorem filter_lt_isInitial (h : xs.Pairwise fun a b => key a ≤ key b) :
    xs.filter (key · < d) <+: xs := by
  induction xs with
  | nil => exact List.nil_prefix
  | cons x xs ih =>
    by_cases hx : key x < d
    · rw [List.filter_cons_of_pos (by simpa using hx)]
      exact List.cons_prefix_cons.mpr ⟨rfl, ih (List.pairwise_cons.mp h).2⟩
    · rw [filter_lt_eq_nil h hx]
      exact List.nil_prefix

end

namespace Search

variable {g : DependencyGraph} {t : Tables} {seeds : List String} {expanded : List (String × Nat)}
  {d d' depth : Nat} {s s' u u' : Search} {link : Link}

/-- A state shows what another one shows nearer than a limit. -/
structure Within (d : Nat) (s u : Search) : Prop where
  queue : s.queue = u.queue.filter (·.2 < d)
  affected : s.affected = u.affected.filter (·.depth < d)

/-- In addition the same ids were visited, until nothing is queued within the limit. -/
structure Follows (d : Nat) (s u : Search) : Prop extends Within d s u where
  visited : s.queue ≠ [] → s.visited = u.visited

/-! ### One link -/

theorem Within.meet (h : Within d s u) (hnear : depth < d) (hle : d ≤ d') (found : Option Entity) :
    Within d (s.meet d depth link found) (u.meet d' depth link found) := by
  cases found with
  | none => exact ⟨h.queue, h.affected⟩
  | some e =>
    refine ⟨?queue, ?affected⟩
    case queue =>
      show s.queue ++ _ = List.filter _ (u.queue ++ _)
      rw [List.filter_append, ← h.queue, List.filter_filter]
      refine congrArg _ (List.filter_congr fun q _ => ?_)
      rw [Bool.eq_iff_iff, Bool.and_eq_true, decide_eq_true_iff, decide_eq_true_iff]
      omega
    case affected =>
      show s.affected ++ _ = List.filter _ (u.affected ++ _)
      rw [List.filter_append, ← h.affected, List.filter_cons_of_pos (by simpa using hnear),
        List.filter_nil]

/-- What is met beyond the limit does not show within it. -/
theorem Within.meet_beyond (h : Within d s u) (hfar : d ≤ depth) (found : Option Entity) :
    Within d s (u.meet d' depth link found) := by
  cases found with
  | none => exact ⟨h.queue, h.affected⟩
  | some e =>
    refine ⟨?queue, ?affected⟩
    case queue =>
      show s.queue = List.filter _ (u.queue ++ _)
      have hnone : ([(link.entityId, depth + 1)].filter (·.2 < d')).filter (·.2 < d) = [] := by
        rw [List.filter_eq_nil_iff]
        intro q hq
        rw [List.mem_singleton.mp (List.mem_filter.mp hq).1, decide_eq_true_iff]
        omega
      rw [List.filter_append, ← h.queue, hnone, List.append_nil]
    case affected =>
      show s.affected = List.filter _ (u.affected ++ _)
      have hdepth : ¬ depth < d := by omega
      rw [List.filter_append, ← h.affected, List.filter_cons_of_neg (by simpa using hdepth),
        List.filter_nil, List.append_nil]

theorem Within.visit (h : Within d s u) (hvisited : s.visited = u.visited) (hnear : depth < d)
    (hle : d ≤ d') (hvisit : visit t d' depth u link = .ok u') :
    ∃ s', Search.visit t d depth s link = .ok s' ∧ Within d s' u' ∧ s'.visited = u'.visited := by
  rcases visit_eq_ok.mp hvisit with ⟨hseen, rfl⟩ | ⟨hnew, found, hfind, rfl⟩
  · exact ⟨s, visit_of_visited (hvisited ▸ hseen), h, hvisited⟩
  · refine ⟨s.meet d depth link found, visit_eq_ok.mpr (.inr ⟨hvisited ▸ hnew, found, hfind, rfl⟩),
      h.meet hnear hle found, ?_⟩
    cases found with
    | none => exact congrArg (link.entityId :: ·) hvisited
    | some e => exact congrArg (link.entityId :: ·) hvisited

theorem Within.visit_beyond (h : Within d s u) (hfar : d ≤ depth)
    (hvisit : Search.visit t d' depth u link = .ok u') : Within d s u' := by
  rcases visit_eq_ok.mp hvisit with ⟨_, rfl⟩ | ⟨_, found, _, rfl⟩
  · exact h
  · exact h.meet_beyond hfar found

/-! ### All links of an id -/

theorem Within.foldlM (h : Within d s u) (hvisited : s.visited = u.visited) (hnear : depth < d)
    (hle : d ≤ d') (links : List Link)
    (hfold : links.foldlM (Search.visit t d' depth) u = .ok u') :
    ∃ s', links.foldlM (Search.visit t d depth) s = .ok s' ∧ Within d s' u' ∧
      s'.visited = u'.visited := by
  induction links generalizing s u with
  | nil =>
    cases hfold
    exact ⟨s, rfl, h, hvisited⟩
  | cons link links ih =>
    rw [List.foldlM_cons] at hfold
    obtain ⟨mid', hfirst', hfold⟩ := Tables.bind_eq_ok.mp hfold
    obtain ⟨mid, hfirst, hmid, hseen⟩ := h.visit hvisited hnear hle hfirst'
    obtain ⟨s', hrest, hend, hseen'⟩ := ih hmid hseen hfold
    refine ⟨s', ?_, hend, hseen'⟩
    rw [List.foldlM_cons, hfirst]
    exact hrest

theorem Within.foldlM_beyond (h : Within d s u) (hfar : d ≤ depth) (links : List Link)
    (hfold : links.foldlM (Search.visit t d' depth) u = .ok u') : Within d s u' := by
  induction links generalizing u with
  | nil =>
    cases hfold
    exact h
  | cons link links ih =>
    rw [List.foldlM_cons] at hfold
    obtain ⟨mid, hfirst, hfold⟩ := Tables.bind_eq_ok.mp hfold
    exact ih (h.visit_beyond hfar hfirst) hfold

/-! ### Steps -/

/-- The shallow search follows a step as long as the expanded id is near; after that it has
ended. -/
theorem Follows.step (h : Follows d s u) (hle : d ≤ d')
    (hsorted : u.queue.Pairwise fun a b => a.2 ≤ b.2) (hstep : Steps g t d' u u') :
    ∃ s', Relation.ReflTransGen (Steps g t d) s s' ∧ Follows d s' u' := by
  obtain ⟨x, rest, hqueue, hfold⟩ := hstep.exists_queue
  rw [hqueue] at hsorted
  have hfiltered : s.queue = (x :: rest).filter (·.2 < d) := hqueue ▸ h.queue
  by_cases hnear : x.2 < d
  · rw [List.filter_cons_of_pos (by simpa using hnear)] at hfiltered
    have hvisited : s.visited = u.visited := h.visited (hfiltered ▸ List.cons_ne_nil _ _)
    have hpopped : Within d { s with queue := rest.filter (·.2 < d) } { u with queue := rest } :=
      ⟨rfl, h.affected⟩
    obtain ⟨s', hfold', hwithin, hseen⟩ := hpopped.foldlM hvisited hnear hle _ hfold
    exact ⟨s', .single ((steps_iff hfiltered).mpr hfold'), hwithin, fun _ => hseen⟩
  · -- the queue goes up, so all of it is beyond the limit
    have hended : s.queue = [] := hfiltered.trans (filter_lt_eq_nil hsorted hnear)
    have hpopped : Within d s { u with queue := rest } := by
      refine ⟨?_, h.affected⟩
      rw [hfiltered, List.filter_cons_of_neg (by simpa using hnear)]
    exact ⟨s, .refl, hpopped.foldlM_beyond (by omega) _ hfold, fun hne => absurd hended hne⟩

theorem Follows.steps (h : Follows d s u) (hle : d ≤ d') (hinv : Invariant g t d' seeds expanded u)
    (hlinks : ∀ id, ∀ link ∈ g.dependents id, ∃ r ∈ t.entityRows, r.id = link.entityId)
    (hsteps : Relation.ReflTransGen (Steps g t d') u u') :
    ∃ s', Relation.ReflTransGen (Steps g t d) s s' ∧ Follows d s' u' := by
  induction hsteps with
  | refl => exact ⟨s, .refl, h⟩
  | tail hbefore hstep ih =>
    obtain ⟨mid, hmid, hfollows⟩ := ih
    obtain ⟨_, hordered⟩ := hinv.steps hlinks hbefore
    obtain ⟨s', hlast, hfollows'⟩ := hfollows.step hle hordered.pairwise_queue hstep
    exact ⟨s', hmid.trans hlast, hfollows'⟩

theorem follows_start (hd : 0 < d) (seeds : List String) :
    Follows d (start seeds) (start seeds) := by
  refine ⟨⟨?_, rfl⟩, fun _ => rfl⟩
  refine (List.filter_eq_self.mpr fun q hq => ?_).symm
  obtain ⟨id, _, rfl⟩ := List.mem_map.mp hq
  exact decide_eq_true hd

/-- A search that can be run to its end is. -/
theorem loop_of_steps {fuel : Nat}
    (hlinks : ∀ id, ∀ link ∈ g.dependents id,
      link.entityId ∈ g.nodes ∧ ∃ r ∈ t.entityRows, r.id = link.entityId)
    (hfuel : s.remaining g ≤ fuel) (hsteps : Relation.ReflTransGen (Steps g t d) s s')
    (hend : s'.queue = []) : loop g t d fuel s = .ok s' := by
  induction hsteps using Relation.ReflTransGen.head_induction_on generalizing fuel with
  | refl =>
    cases fuel with
    | zero => rfl
    | succ fuel =>
      unfold loop Search.step
      rw [hend]
      rfl
  | head hstep _ ih =>
    have hlt := remaining_step hlinks hstep
    cases fuel with
    | zero => omega
    | succ fuel =>
      unfold loop
      rw [show step g t d _ = .ok (some _) from hstep]
      exact ih (by omega)

end Search

/-! ### Reports -/

/-- how a report is related to a deeper one -/
structure Shallower (d : Nat) (r r' : BlastRadius) : Prop where
  near : r.affected = r'.affected.filter (·.depth < d)
  first : r.affected <+: r'.affected
  /-- An entity that both list is the same entry, with the same depth and kind. -/
  common : ∀ a ∈ r.affected, ∀ b ∈ r'.affected, a.entity.id = b.entity.id → a = b

variable {t : Tables} {sourceFile : String} {d d' : Nat} {r r' : BlastRadius}

theorem shallower_of_near (hexact : Exact t sourceFile d' r')
    (h : r.affected = r'.affected.filter (·.depth < d)) : Shallower d r r' := by
  have hfirst : r.affected <+: r'.affected := h ▸ filter_lt_isInitial hexact.sorted
  refine ⟨h, hfirst, fun a ha b hb hid => ?_⟩
  exact List.inj_on_of_nodup_map hexact.once (hfirst.subset ha) hb hid

theorem compute_shallower (hd : 0 < d) (hle : d ≤ d') (hintegrity : t.Integrity)
    (h : compute sourceFile d' t = .ok r') :
    ∃ r, compute sourceFile d t = .ok r ∧ r.affected = r'.affected.filter (·.depth < d) := by
  obtain ⟨es, hes, h⟩ := Tables.bind_eq_ok.mp h
  unfold compute
  rw [hes]
  show ∃ r, (if (es.map Entity.id).isEmpty = true then _ else _) = Except.ok r ∧ _
  dsimp only at h
  split at h
  · rename_i hnone
    cases h
    rw [if_pos hnone]
    exact ⟨_, rfl, rfl⟩
  · rename_i hsome
    rw [if_neg hsome]
    obtain ⟨g, hload, h⟩ := Tables.bind_eq_ok.mp h
    obtain ⟨u, hloop, h⟩ := Tables.bind_eq_ok.mp h
    cases h
    have hlinks := links_of_load hload hintegrity.ends
    obtain ⟨hsteps, hend⟩ := Search.loop_eq_ok hlinks Search.remaining_start hloop
    have hinv := Search.invariant_start (g := g) (t := t) (hd.trans_le hle)
      (seeds_nodup hintegrity.ids hes)
    obtain ⟨s, hsteps', hfollows⟩ := (Search.follows_start hd _).steps hle hinv
      (fun id link hlink => (hlinks id link hlink).2) hsteps
    have hended : s.queue = [] := by
      rw [hfollows.queue, hend]
      rfl
    rw [hload]
    show ∃ r, (Search.loop g t d _ _ >>= _) = Except.ok r ∧ _
    rw [Search.loop_of_steps hlinks Search.remaining_start hsteps' hended]
    exact ⟨_, rfl, hfollows.affected⟩

/-- **Depth only adds at the end.** In every state of every script, for any file, the list of a lower
depth is what the list of a higher depth shows within it, and stands at its beginning. -/
theorem run_shallower (migrated : Bool) (p : Script) (state : Database)
    (h : state ∈ p.visited (Database.opened migrated)) (sourceFile : String) (d' : Nat) :
    (state.tables.entities.isSome = true → state.tables.relationships.isSome = true →
      ∃ r', (run sourceFile d').runOn state = (.ok r', state)) ∧
    ∀ r' after, (run sourceFile d').runOn state = (.ok r', after) → after = state ∧
      ∀ d ≤ d', ∃ r, (run sourceFile d).runOn state = (.ok r, state) ∧ Shallower d r r' := by
  have hsound := (p.visited_sound (Database.opened_sound migrated) state h).tables
  refine ⟨fun hents hrels => exists_run (hsound.holdsGraph hents hrels) _ _,
    fun r' after hrun => ?_⟩
  obtain ⟨hafter, hexact⟩ := run_eq_ok hsound.integrity hrun
  refine ⟨hafter, fun d hle => ?_⟩
  rcases Nat.eq_zero_or_pos d with rfl | hd
  · refine ⟨empty sourceFile, rfl, shallower_of_near hexact ?_⟩
    exact (List.filter_eq_nil_iff.mpr fun a _ => by simp).symm
  · rw [run_runOn (hd.trans_le hle)] at hrun
    obtain ⟨r, hr, hnear⟩ := compute_shallower hd hle hsound.integrity (Prod.mk.inj hrun).1
    exact ⟨r, by rw [run_runOn hd, hr], shallower_of_near hexact hnear⟩

/-- With one level the report shows what depends on the file itself, and it is the first entry of the
report with two. -/
theorem run_shallower_round :
    ∃ state ∈ storingRound.visited (Database.opened true), ∃ r r',
      (run "/a.ts" 1).runOn state = (.ok r, state) ∧ (run "/a.ts" 2).runOn state = (.ok r', state) ∧
        r.affected.map (fun a => (a.entity.name, a.depth, a.kind)) = [("c", 0, .extends)] ∧
        r'.affected.map (fun a => (a.entity.name, a.depth, a.kind)) =
          [("c", 0, .extends), ("b", 1, .imports)] ∧
        Shallower 1 r r' := by
  have hmem := storingRound.final_mem_visited (Database.opened true)
  obtain ⟨hexists, hshallower⟩ := run_shallower true storingRound _ hmem "/a.ts" 2
  obtain ⟨r', hr'⟩ := hexists (by rw [Database.opened_true]; decide +kernel)
    (by rw [Database.opened_true]; decide +kernel)
  obtain ⟨-, hshallower⟩ := hshallower r' _ hr'
  obtain ⟨r, hr, hreports⟩ := hshallower 1 (by omega)
  have hlist : (((run "/a.ts" 1).runOn (storingRound.run.runOn (Database.opened true)).2).1.map
      fun r => r.affected.map fun a => (a.entity.name, a.depth, a.kind)) =
      .ok [("c", 0, .extends)] := by
    rw [Database.opened_true]
    decide +kernel
  have hlist' : (((run "/a.ts" 2).runOn (storingRound.run.runOn (Database.opened true)).2).1.map
      fun r => r.affected.map fun a => (a.entity.name, a.depth, a.kind)) =
      .ok [("c", 0, .extends), ("b", 1, .imports)] := by
    rw [Database.opened_true]
    decide +kernel
  rw [hr] at hlist
  rw [hr'] at hlist'
  exact ⟨_, hmem, r, r', hr, hr', Except.ok.inj hlist, Except.ok.inj hlist', hreports⟩

end CodeAtlas.BlastRadius
