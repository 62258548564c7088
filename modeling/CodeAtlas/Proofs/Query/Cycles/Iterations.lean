import CodeAtlas.Proofs.Query.Cycles.Search

/-!
# Iterations of the search

The loops of all searches, one change of the state after another and without a bound on how many
there are. They come to an end on every graph, after a number of changes that grows with the edges,
the ids and the starts. What they do to an entity or a link they do once, because it leaves a mark
that was not there before and that stays: an entity that is put on the stack is met, and a link that
is examined lies behind the place that its frame has reached.

* `Search.RunsAll`         the changes of all searches together;
* `Search.Steps`           the same changes as moves and starts;
* `exists_runsAll`         all searches end, with the result that is computed;
* `RunsAll.length_le`      how many changes there are at most;
* `Search.Marks`           what happens at a change leaves a mark that stays;
* `Steps.nodup_events`     such a thing happens once;
* `marks_pushed`, `marks_examined`   entities that are put on the stack, links that are examined.
-/

namespace CodeAtlas.Cycles.Search

/-! ### All searches, change after change -/

/-- searches from one id after another, without those that were left before, until the cap is
reached -/
inductive RunsAll (g : DependencyGraph) (maxCycles : Nat) :
    Search → List String → List Change → Bool × Search → Prop where
  | nil {s : Search} : RunsAll g maxCycles s [] [] (true, s)
  | left {s : Search} {start : String} {starts : List String} {log : List Change}
      {result : Bool × Search} (hdone : start ∈ s.done)
      (hrest : RunsAll g maxCycles s starts log result) :
      RunsAll g maxCycles s (start :: starts) log result
  | ended {s mid : Search} {start : String} {starts : List String} {first rest : List Change}
      {result : Bool × Search} (hnew : start ∉ s.done)
      (hrun : Runs g maxCycles (s.startAt start) first (true, mid))
      (hrest : RunsAll g maxCycles mid starts rest result) :
      RunsAll g maxCycles s (start :: starts) (⟨s, s.startAt start⟩ :: first ++ rest) result
  | capped {s last : Search} {start : String} {starts : List String} {log : List Change}
      (hnew : start ∉ s.done) (hrun : Runs g maxCycles (s.startAt start) log (false, last)) :
      RunsAll g maxCycles s (start :: starts) (⟨s, s.startAt start⟩ :: log) (false, last)

/-- changes that lead from one state to another -/
inductive Steps (g : DependencyGraph) (starts : List String) :
    Search → List Change → Search → Prop where
  | nil {s : Search} : Steps g starts s [] s
  | cons {s s' last : Search} {log : List Change} (hnext : Next g starts s s')
      (hrest : Steps g starts s' log last) : Steps g starts s (⟨s, s'⟩ :: log) last

section

variable {g : DependencyGraph} {maxCycles : Nat} {starts ids : List String} {s mid last : Search}
  {first rest log : List Change} {result : Bool × Search}

namespace Steps

theorem append (hfirst : Steps g starts s first mid) (hrest : Steps g starts mid rest last) :
    Steps g starts s (first ++ rest) last := by
  induction hfirst with
  | nil => exact hrest
  | cons hnext _ ih => exact .cons hnext (ih hrest)

theorem reaches (hsteps : Steps g starts s log last) :
    Relation.ReflTransGen (Next g starts) s last := by
  induction hsteps with
  | nil => exact .refl
  | cons hnext _ ih => exact .head hnext ih

theorem aligned (hsteps : Steps g starts s log last) (h : Aligned g s) :
    ∀ c ∈ log, Aligned g c.before := by
  induction hsteps with
  | nil => exact nofun
  | cons hnext _ ih =>
    intro c hc
    rcases List.mem_cons.mp hc with rfl | hc
    · exact h
    · exact ih (hnext.aligned h) c hc

end Steps

theorem Runs.steps (hrun : Runs g maxCycles s log result) : Steps g starts s log result.2 := by
  induction hrun with
  | finished _ => exact .nil
  | capped hstep =>
    exact .cons (.move (move_of_step (.inr ⟨hstep, capped_of_step hstep⟩))) .nil
  | running hstep _ ih => exact .cons (.move (move_of_step (.inl hstep))) ih

theorem Runs.aligned (hrun : Runs g maxCycles s log result) (h : Aligned g s) :
    Aligned g result.2 := by
  have hsteps : Steps g [] s log result.2 := hrun.steps
  exact (aligned_of_next hsteps.reaches h).1

/-- A loop that the cap does not end leaves nothing on the stack. -/
theorem Runs.closed (hrun : Runs g maxCycles s log (true, mid)) : mid.frames = [] := hrun.moves.2

theorem RunsAll.steps (hruns : RunsAll g maxCycles s ids log result) (hids : ids ⊆ starts)
    (hclosed : s.frames = []) : Steps g starts s log result.2 := by
  induction hruns with
  | nil => exact .nil
  | left _ _ ih => exact ih (List.subset_of_cons_subset hids) hclosed
  | ended hnew hrun _ ih =>
    have hrest := ih (List.subset_of_cons_subset hids) (hrun.closed)
    exact .cons (.start (hids List.mem_cons_self) hnew hclosed) (hrun.steps.append hrest)
  | capped hnew hrun => exact .cons (.start (hids List.mem_cons_self) hnew hclosed) hrun.steps

/-! ### All searches end -/

theorem exists_runs_startAt (hbuilt : g.IsBuilt) (h : Aligned g s) {start : String}
    (hnew : start ∉ s.done) :
    ∃ log, Runs g maxCycles (s.startAt start) log (runFrom g maxCycles s start) := by
  unfold runFrom
  rw [if_neg (by rwa [List.contains_iff_mem])]
  exact exists_runs hbuilt (h.startAt hnew) (remaining_startAt hbuilt)

/-- All searches come to an end, and to the one that is computed with a bound. -/
theorem exists_runsAll (hbuilt : g.IsBuilt) (h : Aligned g s) (starts : List String) :
    ∃ log, RunsAll g maxCycles s starts log (runAll g maxCycles s starts) := by
  induction starts generalizing s with
  | nil => exact ⟨[], .nil⟩
  | cons start starts ih =>
    unfold runAll
    by_cases hdone : start ∈ s.done
    · have hrun : runFrom g maxCycles s start = (true, s) :=
        if_pos (List.contains_iff_mem.mpr hdone)
      obtain ⟨log, hrest⟩ := ih h
      rw [hrun]
      exact ⟨log, .left hdone hrest⟩
    · obtain ⟨first, hfirst⟩ : ∃ first, Runs g maxCycles (s.startAt start) first
        (runFrom g maxCycles s start) := exists_runs_startAt hbuilt h hdone
      cases hrun : runFrom g maxCycles s start with
      | mk ended mid =>
        rw [hrun] at hfirst
        cases ended with
        | false => exact ⟨_, .capped hdone hfirst⟩
        | true =>
          obtain ⟨rest, hrest⟩ := ih (hfirst.aligned (h.startAt hdone))
          exact ⟨_, .ended hdone hfirst hrest⟩

/-! ### How many changes there are -/

/-- A start takes the moves of its id from those of the ids that were not met, or it is an id that
the graph does not have, which takes one move. -/
theorem remaining_startAt_le (hbuilt : g.IsBuilt) (h : Aligned g s) (hclosed : s.frames = [])
    {start : String} (hnew : start ∉ s.done) :
    (s.startAt start).remaining g ≤ s.remaining g + 1 := by
  have hpath := h.path_eq_nil hclosed
  have hmet : ∀ other, other ∈ (s.startAt start).met ↔ other = start ∨ other ∈ s.met := by
    intro other
    rw [met, met, hpath]
    exact List.mem_cons
  have hbefore : s.remaining g = ((s.unmet g).map (moves g)).sum := by
    rw [remaining, hclosed]
    exact Nat.zero_add _
  rw [remaining_startAt_eq, hbefore]
  by_cases hmem : start ∈ g.nodes
  · have hunmet : start ∉ s.met := by rwa [met, hpath]
    exact Nat.le_succ_of_le (sum_unmet hbuilt hmem hunmet hmet).le
  · have hsub : ((s.startAt start).unmet g).Sublist (s.unmet g) := by
      refine List.monotone_filter_right g.nodes fun id hid => ?_
      rw [Bool.not_eq_true', ← Bool.not_eq_true, List.contains_iff_mem] at hid ⊢
      exact fun hold => hid ((hmet id).mpr (.inr hold))
    have hle := (hsub.map (moves g)).sum_le_sum fun _ _ => Nat.zero_le _
    rw [moves_of_not_mem_nodes hbuilt hmem]
    omega

/-- Every iteration of a loop takes one of the moves that remain. -/
theorem Runs.length_le (hbuilt : g.IsBuilt) (hrun : Runs g maxCycles s log result)
    (h : Aligned g s) : log.length + result.2.remaining g ≤ s.remaining g := by
  induction hrun with
  | finished _ => exact (Nat.zero_add _).le
  | @capped s s' hstep =>
    have hmove : Move g s s' := move_of_step (.inr ⟨hstep, capped_of_step hstep⟩)
    have hlt := hmove.remaining_lt h hbuilt
    show 1 + s'.remaining g ≤ _
    omega
  | @running s s' log result hstep _ ih =>
    have hmove : Move g s s' := move_of_step (.inl hstep)
    have hlt := hmove.remaining_lt h hbuilt
    have hrest := ih (hmove.aligned h)
    rw [List.length_cons]
    omega

/-- Besides the moves that remain, a search takes its start, and one more move if the graph does not
have the id. -/
theorem RunsAll.length_le (hbuilt : g.IsBuilt) (hruns : RunsAll g maxCycles s ids log result)
    (h : Aligned g s) (hclosed : s.frames = []) :
    log.length + result.2.remaining g ≤ s.remaining g + 2 * ids.length := by
  induction hruns with
  | nil => exact (Nat.zero_add _).le
  | left _ _ ih =>
    have hrest := ih h hclosed
    rw [List.length_cons]
    omega
  | @ended s mid start ids first rest result hnew hrun _ ih =>
    have hstart := remaining_startAt_le hbuilt h hclosed hnew
    have hfirst := hrun.length_le hbuilt (h.startAt hnew)
    have hrest := ih (hrun.aligned (h.startAt hnew)) (hrun.closed)
    dsimp only at hfirst
    rw [List.length_append, List.length_cons, List.length_cons]
    omega
  | capped hnew hrun =>
    have hstart := remaining_startAt_le hbuilt h hclosed hnew
    have hfirst := hrun.length_le hbuilt (h.startAt hnew)
    rw [List.length_cons, List.length_cons]
    omega

theorem remaining_initial (hbuilt : g.IsBuilt) :
    initial.remaining g = g.edgeCount + g.nodeCount := by
  have hunmet : initial.unmet g = g.nodes := List.filter_eq_self.mpr fun _ _ => rfl
  rw [remaining, hunmet, sum_moves hbuilt]
  exact Nat.zero_add _

end

/-! ### What happens once -/

/-- what happens at a change happens to something without a mark, and leaves a mark that stays -/
structure Marks {α : Type} (g : DependencyGraph) (starts : List String)
    (event : Change → Option α) (mark : Search → α → Prop) : Prop where
  fresh : ∀ s s' a, Next g starts s s' → Aligned g s → event ⟨s, s'⟩ = some a → ¬ mark s a
  leaves : ∀ s s' a, Next g starts s s' → Aligned g s → event ⟨s, s'⟩ = some a → mark s' a
  stays : ∀ s s' a, Next g starts s s' → Aligned g s → mark s a → mark s' a

/-- Nothing happens twice to what bears a mark afterwards. -/
theorem Steps.nodup_events {α : Type} {g : DependencyGraph} {starts : List String}
    {event : Change → Option α} {mark : Search → α → Prop} {s last : Search} {log : List Change}
    (hsteps : Steps g starts s log last) (hmarks : Marks g starts event mark) (h : Aligned g s) :
    (log.filterMap event).Nodup ∧ ∀ a ∈ log.filterMap event, ¬ mark s a := by
  induction hsteps with
  | nil => exact ⟨.nil, nofun⟩
  | @cons s s' last log hnext _ ih =>
    obtain ⟨hnodup, hfresh⟩ := ih (hnext.aligned h)
    have hrest : ∀ a ∈ log.filterMap event, ¬ mark s a := fun a ha hmark =>
      hfresh a ha (hmarks.stays s s' a hnext h hmark)
    cases hevent : event ⟨s, s'⟩ with
    | none =>
      rw [List.filterMap_cons_none hevent]
      exact ⟨hnodup, hrest⟩
    | some a =>
      have hnew : a ∉ log.filterMap event := fun ha =>
        hfresh a ha (hmarks.leaves s s' a hnext h hevent)
      rw [List.filterMap_cons_some hevent]
      refine ⟨List.nodup_cons.mpr ⟨hnew, hnodup⟩, fun b hb => ?_⟩
      rcases List.mem_cons.mp hb with rfl | hb
      · exact hmarks.fresh s s' b hnext h hevent
      · exact hrest b hb

namespace Change

/-- the entity that a change puts on the stack -/
def pushed (c : Change) : Option String :=
  if c.before.frames.length < c.after.frames.length then c.after.frames.head?.map Frame.node
  else none

/-- the link that a change examines, as an entity and the place among its links -/
def examined (g : DependencyGraph) (c : Change) : Option (String × Nat) :=
  match c.before.frames with
  | [] => none
  | top :: _ =>
    if top.next < (g.dependencies top.node).length then some (top.node, top.next) else none

end Change

/-- a link of an entity that was left, or one that the frame of its entity has behind it -/
def Passed (s : Search) (link : String × Nat) : Prop :=
  link.1 ∈ s.done ∨ ∃ frame ∈ s.frames, frame.node = link.1 ∧ link.2 < frame.next

section

variable {g : DependencyGraph} {starts : List String} {s s' : Search} {id : String}
  {link : String × Nat}

theorem Aligned.mem_path_iff (h : Aligned g s) :
    id ∈ s.path ↔ ∃ frame ∈ s.frames, frame.node = id := by
  rw [h.nodes, List.mem_reverse, List.mem_map]

/-! #### Entities that are put on the stack -/

theorem pushed_eq_some (hpushed : Change.pushed ⟨s, s'⟩ = some id) :
    s.frames.length < s'.frames.length ∧ ∃ frame ∈ s'.frames, frame.node = id := by
  unfold Change.pushed at hpushed
  split at hpushed
  · rename_i hlt
    obtain ⟨frame, hframe, hnode⟩ := Option.map_eq_some_iff.mp hpushed
    exact ⟨hlt, frame, List.mem_of_head? hframe, hnode⟩
  · cases hpushed

/-- What is put on the stack was not met before. -/
theorem not_mem_met_of_pushed (hnext : Next g starts s s') (h : Aligned g s)
    (hpushed : Change.pushed ⟨s, s'⟩ = some id) : id ∉ s.met := by
  have hlt := (pushed_eq_some hpushed).1
  unfold Change.pushed at hpushed
  rw [if_pos hlt] at hpushed
  cases hnext with
  | start _ hnew hclosed =>
    rw [met, h.path_eq_nil hclosed, List.nil_append, ← Option.some.inj hpushed]
    exact hnew
  | move hmove =>
    cases hmove with
    | @leave top outer hframes _ =>
      rw [hframes] at hlt
      exact absurd hlt (Nat.not_lt.mpr (Nat.le_succ _))
    | @pass top outer link hframes _ _ =>
      rw [hframes] at hlt
      exact absurd hlt (Nat.lt_irrefl _)
    | @close top outer link place hframes _ _ _ =>
      rw [(record_frames _).1, hframes] at hlt
      exact absurd hlt (Nat.lt_irrefl _)
    | enter _ _ hplace hdone =>
      rw [met, List.mem_append, not_or, ← Option.some.inj hpushed]
      exact ⟨h.lookup_eq_none.mp hplace, hdone⟩

theorem marks_pushed : Marks g starts Change.pushed fun s id => id ∈ s.met where
  fresh _ _ _ hnext h hpushed := not_mem_met_of_pushed hnext h hpushed
  leaves _ _ _ hnext h hpushed :=
    List.mem_append_left _ ((hnext.aligned h).mem_path_iff.mpr (pushed_eq_some hpushed).2)
  stays _ _ _ hnext h hmet := hnext.met_subset h hmet

/-! #### Links that are examined -/

theorem examined_eq_some (hexamined : Change.examined g ⟨s, s'⟩ = some link) :
    ∃ top outer, s.frames = top :: outer ∧ link = (top.node, top.next) ∧
      top.next < (g.dependencies top.node).length := by
  unfold Change.examined at hexamined
  cases hframes : s.frames with
  | nil =>
    simp only [hframes, reduceCtorEq] at hexamined
  | cons top outer =>
    simp only [hframes] at hexamined
    split at hexamined
    · rename_i hlt
      exact ⟨top, outer, rfl, (Option.some.inj hexamined).symm, hlt⟩
    · cases hexamined

theorem not_passed_of_examined (h : Aligned g s)
    (hexamined : Change.examined g ⟨s, s'⟩ = some link) : ¬ s.Passed link := by
  obtain ⟨top, outer, hframes, rfl, _⟩ := examined_eq_some hexamined
  have htop : top.node ∈ s.path := h.mem_path_iff.mpr ⟨top, hframes ▸ List.mem_cons_self, rfl⟩
  rintro (hdone | ⟨frame, hframe, hnode, hlt⟩)
  · exact (List.nodup_append.mp h.distinct).2.2 _ htop _ hdone rfl
  · -- no other frame has the same entity
    have hdistinct : (s.frames.map Frame.node).Nodup := by
      rw [← List.nodup_reverse, ← h.nodes]
      exact h.nodup_path
    have hsame : frame = top := List.inj_on_of_nodup_map hdistinct hframe
      (hframes ▸ List.mem_cons_self) hnode
    exact absurd hlt (hsame ▸ Nat.lt_irrefl _)

theorem Passed.advance {top : Frame} {outer : List Frame} (hframes : s.frames = top :: outer)
    (h : s.Passed link) : (s.advance top outer).Passed link := by
  rcases h with hdone | ⟨frame, hframe, hnode, hlt⟩
  · exact .inl hdone
  · rw [hframes] at hframe
    rcases List.mem_cons.mp hframe with rfl | hframe
    · exact .inr ⟨_, List.mem_cons_self, hnode, Nat.lt_succ_of_lt hlt⟩
    · exact .inr ⟨frame, List.mem_cons_of_mem _ hframe, hnode, hlt⟩

theorem Passed.record (h : s.Passed link) (c : Found) : (s.record c).Passed link := by
  obtain ⟨hframes, _, _, _, hdone⟩ := record_frames (s := s) c
  unfold Passed
  rwa [hframes, hdone]

theorem Passed.enter (h : s.Passed link) (new : Link) : (s.enter new).Passed link :=
  h.imp_right fun ⟨frame, hframe, hpast⟩ => ⟨frame, List.mem_cons_of_mem _ hframe, hpast⟩

theorem passed_stays (hnext : Next g starts s s') (h : s.Passed link) : s'.Passed link := by
  cases hnext with
  | start _ _ hclosed =>
    rcases h with hdone | ⟨frame, hframe, _⟩
    · exact .inl hdone
    · rw [hclosed] at hframe
      cases hframe
  | move hmove =>
    cases hmove with
    | leave hframes _ =>
      rcases h with hdone | ⟨frame, hframe, hnode, hlt⟩
      · exact .inl (List.mem_cons_of_mem _ hdone)
      · rw [hframes] at hframe
        rcases List.mem_cons.mp hframe with rfl | hframe
        · exact .inl (hnode ▸ List.mem_cons_self)
        · exact .inr ⟨frame, hframe, hnode, hlt⟩
    | pass hframes _ _ => exact h.advance hframes
    | close hframes _ _ _ => exact (h.advance hframes).record _
    | enter hframes _ _ _ => exact (h.advance hframes).enter _

theorem passed_of_examined (hnext : Next g starts s s')
    (hexamined : Change.examined g ⟨s, s'⟩ = some link) : s'.Passed link := by
  obtain ⟨top, outer, hframes, rfl, hlt⟩ := examined_eq_some hexamined
  have hadvance : (s.advance top outer).Passed (top.node, top.next) :=
    .inr ⟨_, List.mem_cons_self, rfl, Nat.lt_succ_self _⟩
  cases hnext with
  | start _ _ hclosed =>
    rw [hclosed] at hframes
    cases hframes
  | move hmove =>
    cases hmove with
    | leave hframes' hlink =>
      obtain ⟨rfl, rfl⟩ := List.cons.inj (hframes'.symm.trans hframes)
      exact absurd (List.getElem?_eq_none_iff.mp hlink) (Nat.not_le.mpr hlt)
    | pass hframes' _ _ =>
      obtain ⟨rfl, rfl⟩ := List.cons.inj (hframes'.symm.trans hframes)
      exact hadvance
    | close hframes' _ _ _ =>
      obtain ⟨rfl, rfl⟩ := List.cons.inj (hframes'.symm.trans hframes)
      exact hadvance.record _
    | enter hframes' _ _ _ =>
      obtain ⟨rfl, rfl⟩ := List.cons.inj (hframes'.symm.trans hframes)
      exact hadvance.enter _

theorem marks_examined : Marks g starts (Change.examined g) Passed where
  fresh _ _ _ _ h hexamined := not_passed_of_examined h hexamined
  leaves _ _ _ hnext _ hexamined := passed_of_examined hnext hexamined
  stays _ _ _ hnext _ hpassed := passed_stays hnext hpassed

end

end CodeAtlas.Cycles.Search
