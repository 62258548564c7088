import CodeAtlas.Proofs.Query.Cycles.Complete

/-!
# Caps on the number of cycles

A search with a cap goes the way of the one without a cap, as far as it goes. It stops at the cycle
that reaches the cap, so it reports the first cycles of the full report.

* `Search.step_eq_cutAt`       a step below the cap is the same, until it reaches the cap;
* `Search.StopsAt`             how a search with a cap ends, by how it ends without one;
* `Search.runAll_stopsAt`      this holds of all searches together;
* `materialize_take`           the first of the recorded cycles are reported first;
* `find_capped`                a report with a cap shows the first cycles of the full one.
-/

namespace CodeAtlas.Cycles

namespace Search

variable {g : DependencyGraph} {k fuel : Nat} {s s' : Search}

/-! ### One step -/

/-- the step, when as many cycles are enough -/
def Step.cutAt (k : Nat) : Step → Step
  | .running s => if k ≤ s.found.length then .capped s else .running s
  | other => other

theorem Step.cutAt_running (h : s.found.length < k) : cutAt k (.running s) = .running s :=
  if_neg (Nat.not_le.mpr h)

/-- Only a recorded cycle can reach the cap. -/
theorem step_eq_cutAt (h : s.found.length < k) : s.step g k = (s.step g 0).cutAt k := by
  cases hframes : s.frames with
  | nil =>
    rw [step_eq_finished.mpr hframes, step_eq_finished.mpr hframes]
    rfl
  | cons top outer =>
    have hsame : ∀ next : Search, next.found = s.found →
        Step.running next = (Step.running next).cutAt k := by
      intro next hfound
      rw [Step.cutAt_running (hfound ▸ h)]
    rw [step_of_frames hframes, step_of_frames hframes]
    cases hlink : (g.dependencies top.node)[top.next]? with
    | none => exact hsame _ rfl
    | some link =>
      dsimp only
      by_cases hself : link.entityId = top.node
      · simp only [if_pos hself]
        exact hsame _ rfl
      · simp only [if_neg hself]
        cases hplace : s.onStack.lookup link.entityId with
        | none =>
          dsimp only
          split
          · exact hsame _ rfl
          · exact hsame _ rfl
        | some place =>
          have hpos : 0 < k := by omega
          have hzero : ∀ s : Search, s.capped 0 = false := fun _ => rfl
          have hcapped : ∀ s : Search, s.capped k = decide (k ≤ s.found.length) := by
            intro s
            rw [capped, decide_eq_true hpos, Bool.true_and]
          simp only [hzero, hcapped, decide_eq_true_eq, Bool.false_eq_true, if_false, Step.cutAt]

theorem step_ne_capped : s.step g 0 ≠ .capped s' := by
  intro h
  have hcapped : s'.capped 0 = true := capped_of_step h
  cases hcapped

/-- A move records one cycle or none. -/
theorem Move.found (h : Move g s s') : s'.found = s.found ∨ ∃ c, s'.found = s.found ++ [c] := by
  cases h with
  | leave _ _ => exact .inl rfl
  | pass _ _ _ => exact .inl rfl
  | @close top outer link place _ _ _ _ =>
    rcases record_cases (s.advance top outer) (s.closeAt place link) with ⟨_, heq⟩ | ⟨_, heq⟩
    · rw [heq]
      exact .inl rfl
    · rw [heq]
      exact .inr ⟨_, rfl⟩
  | enter _ _ _ _ => exact .inl rfl

theorem Move.found_grows (h : Move g s s') : s.found <+: s'.found := by
  rcases h.found with heq | ⟨c, heq⟩
  · rw [heq]
  · rw [heq]
    exact List.prefix_append _ _

theorem Move.length_found_le (h : Move g s s') : s'.found.length ≤ s.found.length + 1 := by
  rcases h.found with heq | ⟨c, heq⟩
  · rw [heq]
    omega
  · rw [heq, List.length_append, List.length_singleton]

/-! ### All steps -/

/-- A search without a cap comes to its end, and keeps what was found. -/
structure Ends (s : Search) (full : Bool × Search) : Prop where
  ended : full.1 = true
  grows : s.found <+: full.2.found

theorem Ends.refl (s : Search) : Ends s (true, s) := ⟨rfl, List.prefix_refl _⟩

theorem loop_ends : Ends s (loop g 0 fuel s) := by
  induction fuel generalizing s with
  | zero => exact .refl s
  | succ fuel ih =>
    unfold loop
    cases hstep : s.step g 0 with
    | finished => exact .refl s
    | capped next => exact absurd hstep step_ne_capped
    | running next =>
      have hmove : Move g s next := move_of_step (.inl hstep)
      exact ⟨ih.ended, hmove.found_grows.trans ih.grows⟩

theorem runFrom_ends (start : String) : Ends s (runFrom g 0 s start) := by
  unfold runFrom
  split
  · exact .refl s
  · have hloop : Ends (s.startAt start) (loop g 0 (bound g) (s.startAt start)) := loop_ends
    exact ⟨hloop.ended, hloop.grows⟩

theorem runAll_ends (starts : List String) : Ends s (runAll g 0 s starts) := by
  induction starts generalizing s with
  | nil => exact .refl s
  | cons start starts ih =>
    have hfirst : Ends s (runFrom g 0 s start) := runFrom_ends start
    unfold runAll
    cases hrun : runFrom g 0 s start with
    | mk ended mid =>
      rw [hrun] at hfirst
      obtain rfl : ended = true := hfirst.ended
      exact ⟨ih.ended, hfirst.grows.trans ih.grows⟩

/-- With a cap a search ends in the same way, or it is cut as soon as the cap is reached. -/
structure StopsAt (k : Nat) (full stopped : Bool × Search) : Prop where
  ended : full.1 = true
  below : full.2.found.length < k → stopped = full
  reached : k ≤ full.2.found.length → stopped.1 = false ∧ stopped.2.found = full.2.found.take k

namespace StopsAt

variable {full stopped : Bool × Search}

theorem of_below (h : s.found.length < k) : StopsAt k (true, s) (true, s) where
  ended := rfl
  below _ := rfl
  reached hle := absurd h (Nat.not_lt.mpr hle)

/-- What is found later does not change what is cut. -/
theorem of_cut (hends : Ends s full) (hle : k ≤ s.found.length)
    (hfound : s'.found = s.found.take k) : StopsAt k full (false, s') where
  ended := hends.ended
  below hlt := absurd hends.grows.length_le (by omega)
  reached _ := by
    obtain ⟨rest, hrest⟩ := hends.grows
    refine ⟨rfl, ?_⟩
    show s'.found = _
    rw [hfound, ← hrest, List.take_append_of_le_length hle]

theorem found (h : StopsAt k full stopped) : stopped.2.found = full.2.found.take k := by
  rcases Nat.lt_or_ge full.2.found.length k with hlt | hle
  · rw [h.below hlt, List.take_of_length_le (Nat.le_of_lt hlt)]
  · exact (h.reached hle).2

theorem fst (h : StopsAt k full stopped) : stopped.1 = !decide (k ≤ full.2.found.length) := by
  rcases Nat.lt_or_ge full.2.found.length k with hlt | hle
  · rw [h.below hlt, h.ended, decide_eq_false (Nat.not_le.mpr hlt), Bool.not_false]
  · rw [(h.reached hle).1, decide_eq_true hle, Bool.not_true]

end StopsAt

theorem loop_stopsAt (h : s.found.length < k) :
    StopsAt k (loop g 0 fuel s) (loop g k fuel s) := by
  induction fuel generalizing s with
  | zero => exact .of_below h
  | succ fuel ih =>
    unfold loop
    rw [step_eq_cutAt h]
    cases hstep : s.step g 0 with
    | finished => exact .of_below h
    | capped next => exact absurd hstep step_ne_capped
    | running next =>
      have hmove : Move g s next := move_of_step (.inl hstep)
      rcases Nat.lt_or_ge next.found.length k with hlt | hle
      · rw [Step.cutAt_running hlt]
        exact ih hlt
      · have hlength := hmove.length_found_le
        rw [show (Step.running next).cutAt k = .capped next from if_pos hle]
        refine .of_cut loop_ends hle ?_
        rw [List.take_of_length_le (by omega)]

theorem runFrom_stopsAt (h : s.found.length < k) (start : String) :
    StopsAt k (runFrom g 0 s start) (runFrom g k s start) := by
  unfold runFrom
  by_cases hdone : s.done.contains start = true
  · rw [if_pos hdone, if_pos hdone]
    exact .of_below h
  · rw [if_neg hdone, if_neg hdone]
    exact @loop_stopsAt g k (bound g) (s.startAt start) h

/-- The cap counts the cycles of all searches together. -/
theorem runAll_stopsAt (h : s.found.length < k) (starts : List String) :
    StopsAt k (runAll g 0 s starts) (runAll g k s starts) := by
  induction starts generalizing s with
  | nil => exact .of_below h
  | cons start starts ih =>
    have hfirst : StopsAt k (runFrom g 0 s start) (runFrom g k s start) := runFrom_stopsAt h start
    unfold runAll
    cases hfull : runFrom g 0 s start with
    | mk ended mid =>
      rw [hfull] at hfirst
      obtain rfl : ended = true := hfirst.ended
      rcases Nat.lt_or_ge mid.found.length k with hlt | hle
      · rw [hfirst.below hlt]
        exact ih hlt
      · obtain ⟨hstopped, hfound⟩ := hfirst.reached hle
        cases hcut : runFrom g k s start with
        | mk stopped last =>
          rw [hcut] at hstopped hfound
          obtain rfl : stopped = false := hstopped
          exact .of_cut (runAll_ends starts) hle hfound

end Search

/-! ### Reports -/

variable {t : Tables} {found : List Found} {cycles : List Cycle} {full : CycleReport} {k : Nat}
  {name : Option String}

/-- If all ids of the recorded cycles are stored, every one of these is reported. -/
theorem materialize_take (hstored : ∀ f ∈ found, ∀ id ∈ f.ids, ∃ r ∈ t.entityRows, r.id = id)
    (h : materialize t found = .ok cycles) :
    cycles.length = found.length ∧ ∀ k, materialize t (found.take k) = .ok (cycles.take k) := by
  induction found generalizing cycles with
  | nil =>
    cases h
    refine ⟨rfl, fun k => ?_⟩
    rw [List.take_nil, List.take_nil]
    rfl
  | cons f found ih =>
    obtain ⟨entities, hentities, h⟩ := Tables.bind_eq_ok.mp h
    obtain ⟨rest, hrest, h⟩ := Tables.bind_eq_ok.mp h
    obtain ⟨hlength, htake⟩ := ih (fun f' hf' => hstored f' (List.mem_cons_of_mem f hf')) hrest
    cases entities with
    | none =>
      obtain ⟨id, hid, hmissing⟩ := members_eq_none hentities
      obtain ⟨r, hr, hrow⟩ := hstored f List.mem_cons_self id hid
      exact absurd hrow (hmissing r hr)
    | some es =>
      cases h
      refine ⟨congrArg (· + 1) hlength, fun k => ?_⟩
      cases k with
      | zero => rfl
      | succ k =>
        rw [List.take_succ_cons, materialize, hentities]
        show (materialize t (found.take k) >>= _) = _
        rw [htake k]
        rfl

theorem compute_capped (hk : 0 < k)
    (hends : ∀ r ∈ t.relationshipRows, ∃ e ∈ t.entityRows, e.id = r.sourceId)
    (h : compute ⟨name, 0⟩ t = .ok full) :
    full.summary.truncated = false ∧ compute ⟨name, k⟩ t =
      .ok ⟨full.cycles.take k, .ofCycles (full.cycles.take k) (k ≤ full.cycles.length)⟩ := by
  obtain ⟨g, ids, ended, s, hload, hids, hrun, hcycles, hsummary⟩ := compute_eq_ok h
  have hstops := Search.runAll_stopsAt (g := g) (s := .initial) hk ids
  have hstored : ∀ f ∈ s.found, ∀ id ∈ f.ids, ∃ r ∈ t.entityRows, r.id = id := by
    intro f hf id hid
    exact ((recorded_of_runAll hload hrun).2.closed f hf).exists_row hload hends hid
  obtain ⟨hlength, htake⟩ := materialize_take hstored hcycles
  replace hrun : Search.runAll g 0 .initial ids = (ended, s) := hrun
  cases hcut : Search.runAll g k .initial ids with
  | mk stopped last =>
    rw [hrun, hcut] at hstops
    obtain rfl : ended = true := hstops.ended
    have hstopped : stopped = !decide (k ≤ s.found.length) := hstops.fst
    have hfound : last.found = s.found.take k := hstops.found
    refine ⟨by rw [hsummary]; rfl, ?_⟩
    rw [compute, hload]
    show (starts ⟨name, k⟩ g t >>= _) = _
    rw [show starts ⟨name, k⟩ g t = .ok ids from hids]
    show (materialize t (Search.runAll g k .initial ids).2.found >>= fun cycles =>
      Except.ok (CycleReport.mk cycles (.ofCycles cycles !(Search.runAll g k .initial ids).1))) = _
    rw [hcut, hfound, htake k, hstopped, Bool.not_not, hlength]
    rfl

/-- **A cap cuts the report short.** In every state of every script, a report with a cap shows the
first cycles of the report without one, as they are there, and says that it is truncated if the full
report has as many as the cap or more. The full report is never truncated. -/
theorem find_capped (migrated : Bool) (p : Script) (state : Database)
    (h : state ∈ p.visited (Database.opened migrated)) (name : Option String) :
    (state.tables.entities.isSome = true → state.tables.relationships.isSome = true →
      ∃ full, (find ⟨name, 0⟩).runOn state = (.ok full, state)) ∧
    ∀ full after, (find ⟨name, 0⟩).runOn state = (.ok full, after) →
      after = state ∧ full.summary.truncated = false ∧
      ∀ k, 0 < k → ∃ capped, (find ⟨name, k⟩).runOn state = (.ok capped, state) ∧
        capped.cycles = full.cycles.take k ∧
        (capped.summary.truncated = true ↔ k ≤ full.cycles.length) := by
  have hsound := (p.visited_sound (Database.opened_sound migrated) state h).tables
  refine ⟨fun hents hrels => ?_, fun full after hrun => ?_⟩
  · obtain ⟨full, hfull⟩ := exists_compute (hsound.holdsGraph hents hrels) ⟨name, 0⟩
    exact ⟨full, by rw [find_runOn, hfull]⟩
  · rw [find_runOn] at hrun
    obtain ⟨hfull, hafter⟩ := Prod.mk.inj hrun
    have hends : ∀ r ∈ state.tables.relationshipRows, ∃ e ∈ state.tables.entityRows,
        e.id = r.sourceId := fun r hr => List.mem_map.mp (hsound.ends r hr).1
    have hcapped : ∀ k, 0 < k → full.summary.truncated = false ∧
        compute ⟨name, k⟩ state.tables = .ok ⟨full.cycles.take k,
          .ofCycles (full.cycles.take k) (k ≤ full.cycles.length)⟩ := fun k hk =>
      compute_capped hk hends hfull
    refine ⟨hafter.symm, (hcapped 1 Nat.one_pos).1, fun k hk => ?_⟩
    refine ⟨_, by rw [find_runOn, (hcapped k hk).2], rfl, ?_⟩
    exact decide_eq_true_iff

theorem find_capped_two :
    ∃ state ∈ storingTwoCycles.visited (Database.opened true), ∃ first second,
      (find ⟨none, 1⟩).runOn state = (.ok first, state) ∧
      (find ⟨none, 3⟩).runOn state = (.ok second, state) ∧
      first.cycles.map (fun c => c.entities.map (·.name)) = [["a", "b", "c"]] ∧
      second.cycles.map (fun c => c.entities.map (·.name)) = [["a", "b", "c"], ["a", "b"]] ∧
      first.summary.truncated = true ∧ second.summary.truncated = false := by
  have hmem := storingTwoCycles.final_mem_visited (Database.opened true)
  obtain ⟨full, hfull⟩ := exists_compute holdsGraph_storingTwoCycles ⟨none, 0⟩
  obtain ⟨-, hcapped⟩ := find_capped true storingTwoCycles _ hmem none
  obtain ⟨-, -, hcapped⟩ := hcapped full _ (by rw [find_runOn, hfull])
  obtain ⟨first, hfirst, hcycles, htruncated⟩ := hcapped 1 Nat.one_pos
  obtain ⟨second, hsecond, hcycles', htruncated'⟩ := hcapped 3 (by omega)
  have hnames : (compute ⟨none, 0⟩ (storingTwoCycles.run.runOn (Database.opened true)).2.tables).map
      (fun r => r.cycles.map fun c => c.entities.map (·.name)) =
      .ok [["a", "b", "c"], ["a", "b"]] := by
    rw [Database.opened_true]
    decide +kernel
  rw [hfull] at hnames
  have hnames : full.cycles.map (fun c => c.entities.map (·.name)) =
    [["a", "b", "c"], ["a", "b"]] := Except.ok.inj hnames
  have hlength : full.cycles.length = 2 := by
    rw [← List.length_map (fun c : Cycle => c.entities.map (·.name)), hnames]
    rfl
  refine ⟨_, hmem, first, second, hfirst, hsecond, ?_, ?_, ?_, ?_⟩
  · rw [hcycles, List.map_take, hnames]
    rfl
  · rw [hcycles', List.map_take, hnames]
    rfl
  · rw [htruncated, hlength]
    omega
  · rw [← Bool.not_eq_true, htruncated', hlength]
    omega

end CodeAtlas.Cycles
