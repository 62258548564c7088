import CodeAtlas.Proofs.Store.Success

/-!
# Edges one by one and in a batch

A single edge that is stored already is an error, a batch passes over it. A batch succeeds if all of
its edges name stored ends, and it does then what a caller does that inserts one edge after another
and passes over this one error.

* `NewRelationship.Joinable`      the edge names two stored ends;
* `Relationships.create_ends`     all that inserting a single edge can do;
* `Relationships.createEach`      edges one by one, passing over those that are there already;
* `Relationships.fresh_congr`     which edges are new does not depend on ids;
* `Relationships.create_createBatch_agree`   the batch against the edges one by one.
-/

namespace CodeAtlas

open StoreM RelationshipRow

namespace NewRelationship

structure Joinable (t : Tables) (new : NewRelationship) : Prop where
  ids : new.sourceId ≠ "" ∧ new.targetId ≠ ""
  ends : t.hasEntity new.sourceId = true ∧ t.hasEntity new.targetId = true

/-- the error of an edge that is stored already -/
def duplicate (new : NewRelationship) : Error := .ofInsert new.insertion (.broken .uniqueEdge)

/-- the error of an edge without one of its ends -/
def unjoined (new : NewRelationship) : Error := .ofInsert new.insertion (.broken .endpoint)

theorem unjoined_ne_duplicate (new : NewRelationship) : new.unjoined ≠ new.duplicate := by
  intro h
  have htext := Error.constraint.inj h
  rw [String.append_right_inj] at htext
  exact absurd htext (by decide)

end NewRelationship

/-- every edge joins stored entities, as it does in sound tables -/
def Tables.EndsStored (t : Tables) : Prop :=
  ∀ r ∈ t.relationshipRows, t.hasEntity r.sourceId = true ∧ t.hasEntity r.targetId = true

namespace Relationships

/-- Inserts edges one by one and passes over those that are stored already. -/
def createEach : List NewRelationship → StoreM (List Relationship)
  | [] => pure []
  | new :: rest => do
    match ← attempt (create new) with
    | .ok r => return r :: (← createEach rest)
    | .error e => if e = new.duplicate then createEach rest else lift (.error e)

/-! ### Single edges -/

section

variable {t : Tables} {db : Database} {new : NewRelationship}

theorem relationships_withEdges (h : t.relationships = some ⟨t.relationshipRows, []⟩)
    (rs : List Relationship) :
    (withEdges rs t).relationships = some ⟨(withEdges rs t).relationshipRows, []⟩ := by
  rw [relationshipRows_withEdges h, withEdges, h]
  rfl

theorem insertRelationship_fail (h : t.relationships = some ⟨t.relationshipRows, []⟩)
    (hents : t.entities.isSome = true) (new : NewRelationship) (id : String) :
    t.insertRelationship .fail (.ofRelationship { new with id }) =
      if t.relationshipRows.any (·.sameEdge (.ofRelationship { new with id })) then
        .error (.broken .uniqueEdge)
      else if t.hasEntity new.sourceId && t.hasEntity new.targetId then
        .ok (true, withEdges [{ new with id }] t)
      else .error (.broken .endpoint) := by
  have hnone : t.entities.isNone = false := by rw [← Option.not_isSome, hents, Bool.not_true]
  rw [withEdges, h, Tables.insertRelationship, Tables.relationshipTable_eq_ok.mpr h]
  show (if t.entities.isNone then _ else _) = _
  rw [hnone]
  rfl

/-- All that inserting a single edge can do: it is checked for its ids, then for being new, then for
its ends. A rejected edge uses an id up once its own ids were checked. -/
inductive CreateEnd (db : Database) (new : NewRelationship) :
    Except Error Relationship × Database → Prop
  | unnamed (hids : new.sourceId = "" ∨ new.targetId = "") :
    CreateEnd db new (.error (.validation (.relationshipEnds new.kind.name)), db)
  | stored (hids : new.sourceId ≠ "" ∧ new.targetId ≠ "")
      (hstored : Stored db.tables.relationshipRows new.triple) :
    CreateEnd db new (.error new.duplicate, { db with idsUsed := db.idsUsed + 1 })
  | joined (hjoinable : new.Joinable db.tables)
      (hnew : ¬ Stored db.tables.relationshipRows new.triple) :
    CreateEnd db new (.ok { new with id := idOf db.idsUsed },
      { db with
        tables := withEdges [{ new with id := idOf db.idsUsed }] db.tables
        idsUsed := db.idsUsed + 1 })
  | unjoined (hids : new.sourceId ≠ "" ∧ new.targetId ≠ "")
      (hnew : ¬ Stored db.tables.relationshipRows new.triple)
      (hends : ¬ (db.tables.hasEntity new.sourceId = true ∧
        db.tables.hasEntity new.targetId = true)) :
    CreateEnd db new (.error new.unjoined, { db with idsUsed := db.idsUsed + 1 })

theorem create_ends (h : db.tables.relationships = some ⟨db.tables.relationshipRows, []⟩)
    (hents : db.tables.entities.isSome = true) (new : NewRelationship) :
    CreateEnd db new ((create new).runOn db) := by
  have hstored := @any_sameEdge_iff db.tables.relationshipRows { new with id := idOf db.idsUsed }
  rw [create, NewRelationship.validate]
  split
  · rename_i hids
    exact .unnamed hids
  · rename_i hids
    rw [not_or] at hids
    rw [runOn_bind_ok (runOn_lift _ db), runOn_bind, insert_runOn, insertRelationship_fail h hents]
    cases hany : db.tables.relationshipRows.any
        (·.sameEdge (.ofRelationship { new with id := idOf db.idsUsed })) with
    | true => exact .stored hids (hstored.mp hany)
    | false =>
      have hnew := fun hmem => Bool.eq_false_iff.mp hany (hstored.mpr hmem)
      cases hends : db.tables.hasEntity new.sourceId && db.tables.hasEntity new.targetId with
      | true => exact .joined ⟨hids, Bool.and_eq_true_iff.mp hends⟩ hnew
      | false =>
        refine .unjoined hids hnew fun hboth => ?_
        exact Bool.eq_false_iff.mp hends (Bool.and_eq_true_iff.mpr hboth)

/-- A single edge is inserted if and only if it names stored ends and is new. What is not inserted
changes nothing. -/
theorem create_strict (h : db.tables.relationships = some ⟨db.tables.relationshipRows, []⟩)
    (hents : db.tables.entities.isSome = true) {result : Except Error Relationship}
    {after : Database} (hrun : (create new).runOn db = (result, after)) :
    (result.isOk = true ↔
      new.Joinable db.tables ∧ ¬ Stored db.tables.relationshipRows new.triple) ∧
    (∀ r, result = .ok r → r.toNewRelationship = new ∧
      after = { db with tables := withEdges [r] db.tables, idsUsed := after.idsUsed }) ∧
    ∀ e, result = .error e → after = { db with idsUsed := after.idsUsed } ∧
      (e = new.duplicate ↔ (new.sourceId ≠ "" ∧ new.targetId ≠ "") ∧
        Stored db.tables.relationshipRows new.triple) := by
  have hend := create_ends h hents new
  rw [hrun] at hend
  cases hend with
  | unnamed hids =>
    have hnot : ¬ (new.sourceId ≠ "" ∧ new.targetId ≠ "") := not_and_or.mpr (by simpa using hids)
    refine ⟨⟨nofun, fun hok => absurd hok.1.ids hnot⟩, nofun, fun e he => ?_⟩
    cases he
    exact ⟨rfl, ⟨nofun, fun hstored => absurd hstored.1 hnot⟩⟩
  | stored hids hstored =>
    refine ⟨⟨nofun, fun hok => absurd hstored hok.2⟩, nofun, fun e he => ?_⟩
    cases he
    exact ⟨rfl, ⟨fun _ => ⟨hids, hstored⟩, fun _ => rfl⟩⟩
  | joined hjoinable hnew =>
    refine ⟨⟨fun _ => ⟨hjoinable, hnew⟩, fun _ => rfl⟩, fun r hr => ?_, nofun⟩
    cases hr
    exact ⟨rfl, rfl⟩
  | unjoined hids hnew hends =>
    refine ⟨⟨nofun, fun hok => absurd hok.1.ends hends⟩, nofun, fun e he => ?_⟩
    cases he
    exact ⟨rfl, ⟨fun heq => absurd heq new.unjoined_ne_duplicate,
      fun hstored => absurd hstored.2 hnew⟩⟩

end

/-! ### Edges one by one -/

section

variable {db : Database}

/-- Edges one by one are inserted like a batch of them, which passes over the same edges. -/
theorem createEach_runOn (rs : List NewRelationship)
    (h : db.tables.relationships = some ⟨db.tables.relationshipRows, []⟩)
    (hents : db.tables.entities.isSome = true) (hjoinable : ∀ r ∈ rs, r.Joinable db.tables) :
    (createEach rs).runOn db =
      (.ok (fresh db.tables.relationshipRows (numbered db.idsUsed rs)),
        { db with
          tables :=
            withEdges (fresh db.tables.relationshipRows (numbered db.idsUsed rs)) db.tables
          idsUsed := db.idsUsed + rs.length }) := by
  induction rs generalizing db with
  | nil =>
    rw [createEach, runOn_pure, numbered, fresh, withEdges_nil]
    rfl
  | cons new rs ih =>
    have hrest := fun r hr => hjoinable r (List.mem_cons_of_mem _ hr)
    have hend := create_ends h hents new
    rw [createEach, numbered]
    generalize hrun : (create new).runOn db = outcome at hend
    cases hend with
    | unnamed hids =>
      have hnames := (hjoinable new List.mem_cons_self).ids
      exact absurd hids (not_or.mpr hnames)
    | stored hids hstored =>
      have hfirst : (attempt (create new)).runOn db =
          (.ok (.error new.duplicate), { db with idsUsed := db.idsUsed + 1 }) := by
        rw [runOn_attempt, hrun]
      rw [runOn_bind_ok hfirst, fresh_of_stored hstored]
      dsimp only
      rw [if_pos rfl, @ih { db with idsUsed := db.idsUsed + 1 } h hents hrest]
      simp only [List.length_cons, Nat.add_assoc, Nat.add_comm 1]
    | joined _ hnew =>
      let r : Relationship := { new with id := idOf db.idsUsed }
      have hfirst : (attempt (create new)).runOn db = (.ok (.ok r),
          { db with tables := withEdges [r] db.tables, idsUsed := db.idsUsed + 1 }) := by
        rw [runOn_attempt, hrun]
      have hlater : ∀ other ∈ rs, other.Joinable (withEdges [r] db.tables) := fun other hother =>
        ⟨(hrest other hother).ids, (hrest other hother).ends⟩
      rw [runOn_bind_ok hfirst, fresh_of_new hnew]
      dsimp only
      have hlast := @ih
        { db with tables := withEdges [r] db.tables, idsUsed := db.idsUsed + 1 }
        (relationships_withEdges h [r]) hents hlater
      rw [runOn_bind_ok hlast, runOn_pure]
      dsimp only
      rw [relationshipRows_withEdges h, withEdges_withEdges]
      simp only [List.length_cons, Nat.add_assoc, Nat.add_comm 1]
      rfl
    | unjoined _ _ hends => exact absurd (hjoinable new List.mem_cons_self).ends hends

end

/-! ### New edges up to their ids -/

section

variable {rows rows' : List RelationshipRow} {rs rs' : List Relationship}

/-- Which edges are new depends on what is stored and on their ends and kinds, not on ids. -/
theorem fresh_congr (hrows : ∀ triple, Stored rows triple ↔ Stored rows' triple)
    (hrs : rs.map Relationship.toNewRelationship = rs'.map Relationship.toNewRelationship) :
    (fresh rows rs).map Relationship.toNewRelationship =
      (fresh rows' rs').map Relationship.toNewRelationship := by
  induction rs generalizing rows rows' rs' with
  | nil =>
    cases rs' with
    | nil => rfl
    | cons r' rs' => cases hrs
  | cons r rs ih =>
    cases rs' with
    | nil => cases hrs
    | cons r' rs' =>
      rw [List.map_cons, List.map_cons, List.cons.injEq] at hrs
      obtain ⟨hfirst, hrest⟩ := hrs
      have htriple : r.triple = r'.triple := congrArg NewRelationship.triple hfirst
      by_cases hstored : Stored rows r.triple
      · have hstored' : Stored rows' r'.triple := htriple ▸ (hrows _).mp hstored
        rw [fresh_of_stored hstored, fresh_of_stored hstored', ih hrows hrest]
      · have hnew : ¬ Stored rows' r'.triple := fun h => hstored ((hrows _).mpr (htriple ▸ h))
        rw [fresh_of_new hstored, fresh_of_new hnew, List.map_cons, List.map_cons, hfirst]
        refine congrArg _ (ih (fun triple => ?_) hrest)
        rw [stored_concat, stored_concat, hrows, htriple]

theorem fresh_eq_nil (h : ∀ r ∈ rs, Stored rows r.triple) : fresh rows rs = [] := by
  rw [List.eq_nil_iff_forall_not_mem]
  intro r hr
  obtain ⟨hmem, hnew⟩ := mem_fresh.mp (List.mem_map_of_mem hr)
  obtain ⟨r', hr', htriple⟩ := List.mem_map.mp hmem
  exact hnew (htriple ▸ h r' hr')

theorem stored_append {triple : String × String × RelationshipKind} :
    Stored (rows ++ rs.map .ofRelationship) triple ↔
      Stored rows triple ∨ triple ∈ rs.map (·.triple) := by
  induction rs generalizing rows with
  | nil => rw [List.map_nil, List.append_nil]; exact ⟨.inl, fun h => h.resolve_right nofun⟩
  | cons r rs ih =>
    rw [List.map_cons, List.append_cons, ih, stored_concat, List.map_cons, List.mem_cons, or_assoc,
      @eq_comm _ r.triple]

end

/-! ### Batches -/

section

variable {db after : Database}

/-- An edge that is inserted or passed over has stored ends, if every edge has some. -/
theorem joined_of_insert_skip {new : NewRelationship} {created : Option Relationship}
    (hends : db.tables.EndsStored) (h : (insert .skip new).runOn db = (.ok created, after)) :
    (db.tables.hasEntity new.sourceId = true ∧ db.tables.hasEntity new.targetId = true) ∧
      after.tables.EndsStored ∧ after.tables.hasEntity = db.tables.hasEntity := by
  obtain ⟨⟨table, htable⟩, ⟨-, hstored, rfl⟩ | ⟨-, -, hnew, rfl⟩⟩ := insert_skip_cases h
  · -- the stored edge that is like it has its ends
    obtain ⟨r, hr, hsame⟩ := List.any_eq_true.mp hstored
    obtain ⟨hsource, htarget, _⟩ := sameEdge_iff.mp hsame
    have hboth := hends r hr
    rw [hsource, htarget] at hboth
    exact ⟨hboth, hends, rfl⟩
  · refine ⟨hnew, fun r hr => ?_, rfl⟩
    rw [relationshipRows_withEdges htable] at hr
    rcases List.mem_append.mp hr with hr | hr
    · exact hends r hr
    · rw [List.mem_singleton.mp hr]
      exact hnew

theorem joined_of_mapM_insert {rs : List NewRelationship} {created : List (Option Relationship)}
    (hends : db.tables.EndsStored)
    (h : (rs.mapM (insert .skip)).runOn db = (.ok created, after)) :
    ∀ r ∈ rs, db.tables.hasEntity r.sourceId = true ∧ db.tables.hasEntity r.targetId = true := by
  induction rs generalizing db after created with
  | nil => nofun
  | cons new rs ih =>
    obtain ⟨first, mid, rest, hfirst, hrest, -⟩ := runOn_mapM_cons_eq_ok h
    obtain ⟨hnew, hmid, hsame⟩ := joined_of_insert_skip hends hfirst
    have hlater := ih hmid hrest
    rw [hsame] at hlater
    exact List.forall_mem_cons.mpr ⟨hnew, hlater⟩

/-- A batch succeeds if and only if each of its edges names stored ends. -/
theorem createBatch_isOk_iff {rs : List NewRelationship}
    (h : db.tables.relationships = some ⟨db.tables.relationshipRows, []⟩)
    (hents : db.tables.entities.isSome = true) (hends : db.tables.EndsStored) :
    ((createBatch rs).runOn db).1.isOk = true ↔ ∀ r ∈ rs, r.Joinable db.tables := by
  constructor
  · intro hok
    rcases hrun : (createBatch rs).runOn db with ⟨result, after⟩
    rw [hrun] at hok
    cases result with
    | error e => cases hok
    | ok created =>
      obtain ⟨_, _, hchecked, hrun⟩ := runOn_bind_eq_ok.mp hrun
      obtain ⟨hvalid, rfl⟩ := Prod.mk.inj hchecked
      obtain ⟨mid, hbody, _⟩ := runOn_transaction_eq_ok
        ((Balanced.mapM (insert_balanced .skip) rs).bind fun _ => .pure _) hrun
      obtain ⟨all, _, hall, _⟩ := runOn_bind_eq_ok.mp hbody
      have htables := db.entered_tables
      have hjoined := joined_of_mapM_insert (htables.symm ▸ hends) hall
      rw [htables] at hjoined
      exact fun r hr => ⟨forM_validate_eq_ok.mp hvalid r hr, hjoined r hr⟩
  · intro hjoinable
    rw [createBatch_runOn rs db h hents (fun r hr => (hjoinable r hr).ids)
      fun r hr => (hjoinable r hr).ends]
    rfl

/-- A batch that was just run has nothing left to do. -/
theorem createBatch_again {rs : List NewRelationship} {created : List Relationship}
    (h : db.tables.relationships = some ⟨db.tables.relationshipRows, []⟩)
    (hents : db.tables.entities.isSome = true) (hjoinable : ∀ r ∈ rs, r.Joinable db.tables)
    (hrun : (createBatch rs).runOn db = (.ok created, after)) :
    ∃ again, (createBatch rs).runOn after = (.ok [], again) ∧
      again = { after with idsUsed := again.idsUsed } := by
  obtain ⟨hcreated, hafter, hrows⟩ := createBatch_eq_ok hrun
  have htables : after.tables = withEdges created db.tables := by rw [hafter]
  have htable : after.tables.relationships = some ⟨after.tables.relationshipRows, []⟩ := by
    rw [htables]
    exact relationships_withEdges h created
  have hjoinable' : ∀ r ∈ rs, r.Joinable after.tables := by
    rw [htables]
    exact fun r hr => ⟨(hjoinable r hr).ids, (hjoinable r hr).ends⟩
  have hnothing : fresh after.tables.relationshipRows (numbered after.idsUsed rs) = [] := by
    refine fresh_eq_nil fun r hr => ?_
    have hmem : r.triple ∈ rs.map NewRelationship.triple := by
      have hnew := List.mem_map_of_mem (f := Relationship.toNewRelationship) hr
      rw [numbered_map_toNewRelationship] at hnew
      exact List.mem_map_of_mem hnew
    rw [hrows, stored_append, hcreated, mem_fresh_numbered]
    by_cases hstored : Stored db.tables.relationshipRows r.triple
    · exact .inl hstored
    · exact .inr ⟨hmem, hstored⟩
  have hents' : after.tables.entities.isSome = true := by
    rw [htables]
    exact hents
  have hagain := createBatch_runOn rs after htable hents' (fun r hr => (hjoinable' r hr).ids)
    fun r hr => (hjoinable' r hr).ends
  rw [hnothing] at hagain
  refine ⟨_, hagain, ?_⟩
  rw [(createBatch_eq_ok hagain).2.1, withEdges_nil]

end

/-! ### Agreement -/

/-- A batch does what inserting its edges one by one does for a caller who passes over the edges
that are stored already, whatever ids are given out on the way. -/
theorem create_createBatch_agree {db : Database} (hready : db.tables.Ready)
    (hends : db.tables.EndsStored) :
    (∀ new result after, (create new).runOn db = (result, after) →
      (result.isOk = true ↔
        new.Joinable db.tables ∧ ¬ Stored db.tables.relationshipRows new.triple) ∧
      (∀ r, result = .ok r → r.toNewRelationship = new ∧
        after = { db with tables := withEdges [r] db.tables, idsUsed := after.idsUsed }) ∧
      ∀ e, result = .error e → after = { db with idsUsed := after.idsUsed } ∧
        (e = new.duplicate ↔ (new.sourceId ≠ "" ∧ new.targetId ≠ "") ∧
          Stored db.tables.relationshipRows new.triple)) ∧
    ∀ rs, (((createBatch rs).runOn db).1.isOk = true ↔ ∀ r ∈ rs, r.Joinable db.tables) ∧
      ∀ created after, (createBatch rs).runOn db = (.ok created, after) →
        after = { db with tables := withEdges created db.tables, idsUsed := after.idsUsed } ∧
        (∀ n, ∃ each last, (createEach rs).runOn { db with idsUsed := n } = (.ok each, last) ∧
          each.map Relationship.toNewRelationship = created.map Relationship.toNewRelationship ∧
          last = { db with tables := withEdges each db.tables, idsUsed := last.idsUsed }) ∧
        ∃ again, (createBatch rs).runOn after = (.ok [], again) ∧
          again = { after with idsUsed := again.idsUsed } := by
  have hrels := hready.relationships
  have hents := hready.entities_isSome
  refine ⟨fun new result after => create_strict hrels hents, fun rs => ?_⟩
  have hiff := @createBatch_isOk_iff db rs hrels hents hends
  refine ⟨hiff, fun created after hrun => ?_⟩
  have hjoinable := hiff.mp (by rw [hrun]; rfl)
  obtain ⟨hcreated, hafter, _⟩ := createBatch_eq_ok hrun
  refine ⟨by rw [hafter], fun n => ?_, createBatch_again hrels hents hjoinable hrun⟩
  have heach := @createEach_runOn { db with idsUsed := n } rs hrels hents hjoinable
  refine ⟨_, _, heach, ?_, rfl⟩
  rw [hcreated]
  refine fresh_congr (fun _ => Iff.rfl) ?_
  rw [numbered_map_toNewRelationship, numbered_map_toNewRelationship]

/-- two entities, the first of which calls the second -/
def joinedPair : Database where
  tables := { Tables.migrated with
    entities := some ⟨["a", "b"].map fun id =>
      ⟨id, "function", id, "/a.ts", .integer 1, .integer 1, "typescript", none⟩, []⟩
    relationships := some ⟨[⟨"ab", "a", "b", "calls", none⟩], []⟩ }

/-- a stored edge, an edge that is there twice, an edge of another kind and an edge of an entity
with itself -/
def repeating : List NewRelationship :=
  [⟨"a", "b", .calls, none⟩, ⟨"b", "a", .calls, none⟩, ⟨"a", "b", .imports, none⟩,
    ⟨"b", "a", .calls, none⟩, ⟨"a", "a", .calls, none⟩]

theorem create_createBatch_agree_pair :
    ∃ created after each last again,
      (createBatch repeating).runOn joinedPair = (.ok created, after) ∧
      created.map (·.triple) = [("b", "a", .calls), ("a", "b", .imports), ("a", "a", .calls)] ∧
      (createEach repeating).runOn joinedPair = (.ok each, last) ∧
      each.map Relationship.toNewRelationship = created.map Relationship.toNewRelationship ∧
      (createBatch repeating).runOn after = (.ok [], again) ∧
      ((createBatch (repeating ++ [⟨"a", "c", .calls, none⟩])).runOn joinedPair).1.isOk = false := by
  have hends : joinedPair.tables.EndsStored := by
    unfold Tables.EndsStored
    decide
  have hready : joinedPair.tables.Ready := ⟨rfl, rfl, 0, rfl⟩
  obtain ⟨_, hbatch⟩ := create_createBatch_agree hready hends
  have hjoinable : ∀ r ∈ repeating, r.Joinable joinedPair.tables := by
    intro r hr
    have hall : ∀ r ∈ repeating, (r.sourceId ≠ "" ∧ r.targetId ≠ "") ∧
        joinedPair.tables.hasEntity r.sourceId = true ∧
          joinedPair.tables.hasEntity r.targetId = true := by decide
    exact ⟨(hall r hr).1, (hall r hr).2⟩
  obtain ⟨hiff, hagree⟩ := hbatch repeating
  have hmissing :
      ((createBatch (repeating ++ [⟨"a", "c", .calls, none⟩])).runOn joinedPair).1.isOk = false := by
    rw [Bool.eq_false_iff, Ne, (hbatch _).1]
    intro hall
    have hlast := (hall ⟨"a", "c", .calls, none⟩ (by simp)).ends
    exact absurd hlast (by decide)
  have htriples : ((createBatch repeating).runOn joinedPair).1.map (·.map (·.triple)) =
      .ok [("b", "a", .calls), ("a", "b", .imports), ("a", "a", .calls)] := by
    decide +kernel
  have hok := hiff.mpr hjoinable
  rcases hrun : (createBatch repeating).runOn joinedPair with ⟨result, after⟩
  rw [hrun] at hok htriples
  cases result with
  | error e => cases hok
  | ok created =>
    obtain ⟨_, heach, again, hagain, _⟩ := hagree created after hrun
    obtain ⟨each, last, hlast, hsame, _⟩ := heach 0
    exact ⟨created, after, each, last, again, rfl, Except.ok.inj htriples, hlast, hsame, hagain,
      hmissing⟩

end Relationships

end CodeAtlas
