import CodeAtlas.Proofs.Store.Reading

/-!
# What a batch did that succeeded

On any tables, whatever they turn away: if a batch succeeds then its rows were appended, under
consecutive ids, edges only where they were new, and nothing else happened.

* `Table.extend`                 a table with more rows at its end;
* `Entities.createBatch_eq_ok`   the effect of a batch of entities;
* `Relationships.createBatch_eq_ok`   the effect of a batch of edges;
* `NewRelationship.triple`       the ends of an edge and its kind, by which edges are told apart;
* `Relationships.mem_fresh_numbered`, `Relationships.fresh_numbered_first`   which edges are new.
-/

namespace CodeAtlas

/-- a table with more rows at its end -/
def Table.extend {ρ : Type} (rows : List ρ) (table : Table ρ) : Table ρ :=
  { table with rows := table.rows ++ rows }

theorem Table.extend_nil {ρ : Type} (table : Table ρ) : table.extend [] = table := by
  rw [extend, List.append_nil]

theorem Table.extend_extend {ρ : Type} (rows more : List ρ) (table : Table ρ) :
    (table.extend rows).extend more = table.extend (rows ++ more) := by
  unfold extend
  rw [List.append_assoc]

namespace StoreM

variable {α β : Type}

/-- A sequence succeeds if both of its parts do. -/
theorem runOn_bind_eq_ok {x : StoreM α} {f : α → StoreM β} {db after : Database} {b : β} :
    (x >>= f).runOn db = (.ok b, after) ↔
      ∃ a mid, x.runOn db = (.ok a, mid) ∧ (f a).runOn mid = (.ok b, after) := by
  rw [runOn_bind]
  rcases x.runOn db with ⟨r, mid⟩
  cases r with
  | error e => exact ⟨nofun, nofun⟩
  | ok a =>
    constructor
    · intro h
      exact ⟨a, mid, rfl, h⟩
    · rintro ⟨a', mid', hx, hf⟩
      cases hx
      exact hf

/-- The computations of a list succeed if each of them does. -/
theorem runOn_mapM_cons_eq_ok {γ : Type} {f : γ → StoreM α} {c : γ} {cs : List γ}
    {db after : Database} {as : List α} (h : ((c :: cs).mapM f).runOn db = (.ok as, after)) :
    ∃ a mid rest, (f c).runOn db = (.ok a, mid) ∧ (cs.mapM f).runOn mid = (.ok rest, after) ∧
      as = a :: rest := by
  rw [List.mapM_cons] at h
  obtain ⟨a, mid, hfirst, h⟩ := runOn_bind_eq_ok.mp h
  obtain ⟨rest, last, hrest, h⟩ := runOn_bind_eq_ok.mp h
  cases h
  exact ⟨a, mid, rest, hfirst, hrest, rfl⟩

/-- A block that succeeds keeps what its body wrote. -/
theorem runOn_transaction_eq_ok {x : StoreM α} (hx : Balanced x) {f : Error → Error}
    {db after : Database} {a : α} (h : (mapError f (transaction x)).runOn db = (.ok a, after)) :
    ∃ mid, x.runOn db.entered = (.ok a, mid) ∧
      after = { db with tables := mid.tables, idsUsed := mid.idsUsed } := by
  rw [runOn_mapError, hx.runOn_transaction] at h
  obtain ⟨hresult, hafter⟩ := Prod.mk.inj h
  rcases hrun : x.runOn db.entered with ⟨r, mid⟩
  rw [hrun] at hresult hafter
  cases r with
  | error e => cases hresult
  | ok a' =>
    cases hresult
    exact ⟨mid, rfl, hafter.symm⟩

end StoreM

open StoreM

/-! ### Entities -/

namespace Entities

variable {db after : Database} {created : List Entity} {table : Table EntityRow}

theorem insert_eq_ok {new : NewEntity} {e : Entity} (htable : db.tables.entities = some table)
    (h : (insert new).runOn db = (.ok e, after)) :
    e = { new with id := idOf db.idsUsed } ∧
      after = { db with
        tables := { db.tables with entities := some (table.extend [.ofEntity e]) }
        idsUsed := db.idsUsed + 1 } := by
  rw [insert_runOn] at h
  split at h
  · rename_i tables hinsert
    obtain ⟨table', htable', _, rfl⟩ := Tables.insertEntity_eq_ok.mp hinsert
    rw [htable, Option.some_inj] at htable'
    subst htable'
    cases h
    exact ⟨rfl, rfl⟩
  · cases h

theorem mapM_insert_eq_ok {es : List NewEntity} (htable : db.tables.entities = some table)
    (h : (es.mapM insert).runOn db = (.ok created, after)) :
    created = numbered db.idsUsed es ∧
      after = { db with
        tables := { db.tables with entities := some (table.extend (created.map .ofEntity)) }
        idsUsed := db.idsUsed + es.length } := by
  induction es generalizing db table created with
  | nil =>
    rw [List.mapM_nil, runOn_pure] at h
    cases h
    refine ⟨rfl, ?_⟩
    rw [List.map_nil, Table.extend_nil, ← htable]
    rfl
  | cons new es ih =>
    obtain ⟨e, mid, rest, hfirst, hrest, rfl⟩ := runOn_mapM_cons_eq_ok h
    obtain ⟨rfl, rfl⟩ := insert_eq_ok htable hfirst
    obtain ⟨rfl, hafter⟩ := ih rfl hrest
    refine ⟨rfl, ?_⟩
    rw [hafter, Table.extend_extend]
    simp only [List.length_cons, Nat.add_assoc, Nat.add_comm 1]
    rfl

/-- A batch of entities that succeeds is appended, and this is all that it does. -/
theorem createBatch_eq_ok {es : List NewEntity} (htable : db.tables.entities = some table)
    (h : (createBatch es).runOn db = (.ok created, after)) :
    created = numbered db.idsUsed es ∧
      after = { db with
        tables := { db.tables with entities := some (table.extend (created.map .ofEntity)) }
        idsUsed := db.idsUsed + es.length } := by
  obtain ⟨_, _, hvalid, h⟩ := runOn_bind_eq_ok.mp h
  obtain ⟨_, rfl⟩ := Prod.mk.inj hvalid
  obtain ⟨mid, hbody, hafter⟩ := runOn_transaction_eq_ok (.mapM insert_balanced es) h
  have htable' : db.entered.tables.entities = some table := by rw [db.entered_tables, htable]
  obtain ⟨hcreated, rfl⟩ := mapM_insert_eq_ok htable' hbody
  rw [db.entered_idsUsed] at hcreated
  refine ⟨hcreated, ?_⟩
  rw [hafter, db.entered_tables, db.entered_idsUsed]

end Entities

/-! ### Relationships -/

namespace Relationships

variable {db after : Database}

theorem numbered_map_toNewRelationship (n : Nat) (rs : List NewRelationship) :
    (numbered n rs).map Relationship.toNewRelationship = rs := by
  induction rs generalizing n with
  | nil => rfl
  | cons new rest ih => exact congrArg (new :: ·) (ih (n + 1))

/-- tables with more edges -/
def withEdges (rs : List Relationship) (t : Tables) : Tables :=
  { t with relationships := t.relationships.map (.extend (rs.map .ofRelationship)) }

theorem withEdges_nil (t : Tables) : withEdges [] t = t := by
  unfold withEdges
  cases hrels : t.relationships with
  | none => rw [Option.map_none, ← hrels]
  | some table => rw [List.map_nil, Option.map_some, Table.extend_nil, ← hrels]

theorem withEdges_withEdges (rs more : List Relationship) (t : Tables) :
    withEdges more (withEdges rs t) = withEdges (rs ++ more) t := by
  unfold withEdges
  cases t.relationships with
  | none => rfl
  | some table => simp only [Option.map_some, Table.extend_extend, List.map_append]

theorem relationshipRows_withEdges {t : Tables} {table : Table RelationshipRow}
    (h : t.relationships = some table) (rs : List Relationship) :
    (withEdges rs t).relationshipRows = t.relationshipRows ++ rs.map .ofRelationship := by
  rw [Tables.relationshipRows_of_some h, withEdges, h]
  rfl

/-- What a single edge did: it was passed over because there is one like it, or it was new, had both
of its ends, and was appended. -/
theorem insert_skip_cases {new : NewRelationship} {created : Option Relationship}
    (h : (insert .skip new).runOn db = (.ok created, after)) :
    (∃ table, db.tables.relationships = some table) ∧
      ((created = none ∧
          db.tables.relationshipRows.any
            (·.sameEdge (.ofRelationship { new with id := idOf db.idsUsed })) = true ∧
          after = { db with idsUsed := db.idsUsed + 1 }) ∨
        created = some { new with id := idOf db.idsUsed } ∧
          db.tables.relationshipRows.any
            (·.sameEdge (.ofRelationship { new with id := idOf db.idsUsed })) = false ∧
          (db.tables.hasEntity new.sourceId = true ∧ db.tables.hasEntity new.targetId = true) ∧
          after = { db with
            tables := withEdges [{ new with id := idOf db.idsUsed }] db.tables
            idsUsed := db.idsUsed + 1 }) := by
  rw [insert_runOn] at h
  split at h
  · rename_i isNew tables hinsert
    obtain ⟨table, htable, -, -, hcases⟩ := Tables.insertRelationship_eq_ok.mp hinsert
    rw [Tables.relationshipRows_of_some htable]
    refine ⟨⟨table, htable⟩, ?_⟩
    rcases hcases with ⟨rfl, -, hstored, rfl⟩ | ⟨rfl, hnew, hs, ht, rfl⟩
    · cases h
      exact .inl ⟨rfl, hstored, rfl⟩
    · cases h
      refine .inr ⟨rfl, hnew, ⟨hs, ht⟩, ?_⟩
      rw [withEdges, htable]
      rfl
  · cases h

theorem insert_skip_eq_ok {new : NewRelationship} {created : Option Relationship}
    (h : (insert .skip new).runOn db = (.ok created, after)) :
    created.toList = fresh db.tables.relationshipRows [{ new with id := idOf db.idsUsed }] ∧
      after = { db with
        tables := withEdges created.toList db.tables
        idsUsed := db.idsUsed + 1 } ∧
      after.tables.relationshipRows =
        db.tables.relationshipRows ++ created.toList.map .ofRelationship := by
  obtain ⟨⟨table, htable⟩, ⟨rfl, hstored, rfl⟩ | ⟨rfl, hnew, -, rfl⟩⟩ := insert_skip_cases h
  · rw [fresh, if_pos hstored]
    refine ⟨rfl, ?_, (List.append_nil _).symm⟩
    rw [Option.toList_none, withEdges_nil]
  · rw [fresh, hnew]
    exact ⟨rfl, rfl, relationshipRows_withEdges htable _⟩

theorem fresh_cons (rows : List RelationshipRow) (r : Relationship) (rs : List Relationship) :
    fresh rows (r :: rs) =
      fresh rows [r] ++ fresh (rows ++ (fresh rows [r]).map .ofRelationship) rs := by
  rw [fresh, fresh]
  by_cases hany : rows.any (·.sameEdge (.ofRelationship r)) = true
  · rw [if_pos hany, if_pos hany, fresh, List.map_nil, List.append_nil, List.nil_append]
  · rw [if_neg hany, if_neg hany, fresh]
    rfl

theorem mapM_insert_eq_ok {rs : List NewRelationship} {created : List (Option Relationship)}
    (h : (rs.mapM (insert .skip)).runOn db = (.ok created, after)) :
    created.filterMap id = fresh db.tables.relationshipRows (numbered db.idsUsed rs) ∧
      after = { db with
        tables := withEdges (created.filterMap id) db.tables
        idsUsed := db.idsUsed + rs.length } ∧
      after.tables.relationshipRows =
        db.tables.relationshipRows ++ (created.filterMap id).map .ofRelationship := by
  induction rs generalizing db created with
  | nil =>
    rw [List.mapM_nil, runOn_pure] at h
    cases h
    refine ⟨rfl, ?_, (List.append_nil _).symm⟩
    rw [List.filterMap_nil, withEdges_nil]
    rfl
  | cons new rs ih =>
    obtain ⟨first, mid, rest, hfirst, hrest, rfl⟩ := runOn_mapM_cons_eq_ok h
    obtain ⟨hcreated, hmid, hrows⟩ := insert_skip_eq_ok hfirst
    obtain ⟨hcreated', hafter, hrows'⟩ := ih hrest
    have hids : mid.idsUsed = db.idsUsed + 1 := by rw [hmid]
    have happend : (first :: rest).filterMap id = first.toList ++ rest.filterMap id := by
      cases first <;> rfl
    refine ⟨?_, ?_, ?_⟩
    · rw [happend, numbered, fresh_cons, ← hcreated, hcreated', hrows, hids]
    · rw [hafter, happend, ← withEdges_withEdges, hmid]
      simp only [List.length_cons, Nat.add_assoc, Nat.add_comm 1]
    · rw [hrows', hrows, happend, List.map_append, List.append_assoc]

/-- A batch of edges that succeeds appends the ones that are new, and this is all that it does. -/
theorem createBatch_eq_ok {rs : List NewRelationship} {created : List Relationship}
    (h : (createBatch rs).runOn db = (.ok created, after)) :
    created = fresh db.tables.relationshipRows (numbered db.idsUsed rs) ∧
      after = { db with
        tables := withEdges created db.tables
        idsUsed := db.idsUsed + rs.length } ∧
      after.tables.relationshipRows =
        db.tables.relationshipRows ++ created.map .ofRelationship := by
  obtain ⟨_, _, hvalid, h⟩ := runOn_bind_eq_ok.mp h
  obtain ⟨_, rfl⟩ := Prod.mk.inj hvalid
  obtain ⟨mid, hbody, hafter⟩ := runOn_transaction_eq_ok
    ((Balanced.mapM (insert_balanced .skip) rs).bind fun _ => .pure _) h
  obtain ⟨all, _, hall, hreturn⟩ := runOn_bind_eq_ok.mp hbody
  cases hreturn
  obtain ⟨hcreated, hmid, hrows⟩ := mapM_insert_eq_ok hall
  rw [db.entered_tables] at hcreated hrows
  rw [db.entered_idsUsed] at hcreated
  refine ⟨hcreated, ?_, ?_⟩
  · rw [hafter, hmid, db.entered_tables, db.entered_idsUsed]
  · rw [hafter, hrows]

end Relationships

/-! ### Edges by their ends and their kind -/

/-- the ends of an edge and its kind -/
def NewRelationship.triple (r : NewRelationship) : String × String × RelationshipKind :=
  (r.sourceId, r.targetId, r.kind)

/-- one of the rows has the ends and the kind -/
def RelationshipRow.Stored (rows : List RelationshipRow)
    (triple : String × String × RelationshipKind) : Prop :=
  ∃ row ∈ rows, row.sourceId = triple.1 ∧ row.targetId = triple.2.1 ∧ row.kind = triple.2.2.name

theorem RelationshipKind.name_inj {a b : RelationshipKind} (h : a.name = b.name) : a = b := by
  have hparse := congrArg parse? h
  rw [parse?_name, parse?_name, Option.some_inj] at hparse
  exact hparse

namespace Relationships

open RelationshipRow

variable {rows : List RelationshipRow} {rs : List Relationship}

theorem any_sameEdge_iff {r : Relationship} :
    rows.any (·.sameEdge (.ofRelationship r)) = true ↔ Stored rows r.triple := by
  rw [List.any_eq_true]
  exact exists_congr fun row => and_congr_right fun _ => sameEdge_iff

theorem stored_concat {r : Relationship} {triple : String × String × RelationshipKind} :
    Stored (rows ++ [.ofRelationship r]) triple ↔ Stored rows triple ∨ r.triple = triple := by
  have hlast : (r.sourceId = triple.1 ∧ r.targetId = triple.2.1 ∧ r.kind.name = triple.2.2.name) ↔
      r.triple = triple := by
    obtain ⟨source, target, kind⟩ := triple
    unfold NewRelationship.triple
    rw [Prod.mk.injEq, Prod.mk.injEq]
    exact and_congr_right fun _ => and_congr_right fun _ =>
      ⟨RelationshipKind.name_inj, fun h => congrArg _ h⟩
  unfold Stored
  rw [← hlast]
  simp only [List.mem_append, List.mem_singleton, or_and_right, exists_or, exists_eq_left]
  rfl

theorem fresh_of_stored {r : Relationship} (h : Stored rows r.triple) :
    fresh rows (r :: rs) = fresh rows rs := by
  rw [fresh, if_pos (any_sameEdge_iff.mpr h)]

theorem fresh_of_new {r : Relationship} (h : ¬ Stored rows r.triple) :
    fresh rows (r :: rs) = r :: fresh (rows ++ [.ofRelationship r]) rs := by
  rw [fresh, if_neg fun hany => h (any_sameEdge_iff.mp hany)]

theorem mem_fresh {triple : String × String × RelationshipKind} :
    triple ∈ (fresh rows rs).map (·.triple) ↔
      triple ∈ rs.map (·.triple) ∧ ¬ Stored rows triple := by
  induction rs generalizing rows with
  | nil => exact ⟨nofun, fun h => nomatch h.1⟩
  | cons r rs ih =>
    rw [List.map_cons, List.mem_cons]
    by_cases hstored : Stored rows r.triple
    · rw [fresh_of_stored hstored, ih]
      constructor
      · rintro ⟨hmem, hnew⟩
        exact ⟨.inr hmem, hnew⟩
      · rintro ⟨rfl | hmem, hnew⟩
        · exact absurd hstored hnew
        · exact ⟨hmem, hnew⟩
    · rw [fresh_of_new hstored, List.map_cons, List.mem_cons, ih, stored_concat, not_or]
      constructor
      · rintro (rfl | ⟨hmem, hnew, _⟩)
        · exact ⟨.inl rfl, hstored⟩
        · exact ⟨.inr hmem, hnew⟩
      · rintro ⟨rfl | hmem, hnew⟩
        · exact .inl rfl
        · by_cases hfirst : r.triple = triple
          · exact .inl hfirst.symm
          · exact .inr ⟨hmem, hnew, hfirst⟩

theorem fresh_sublist : (fresh rows rs).Sublist rs := by
  induction rs generalizing rows with
  | nil => exact .slnil
  | cons r rs ih =>
    rw [fresh]
    split
    · exact ih.cons r
    · exact ih.cons_cons r

theorem fresh_nodup : ((fresh rows rs).map (·.triple)).Nodup := by
  induction rs generalizing rows with
  | nil => exact .nil
  | cons r rs ih =>
    rw [fresh]
    split
    · exact ih
    · rw [List.map_cons, List.nodup_cons]
      refine ⟨fun hmem => ?_, ih⟩
      exact (mem_fresh.mp hmem).2 (stored_concat.mpr (.inr rfl))

/-- Of the edges of a batch that join the same ends in the same way the first one is added. -/
theorem fresh_first {r : Relationship} (h : r ∈ fresh rows rs) :
    rs.find? (fun other => other.triple = r.triple) = some r := by
  induction rs generalizing rows with
  | nil => cases h
  | cons first rs ih =>
    -- an edge that comes later differs from this one, which is in the table by then
    have hlater : ∀ {rows' : List RelationshipRow}, Stored rows' first.triple →
        r ∈ fresh rows' rs → first.triple ≠ r.triple := by
      intro rows' hstored hmem heq
      have hnew := (mem_fresh.mp (List.mem_map_of_mem hmem)).2
      exact hnew (heq ▸ hstored)
    by_cases hstored : Stored rows first.triple
    · rw [fresh_of_stored hstored] at h
      rw [List.find?_cons_of_neg (by simpa using hlater hstored h), ih h]
    · rw [fresh_of_new hstored] at h
      rcases List.mem_cons.mp h with rfl | h
      · rw [List.find?_cons_of_pos (by simp)]
      · have hne := hlater (stored_concat.mpr (.inr rfl)) h
        rw [List.find?_cons_of_neg (by simpa using hne), ih h]

/-! ### New edges under consecutive ids -/

section

variable {n : Nat} {edges : List NewRelationship}

theorem length_fresh_numbered_le : (fresh rows (numbered n edges)).length ≤ edges.length := by
  have hle : (fresh rows (numbered n edges)).length ≤ (numbered n edges).length :=
    fresh_sublist.length_le
  have hlength := congrArg List.length (numbered_map_toNewRelationship n edges)
  rw [List.length_map] at hlength
  omega

theorem mem_fresh_numbered {triple : String × String × RelationshipKind} :
    triple ∈ (fresh rows (numbered n edges)).map (·.triple) ↔
      triple ∈ edges.map (·.triple) ∧ ¬ Stored rows triple := by
  have hedges := numbered_map_toNewRelationship n edges
  generalize numbered n edges = rs at hedges ⊢
  subst hedges
  rw [mem_fresh, List.map_map]
  rfl

theorem fresh_numbered_first {r : Relationship} (h : r ∈ fresh rows (numbered n edges)) :
    edges.find? (fun other => other.triple = r.triple) = some r.toNewRelationship := by
  have hfirst := congrArg (Option.map Relationship.toNewRelationship) (fresh_first h)
  have hedges := numbered_map_toNewRelationship n edges
  generalize numbered n edges = rs at hfirst hedges
  subst hedges
  rw [List.find?_map]
  exact hfirst

end

end Relationships

end CodeAtlas
