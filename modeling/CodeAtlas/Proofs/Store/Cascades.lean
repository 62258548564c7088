import CodeAtlas.Proofs.Integrity
import CodeAtlas.Proofs.Store.Reading
import CodeAtlas.Store.Edit

/-!
# Deleting entities one by one and all at once

An edge goes with each of its ends. So it does not matter in which order entities are deleted, or
whether they are deleted by one statement: what is left is determined by the ids that are gone.

* `Sound.without_eq_dropEdges`    the edges that go with the entities of some ids;
* `Entities.mapM_delete_runOn`    what deleting one entity after another leaves;
* `Deleted`                       what was deleted, by the rows that are left;
* `Entities.deletes_agree`        deleting a file is deleting each of its entities, in any order,
                                  and deleting an entity is deleting its edges and then its row.
-/

namespace CodeAtlas

open StoreM

namespace Tables

variable {t : Tables} {gone more : List String}

theorem contains_of_perm (h : gone.Perm more) : gone.contains = more.contains := by
  funext id
  rw [Bool.eq_iff_iff, List.contains_iff_mem, List.contains_iff_mem]
  exact h.mem_iff

/-- An edge has stored ends only, so it goes with the entities of some ids if and only if one of its
ends is among these ids. -/
theorem Sound.without_eq_dropEdges {n : Nat} (h : t.Sound n) (gone : String → Bool) :
    t.without (fun r => gone r.id) = dropEdges gone { t with entities := t.entities.map fun table =>
      { table with rows := table.rows.filter fun r => !gone r.id } } := by
  have hstored : ∀ id ∈ t.entityRows.map EntityRow.id,
      (t.idsOf fun r => gone r.id).contains id = gone id := by
    intro id hid
    obtain ⟨r, hr, rfl⟩ := List.mem_map.mp hid
    exact h.contains_idsOf (fun r => gone r.id) hr
  rw [Tables.without, dropEdges, dropEdges]
  cases hrels : t.relationships with
  | none => rfl
  | some edges =>
    have hedges : (edges.rows.filter fun r =>
          !(t.idsOf fun r => gone r.id).contains r.sourceId &&
            !(t.idsOf fun r => gone r.id).contains r.targetId) =
        edges.rows.filter fun r => !gone r.sourceId && !gone r.targetId := by
      refine List.filter_congr fun r hr => ?_
      obtain ⟨hs, ht⟩ := h.ends r (relationshipRows_of_some hrels ▸ hr)
      rw [hstored _ hs, hstored _ ht]
    rw [Option.map_some, Option.map_some, hedges]

end Tables

/-! ### Deleting entities -/

namespace Entities

variable {db : Database} {filePath id : String}

theorem delete_runOn (hents : db.tables.entities.isSome = true) (id : String) :
    (delete id).runOn db =
      (.ok (db.tables.hasEntity id), { db with tables := db.tables.without (·.id == id) }) := by
  have hsome : decide (0 < (db.tables.entityRows.filter (·.id == id)).length) =
      db.tables.hasEntity id := by
    rw [Bool.eq_iff_iff, decide_eq_true_iff, Tables.hasEntity_iff_mem,
      List.length_pos_iff_exists_mem, List.mem_map]
    exact exists_congr fun r => by rw [List.mem_filter, beq_iff_eq]
  rw [delete, runOn_bind_ok (deleteWhere_eq_ok.mpr ⟨hents, rfl, rfl⟩), runOn_pure, hsome]

/-- Deleting one entity after another. Each is still there when its turn comes, since the ids are
distinct. -/
theorem mapM_delete_runOn (ids : List String) (hents : db.tables.entities.isSome = true)
    (hdistinct : ids.Nodup) (hstored : ∀ id ∈ ids, id ∈ db.tables.entityRows.map EntityRow.id) :
    (ids.mapM delete).runOn db =
      (.ok (ids.map fun _ => true),
        { db with tables := db.tables.without fun r => ids.contains r.id }) := by
  induction ids generalizing db with
  | nil =>
    have hnone : (db.tables.without fun r => List.contains [] r.id) = db.tables :=
      Tables.without_of_forall fun _ _ => rfl
    rw [List.mapM_nil, runOn_pure, hnone]
    rfl
  | cons id ids ih =>
    rw [List.nodup_cons] at hdistinct
    have hfirst := delete_runOn hents id
    rw [Tables.hasEntity_iff_mem.mpr (hstored id List.mem_cons_self)] at hfirst
    have hrest := @ih { db with tables := db.tables.without (·.id == id) }
      ((db.tables.without_entities_isSome _).trans hents) hdistinct.2 (by
        intro other hother
        obtain ⟨r, hr, rfl⟩ := List.mem_map.mp (hstored other (List.mem_cons_of_mem _ hother))
        have hne : r.id ≠ id := fun heq => hdistinct.1 (heq ▸ hother)
        rw [Tables.without_entityRows]
        exact List.mem_map_of_mem (List.mem_filter.mpr ⟨hr, by simpa using hne⟩))
    rw [runOn_mapM_cons_ok hfirst hrest, Tables.without_without]
    simp only [List.map_cons, List.contains_cons]

end Entities

theorem Relationships.deleteByEntity_runOn {db : Database}
    (hrels : db.tables.relationships.isSome = true) (id : String) :
    (deleteByEntity id).runOn db =
      (.ok (db.tables.relationshipRows.filter (·.touches id)).length,
        { db with tables := db.tables.dropEdges (· == id) }) := by
  obtain ⟨table, htable⟩ := Option.isSome_iff_exists.mp hrels
  have hkept : (table.rows.filter fun r => !r.touches id) =
      table.rows.filter fun r => !(r.sourceId == id) && !(r.targetId == id) :=
    List.filter_congr fun r _ => by rw [RelationshipRow.touches, Bool.not_or]
  have hdrop : db.tables.dropEdges (· == id) = { db.tables with
      relationships := some { table with rows := table.rows.filter fun r => !r.touches id } } := by
    rw [hkept, Tables.dropEdges, htable]
    rfl
  have hdelete := Tables.deleteRelationships_eq_ok.mpr ⟨table, htable, rfl, hdrop⟩
  rw [deleteByEntity, deleteWhere, runOn_execute, hdelete, Tables.relationshipRows_of_some htable]

/-! ### Agreement -/

/-- The entities of some ids were deleted with every edge at one of them, nothing else was changed,
and what is left is in the order in which it was. -/
structure Deleted (gone : List String) (db after : Database) : Prop where
  entityRows : after.tables.entityRows = db.tables.entityRows.filter fun r => !gone.contains r.id
  relationshipRows : after.tables.relationshipRows =
    db.tables.relationshipRows.filter fun r => !gone.contains r.sourceId && !gone.contains r.targetId
  files : after.tables.files = db.tables.files
  ledger : after.tables.ledger = db.tables.ledger
  others : after.tables.others = db.tables.others
  handle : after = { db with tables := after.tables }

theorem deleted_without {db : Database} {n : Nat} (h : db.tables.Sound n) (gone : List String) :
    Deleted gone db { db with tables := db.tables.without fun r => gone.contains r.id } where
  entityRows := db.tables.without_entityRows _
  relationshipRows := by
    show (db.tables.without fun r => gone.contains r.id).relationshipRows = _
    rw [h.without_eq_dropEdges, Tables.relationshipRows_dropEdges]
    rfl
  files := rfl
  ledger := rfl
  others := rfl
  handle := rfl

namespace Entities

variable {db : Database} {n : Nat}

/-- Deleting a file is deleting each of its entities, in any order. -/
theorem deleteByFile_agrees (h : db.tables.Sound n) (hents : db.tables.entities.isSome = true)
    {filePath : String} {es : List Entity} (hes : byFile filePath db.tables = .ok es) :
    ∃ after, (deleteByFile filePath).runOn db = (.ok es.length, after) ∧
      (∀ order : List Entity, order.Perm es →
        ((order.map (·.id)).mapM delete).runOn db = (.ok (order.map fun _ => true), after)) ∧
      Deleted (es.map (·.id)) db after := by
  have hids := byFile_eq_ok hes
  have hlength := hids.length_eq
  rw [List.length_map, List.length_map] at hlength
  -- the ids of the file, in whatever order, are those of the rows that the statement deletes
  have hwithout : ∀ order : List Entity, order.Perm es →
      db.tables.without (·.filePath == filePath) =
        db.tables.without fun r => (order.map (·.id)).contains r.id := by
    intro order horder
    -- an id belongs to one row only, so the rows of the file are those with the ids
    rw [Tables.contains_of_perm ((horder.map _).trans hids)]
    exact Tables.without_congr fun r hr => (h.contains_idsOf (·.filePath == filePath) hr).symm
  refine ⟨{ db with tables := db.tables.without (·.filePath == filePath) },
    deleteWhere_eq_ok.mpr ⟨hents, hlength, rfl⟩, ?_, ?_⟩
  · intro order horder
    have hperm := (horder.map Entity.id).trans hids
    have hdistinct : (order.map Entity.id).Nodup :=
      hperm.nodup_iff.mpr ((List.filter_sublist.map _).nodup h.distinctIds)
    have hstored : ∀ id ∈ order.map Entity.id, id ∈ db.tables.entityRows.map EntityRow.id :=
      fun id hid => (List.filter_sublist.map _).subset (hperm.mem_iff.mp hid)
    rw [mapM_delete_runOn _ hents hdistinct hstored, List.map_map, hwithout order horder]
    rfl
  · rw [hwithout es (.refl es)]
    exact deleted_without h _

/-- Deleting an entity is deleting its edges and then its row. -/
theorem delete_agrees (h : db.tables.Sound n) (hents : db.tables.entities.isSome = true)
    (hrels : db.tables.relationships.isSome = true) (id : String) :
    ∃ mid rows tables, (Relationships.deleteByEntity id).runOn db =
        (.ok (db.tables.relationshipRows.filter fun r =>
          r.sourceId == id || r.targetId == id).length, mid) ∧
      mid.tables.orphan id = .ok (rows, tables) ∧
      (delete id).runOn db = (.ok (db.tables.hasEntity id), { mid with tables }) ∧
      Deleted [id] db { mid with tables } := by
  obtain ⟨table, htable⟩ := Option.isSome_iff_exists.mp hents
  have horphan : (db.tables.dropEdges (· == id)).orphan id =
      .ok ((table.rows.filter (·.id == id)).length, db.tables.without (·.id == id)) := by
    have hmid : (db.tables.dropEdges (· == id)).entityTable = .ok table :=
      Tables.entityTable_eq_ok.mpr htable
    rw [Tables.orphan, hmid, h.without_eq_dropEdges (· == id), htable]
    rfl
  have hdeleted := deleted_without h [id]
  rw [Tables.contains_one] at hdeleted
  exact ⟨_, _, _, Relationships.deleteByEntity_runOn hrels id, horphan, delete_runOn hents id,
    hdeleted⟩

/-- In every state that a script reaches, deleting a file leaves what deleting each of its entities
leaves, in whatever order, and deleting an entity leaves what deleting its edges and then its row
leaves. Edges stay if and only if they keep both of their ends. -/
theorem deletes_agree {migrated : Bool} {p : Script} {db : Database}
    (hreached : db ∈ p.visited (Database.opened migrated))
    (hents : db.tables.entities.isSome = true) (hrels : db.tables.relationships.isSome = true) :
    (∀ filePath, ∃ es after, byFile filePath db.tables = .ok es ∧
      (deleteByFile filePath).runOn db = (.ok es.length, after) ∧
      (∀ order : List Entity, order.Perm es →
        ((order.map (·.id)).mapM delete).runOn db = (.ok (order.map fun _ => true), after)) ∧
      Deleted (es.map (·.id)) db after) ∧
    ∀ id, ∃ mid rows tables, (Relationships.deleteByEntity id).runOn db =
        (.ok (db.tables.relationshipRows.filter fun r =>
          r.sourceId == id || r.targetId == id).length, mid) ∧
      mid.tables.orphan id = .ok (rows, tables) ∧
      (delete id).runOn db = (.ok (db.tables.hasEntity id), { mid with tables }) ∧
      Deleted [id] db { mid with tables } := by
  have hsound := (p.visited_sound (Database.opened_sound migrated) db hreached).tables
  refine ⟨fun filePath => ?_, delete_agrees hsound hents hrels⟩
  obtain ⟨es, hes⟩ := exists_byFile (hsound.holdsGraph hents hrels) filePath
  obtain ⟨after, hdeleted⟩ := deleteByFile_agrees hsound hents hes
  exact ⟨es, after, hes, hdeleted⟩

/-- stores two functions of one file that are joined both ways and in two ways, one of them with
itself, and a third one that calls one of them and itself -/
def storingTangle : Script :=
  .call (.resolve
    [⟨.function, "a", "/a.ts", 1, 2, "typescript", none⟩,
      ⟨.function, "b", "/a.ts", 3, 4, "typescript", none⟩,
      ⟨.function, "c", "/c.ts", 1, 2, "typescript", none⟩]
    [⟨.calls, "a", "b", some "/a.ts", some "/a.ts", none⟩,
      ⟨.imports, "a", "b", some "/a.ts", some "/a.ts", none⟩,
      ⟨.calls, "b", "a", some "/a.ts", some "/a.ts", none⟩,
      ⟨.calls, "a", "a", some "/a.ts", some "/a.ts", none⟩,
      ⟨.calls, "c", "a", some "/c.ts", some "/a.ts", none⟩,
      ⟨.calls, "c", "c", some "/c.ts", some "/c.ts", none⟩])

theorem deletes_agree_tangle :
    ∃ state ∈ storingTangle.visited (Database.opened true), ∃ es after,
      byFile "/a.ts" state.tables = .ok es ∧
        (deleteByFile "/a.ts").runOn state = (.ok es.length, after) ∧
        ((es.reverse.map (·.id)).mapM delete).runOn state = (.ok [true, true], after) ∧
        state.tables.relationshipRows.length = 6 ∧
        after.tables.relationshipRows.map (fun r => (r.sourceId, r.targetId)) =
          [(idOf 2, idOf 2)] := by
  have hmem := storingTangle.final_mem_visited (Database.opened true)
  obtain ⟨hfile, _⟩ := deletes_agree hmem (by rw [Database.opened_true]; decide +kernel)
    (by rw [Database.opened_true]; decide +kernel)
  obtain ⟨es, after, hes, hall, horder, hdeleted⟩ := hfile "/a.ts"
  have hids := byFile_eq_ok hes
  have hrows : ((storingTangle.run.runOn (Database.opened true)).2.tables.entityRows.filter
      (·.filePath == "/a.ts")).map EntityRow.id = [idOf 0, idOf 1] := by
    rw [Database.opened_true]
    decide +kernel
  rw [hrows] at hids
  have hlength : es.length = 2 := by simpa using hids.length_eq
  refine ⟨_, hmem, es, after, hes, hall, ?_, ?_, ?_⟩
  · rw [horder es.reverse es.reverse_perm, List.map_const', List.length_reverse, hlength]
    rfl
  · rw [Database.opened_true]
    decide +kernel
  · rw [hdeleted.relationshipRows, Tables.contains_of_perm hids, Database.opened_true]
    decide +kernel

end Entities

end CodeAtlas
