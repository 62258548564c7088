import CodeAtlas.Proofs.Store.Migrated
import CodeAtlas.Proofs.Store.Scopes
import CodeAtlas.Proofs.Store.Soundness

/-!
# What a batch does

On tables that turn no row away, batches of valid rows succeed, and these are all of their effects.
The rows of a batch take consecutive numbers as their ids.

* `Tables.Ready`                 the tables of the graph are there and turn nothing away;
* `Entities.createBatch_runOn`   a batch of entities is appended;
* `Relationships.createBatch_runOn`   a batch of edges is appended, duplicates passed over;
* `Tables.HasEdge`               an edge by its ends and its kind, and what a batch adds to these.
-/

namespace CodeAtlas

namespace Tables

/-- the tables of the graph are there and turn no row away -/
structure Ready (t : Tables) : Prop where
  entities : t.entities = some ⟨t.entityRows, []⟩
  relationships : t.relationships = some ⟨t.relationshipRows, []⟩
  files : ∃ lastId, t.files = some ⟨⟨t.fileRecords, []⟩, lastId⟩

theorem ready_migrated : Ready .migrated := ⟨rfl, rfl, 0, rfl⟩

theorem Ready.entities_isSome {t : Tables} (h : t.Ready) : t.entities.isSome = true := by
  rw [h.entities, Option.isSome_some]

theorem Ready.files_isSome {t : Tables} (h : t.Ready) : t.files.isSome = true := by
  obtain ⟨lastId, hfiles⟩ := h.files
  rw [hfiles, Option.isSome_some]

/-- Whether two ends are joined by an edge of a kind. -/
def HasEdge (t : Tables) (source target kind : String) : Prop :=
  ∃ r ∈ t.relationshipRows, r.sourceId = source ∧ r.targetId = target ∧ r.kind = kind

end Tables

theorem RelationshipRow.sameEdge_iff {a b : RelationshipRow} :
    a.sameEdge b = true ↔ a.sourceId = b.sourceId ∧ a.targetId = b.targetId ∧ a.kind = b.kind := by
  simp [sameEdge, and_assoc]

open StoreM

/-! ### Entities -/

namespace Entities

/-- entities under consecutive ids -/
def numbered (n : Nat) : List NewEntity → List Entity
  | [] => []
  | new :: rest => { new with id := idOf n } :: numbered (n + 1) rest

theorem numbered_map_toNewEntity (n : Nat) (es : List NewEntity) :
    (numbered n es).map Entity.toNewEntity = es := by
  induction es generalizing n with
  | nil => rfl
  | cons new rest ih => exact congrArg (new :: ·) (ih (n + 1))

theorem numbered_id {n : Nat} {es : List NewEntity} {e : Entity} (h : e ∈ numbered n es) :
    ∃ k, n ≤ k ∧ e.id = idOf k := by
  induction es generalizing n with
  | nil => cases h
  | cons new rest ih =>
    rcases List.mem_cons.mp h with rfl | h
    · exact ⟨n, Nat.le_refl n, rfl⟩
    · obtain ⟨k, hk, hid⟩ := ih h
      exact ⟨k, Nat.le_of_succ_le hk, hid⟩

theorem insert_runOn_of_ready (new : NewEntity) {db : Database} {rows : List EntityRow}
    (h : db.tables.entities = some ⟨rows, []⟩) :
    (insert new).runOn db =
      (.ok { new with id := idOf db.idsUsed },
        { db with
          tables := { db.tables with
            entities := some ⟨rows ++ [.ofEntity { new with id := idOf db.idsUsed }], []⟩ }
          idsUsed := db.idsUsed + 1 }) := by
  have hins : db.tables.insertEntity (.ofEntity { new with id := idOf db.idsUsed }) =
      .ok { db.tables with
        entities := some ⟨rows ++ [.ofEntity { new with id := idOf db.idsUsed }], []⟩ } :=
    Tables.insertEntity_eq_ok.mpr ⟨_, h, List.not_mem_nil, rfl⟩
  rw [insert_runOn, hins]

theorem mapM_insert_runOn (es : List NewEntity) (db : Database) {rows : List EntityRow}
    (h : db.tables.entities = some ⟨rows, []⟩) :
    (es.mapM insert).runOn db =
      (.ok (numbered db.idsUsed es),
        { db with
          tables := { db.tables with
            entities := some ⟨rows ++ (numbered db.idsUsed es).map .ofEntity, []⟩ }
          idsUsed := db.idsUsed + es.length }) := by
  induction es generalizing db rows with
  | nil =>
    obtain ⟨t, b, s, d, n⟩ := db
    obtain ⟨ents, rels, files, ledger, others⟩ := t
    change ents = _ at h
    subst h
    simp only [numbered, List.map_nil, List.append_nil]
    rfl
  | cons new rest ih =>
    have hfirst := insert_runOn_of_ready new h
    rw [runOn_mapM_cons_ok hfirst (ih _ rfl)]
    simp only [numbered, List.map_cons, List.append_assoc, List.singleton_append, List.length_cons,
      Nat.add_assoc, Nat.add_comm 1]

theorem createBatch_runOn {es : List NewEntity} (hvalid : es.forM NewEntity.validate = .ok ())
    {db : Database} {rows : List EntityRow} (h : db.tables.entities = some ⟨rows, []⟩) :
    (createBatch es).runOn db =
      (.ok (numbered db.idsUsed es),
        { db with
          tables := { db.tables with
            entities := some ⟨rows ++ (numbered db.idsUsed es).map .ofEntity, []⟩ }
          idsUsed := db.idsUsed + es.length }) := by
  have hbody := mapM_insert_runOn es db.entered
    ((congrArg Tables.entities db.entered_tables).trans h)
  rw [createBatch, hvalid, runOn_bind_ok (runOn_lift _ db), runOn_mapError,
    (Balanced.mapM insert_balanced es).runOn_transaction, hbody]
  simp only [Database.entered_tables, Database.entered_idsUsed]
  rfl

end Entities

/-! ### Relationships -/

namespace Relationships

/-- edges under consecutive ids -/
def numbered (n : Nat) : List NewRelationship → List Relationship
  | [] => []
  | new :: rest => { new with id := idOf n } :: numbered (n + 1) rest

/-- the edges of a batch that are neither stored already nor repeat one before them -/
def fresh (rows : List RelationshipRow) : List Relationship → List Relationship
  | [] => []
  | r :: rest =>
    if rows.any (·.sameEdge (.ofRelationship r)) then fresh rows rest
    else r :: fresh (rows ++ [.ofRelationship r]) rest

section

variable {db : Database} {rows : List RelationshipRow}

/-- An edge that is stored already is passed over; it uses an id up all the same. -/
theorem insert_skip_runOn_of_stored (new : NewRelationship)
    (h : db.tables.relationships = some ⟨rows, []⟩) (hents : db.tables.entities.isSome = true)
    (hstored : rows.any (·.sameEdge (.ofRelationship { new with id := idOf db.idsUsed })) = true) :
    (insert .skip new).runOn db = (.ok none, { db with idsUsed := db.idsUsed + 1 }) := by
  rw [insert_runOn, Tables.insertRelationship_eq_ok.mpr
    ⟨_, h, hents, List.not_mem_nil, .inl ⟨rfl, rfl, hstored, rfl⟩⟩]
  rfl

/-- Any other edge between stored entities is appended. -/
theorem insert_skip_runOn_of_new (new : NewRelationship)
    (h : db.tables.relationships = some ⟨rows, []⟩) (hents : db.tables.entities.isSome = true)
    (hnew : rows.any (·.sameEdge (.ofRelationship { new with id := idOf db.idsUsed })) = false)
    (hsource : db.tables.hasEntity new.sourceId = true)
    (htarget : db.tables.hasEntity new.targetId = true) :
    (insert .skip new).runOn db =
      (.ok (some { new with id := idOf db.idsUsed }),
        { db with
          tables := { db.tables with
            relationships :=
              some ⟨rows ++ [.ofRelationship { new with id := idOf db.idsUsed }], []⟩ }
          idsUsed := db.idsUsed + 1 }) := by
  rw [insert_runOn, Tables.insertRelationship_eq_ok.mpr
    ⟨_, h, hents, List.not_mem_nil, .inr ⟨rfl, hnew, hsource, htarget, rfl⟩⟩]
  rfl

theorem mapM_insert_runOn (rs : List NewRelationship)
    (h : db.tables.relationships = some ⟨rows, []⟩) (hents : db.tables.entities.isSome = true)
    (hends : ∀ r ∈ rs,
      db.tables.hasEntity r.sourceId = true ∧ db.tables.hasEntity r.targetId = true) :
    ∃ created, created.filterMap id = fresh rows (numbered db.idsUsed rs) ∧
      (rs.mapM (insert .skip)).runOn db =
        (.ok created,
          { db with
            tables := { db.tables with
              relationships :=
                some ⟨rows ++ (fresh rows (numbered db.idsUsed rs)).map .ofRelationship, []⟩ }
            idsUsed := db.idsUsed + rs.length }) := by
  induction rs generalizing db rows with
  | nil =>
    refine ⟨[], rfl, ?_⟩
    obtain ⟨t, b, s, d, n⟩ := db
    obtain ⟨ents, rels, files, ledger, others⟩ := t
    change rels = _ at h
    subst h
    simp only [numbered, fresh, List.map_nil, List.append_nil]
    rfl
  | cons new rest ih =>
    obtain ⟨hs, ht⟩ := hends new List.mem_cons_self
    have hrest := fun r hr => hends r (List.mem_cons_of_mem _ hr)
    cases hany : rows.any (·.sameEdge (.ofRelationship { new with id := idOf db.idsUsed })) with
    | true =>
      have hfirst := insert_skip_runOn_of_stored new h hents hany
      obtain ⟨created, hcreated, hrun⟩ := @ih { db with idsUsed := db.idsUsed + 1 } rows h hents hrest
      refine ⟨none :: created, ?_, ?_⟩
      · rw [numbered, fresh, if_pos hany, ← hcreated]
        rfl
      · rw [runOn_mapM_cons_ok hfirst hrun]
        simp only [numbered, fresh, hany, if_true, List.length_cons, Nat.add_assoc, Nat.add_comm 1]
    | false =>
      have hfirst := insert_skip_runOn_of_new new h hents hany hs ht
      obtain ⟨created, hcreated, hrun⟩ := @ih
        { db with
          tables := { db.tables with
            relationships :=
              some ⟨rows ++ [.ofRelationship { new with id := idOf db.idsUsed }], []⟩ }
          idsUsed := db.idsUsed + 1 } _ rfl hents hrest
      refine ⟨some { new with id := idOf db.idsUsed } :: created, ?_, ?_⟩
      · rw [numbered, fresh, if_neg (by rw [hany]; exact Bool.false_ne_true), ← hcreated]
        rfl
      · rw [runOn_mapM_cons_ok hfirst hrun]
        simp only [numbered, fresh, hany, Bool.false_eq_true, if_false, List.map_cons,
          List.append_assoc, List.singleton_append, List.length_cons, Nat.add_assoc, Nat.add_comm 1]

end

theorem forM_validate_eq_ok {rs : List NewRelationship} :
    rs.forM NewRelationship.validate = .ok () ↔ ∀ r ∈ rs, r.sourceId ≠ "" ∧ r.targetId ≠ "" := by
  induction rs with
  | nil => exact ⟨fun _ => nofun, fun _ => rfl⟩
  | cons r rs ih =>
    show (r.validate >>= fun _ => rs.forM NewRelationship.validate) = .ok () ↔ _
    rw [Tables.bind_eq_ok, List.forall_mem_cons, ← ih, ← not_or, NewRelationship.validate]
    by_cases h : r.sourceId = "" ∨ r.targetId = ""
    · simp [h]
    · simp [h]

theorem createBatch_runOn (rs : List NewRelationship) (db : Database)
    {rows : List RelationshipRow} (h : db.tables.relationships = some ⟨rows, []⟩)
    (hents : db.tables.entities.isSome = true)
    (hids : ∀ r ∈ rs, r.sourceId ≠ "" ∧ r.targetId ≠ "")
    (hends : ∀ r ∈ rs,
      db.tables.hasEntity r.sourceId = true ∧ db.tables.hasEntity r.targetId = true) :
    (createBatch rs).runOn db =
      (.ok (fresh rows (numbered db.idsUsed rs)),
        { db with
          tables := { db.tables with
            relationships :=
              some ⟨rows ++ (fresh rows (numbered db.idsUsed rs)).map .ofRelationship, []⟩ }
          idsUsed := db.idsUsed + rs.length }) := by
  have htables := db.entered_tables
  obtain ⟨created, hcreated, hrun⟩ := mapM_insert_runOn rs
    ((congrArg Tables.relationships htables).trans h) (by rw [htables, hents])
    (by rw [htables]; exact hends)
  rw [createBatch, forM_validate_eq_ok.mpr hids, runOn_bind_ok (runOn_lift _ db), runOn_mapError,
    Balanced.runOn_transaction
      ((Balanced.mapM (insert_balanced .skip) rs).bind fun _ => .pure _),
    runOn_bind_ok hrun, runOn_pure, hcreated]
  simp only [Database.entered_tables, Database.entered_idsUsed]
  rfl

/-- A batch adds the edges that it lists. -/
theorem fresh_hasEdge (rows : List RelationshipRow) (rs : List Relationship)
    {source target kind : String} :
    (∃ r ∈ rows ++ (fresh rows rs).map .ofRelationship,
        r.sourceId = source ∧ r.targetId = target ∧ r.kind = kind) ↔
      (∃ r ∈ rows, r.sourceId = source ∧ r.targetId = target ∧ r.kind = kind) ∨
      ∃ r ∈ rs, r.sourceId = source ∧ r.targetId = target ∧ r.kind.name = kind := by
  induction rs generalizing rows with
  | nil => simp [fresh]
  | cons r rs ih =>
    rw [fresh]
    by_cases hany : rows.any (·.sameEdge (.ofRelationship r)) = true
    · rw [if_pos hany, ih, List.exists_mem_cons_iff]
      obtain ⟨old, hold, hsame⟩ := List.any_eq_true.mp hany
      obtain ⟨hs, ht, hk⟩ := RelationshipRow.sameEdge_iff.mp hsame
      -- the passed over edge is in the table already
      refine ⟨fun h => h.imp_right .inr, ?_⟩
      rintro (h | ⟨rfl, rfl, rfl⟩ | h)
      · exact .inl h
      · exact .inl ⟨old, hold, hs, ht, hk⟩
      · exact .inr h
    · rw [if_neg hany, List.map_cons, List.append_cons, ih, List.exists_mem_cons_iff]
      simp only [List.mem_append, List.mem_singleton, or_and_right, exists_or, exists_eq_left,
        or_assoc]
      rfl

end Relationships

end CodeAtlas
