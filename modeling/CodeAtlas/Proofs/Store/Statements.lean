import CodeAtlas.Store.Tables

/-!
# What a statement does

The rows of each table, and for each statement on the tables the exact condition under which it
succeeds and all that it then does. What is said about the tables is derived from these, without
another look inside of a statement.

* `Tables.without`           the tables when the entities that a test picks are gone, with every edge
                             at one of them;
* `Tables.without_without`   some entities first and others afterwards;
* `Tables.unrecorded`        the tables when the records of some paths are gone;
* `insertEntity_eq_ok` and its likes: one equivalence for each statement.
-/

namespace CodeAtlas.Tables

variable {t t' : Tables}

/-! ### Rows -/

def entityRows (t : Tables) : List EntityRow := (t.entities.map Table.rows).getD []

def relationshipRows (t : Tables) : List RelationshipRow := (t.relationships.map Table.rows).getD []

def fileRecords (t : Tables) : List FileRecord := (t.files.map fun table => table.rows).getD []

theorem entityRows_of_some {table : Table EntityRow} (h : t.entities = some table) :
    t.entityRows = table.rows := by
  rw [entityRows, h]
  rfl

theorem relationshipRows_of_some {table : Table RelationshipRow}
    (h : t.relationships = some table) : t.relationshipRows = table.rows := by
  rw [relationshipRows, h]
  rfl

theorem fileRecords_of_some {table : FileTable} (h : t.files = some table) :
    t.fileRecords = table.rows := by
  rw [fileRecords, h]
  rfl

/-! ### Access to tables -/

theorem entityTable_eq_ok {table : Table EntityRow} :
    t.entityTable = .ok table ↔ t.entities = some table := by
  unfold entityTable
  split <;> simp_all

theorem relationshipTable_eq_ok {table : Table RelationshipRow} :
    t.relationshipTable = .ok table ↔ t.relationships = some table := by
  unfold relationshipTable
  split <;> simp_all

theorem fileTable_eq_ok {table : FileTable} : t.fileTable = .ok table ↔ t.files = some table := by
  unfold fileTable
  split <;> simp_all

theorem bind_eq_ok {ε α β : Type} {x : Except ε α} {f : α → Except ε β} {b : β} :
    (x >>= f) = .ok b ↔ ∃ a, x = .ok a ∧ f a = .ok b := by
  cases x with
  | error e => simp [bind, Except.bind]
  | ok a => simp [bind, Except.bind]

/-! ### Entities -/

theorem hasEntity_iff {id : String} :
    t.hasEntity id = true ↔ ∃ table, t.entities = some table ∧ ∃ r ∈ table.rows, r.id = id := by
  unfold hasEntity
  split <;> simp_all

theorem hasEntity_iff_mem {id : String} :
    t.hasEntity id = true ↔ id ∈ t.entityRows.map EntityRow.id := by
  rw [hasEntity_iff, entityRows]
  cases t.entities with
  | none => simp
  | some table => simp

theorem insertEntity_eq_ok {row : EntityRow} :
    t.insertEntity row = .ok t' ↔
      ∃ table, t.entities = some table ∧ row.name ∉ table.rejects ∧
        t' = { t with entities := some { table with rows := table.rows ++ [row] } } := by
  rw [insertEntity, bind_eq_ok]
  simp only [entityTable_eq_ok]
  refine exists_congr fun table => and_congr_right fun _ => ?_
  split <;> simp_all [eq_comm]

/-- the edges that are left when entities go -/
theorem relationshipRows_dropEdges (gone : String → Bool) :
    (t.dropEdges gone).relationshipRows =
      t.relationshipRows.filter fun r => !gone r.sourceId && !gone r.targetId := by
  unfold dropEdges relationshipRows
  cases t.relationships <;> rfl

theorem mem_dropEdges {gone : String → Bool} {r : RelationshipRow} :
    r ∈ (t.dropEdges gone).relationshipRows ↔
      r ∈ t.relationshipRows ∧ gone r.sourceId = false ∧ gone r.targetId = false := by
  rw [relationshipRows_dropEdges, List.mem_filter, Bool.and_eq_true, Bool.not_eq_true',
    Bool.not_eq_true']

theorem dropEdges_none (t : Tables) : t.dropEdges (fun _ => false) = t := by
  obtain ⟨entities, relationships, files, ledger, others⟩ := t
  cases relationships with
  | none => rfl
  | some table =>
    have hrows : (table.rows.filter fun _ => true) = table.rows :=
      List.filter_eq_self.mpr fun _ _ => rfl
    simp only [dropEdges, Bool.not_false, Bool.and_self, Option.map_some, hrows]

/-! ### Cascades -/

theorem contains_one (name : String) : List.contains [name] = (· == name) := by
  funext other
  rw [List.contains_cons, List.contains_nil, Bool.or_false]

/-- the rows of a file -/
def rowsIn (filePath : String) (t : Tables) : List EntityRow :=
  t.entityRows.filter (·.filePath == filePath)

variable {doomed : EntityRow → Bool}

/-- the ids of the entities that a test picks -/
def idsOf (doomed : EntityRow → Bool) (t : Tables) : List String :=
  (t.entityRows.filter doomed).map EntityRow.id

theorem mem_idsOf {id : String} :
    id ∈ t.idsOf doomed ↔ ∃ r ∈ t.entityRows, doomed r = true ∧ r.id = id := by
  simp only [idsOf, List.mem_map, List.mem_filter, and_assoc]

/-- the tables without the entities that a test picks, and without every edge at one of them -/
def without (doomed : EntityRow → Bool) (t : Tables) : Tables :=
  dropEdges (t.idsOf doomed).contains { t with entities := t.entities.map fun table =>
    { table with rows := table.rows.filter fun r => !doomed r } }

theorem without_entityRows (doomed : EntityRow → Bool) (t : Tables) :
    (t.without doomed).entityRows = t.entityRows.filter fun r => !doomed r := by
  unfold entityRows without dropEdges
  cases t.entities <;> rfl

theorem without_relationshipRows (doomed : EntityRow → Bool) (t : Tables) :
    (t.without doomed).relationshipRows = t.relationshipRows.filter fun r =>
      !(t.idsOf doomed).contains r.sourceId && !(t.idsOf doomed).contains r.targetId :=
  relationshipRows_dropEdges _

theorem without_entities_isSome (doomed : EntityRow → Bool) (t : Tables) :
    (t.without doomed).entities.isSome = t.entities.isSome :=
  Option.isSome_map

theorem deleteEntities_eq_ok {n : Nat} :
    t.deleteEntities doomed = .ok (n, t') ↔
      t.entities.isSome = true ∧ n = (t.entityRows.filter doomed).length ∧
        t' = t.without doomed := by
  rw [deleteEntities, bind_eq_ok, Option.isSome_iff_exists, exists_and_right.symm]
  simp only [entityTable_eq_ok, List.length_map, Except.ok.injEq, Prod.mk.injEq]
  refine exists_congr fun table => and_congr_right fun htable => ?_
  rw [without, idsOf, entityRows_of_some htable, htable]
  exact and_congr eq_comm eq_comm

/-- Only the rows that are stored count. -/
theorem without_congr {doomed' : EntityRow → Bool} (h : ∀ r ∈ t.entityRows, doomed r = doomed' r) :
    t.without doomed = t.without doomed' := by
  have hids : t.idsOf doomed = t.idsOf doomed' := by rw [idsOf, idsOf, List.filter_congr h]
  rw [without, without, hids]
  cases htable : t.entities with
  | none => rfl
  | some table =>
    rw [entityRows_of_some htable] at h
    have hrows : (table.rows.filter fun r => !doomed r) = table.rows.filter fun r => !doomed' r :=
      List.filter_congr fun r hr => by rw [h r hr]
    rw [Option.map_some, Option.map_some, hrows]

/-- Where a test picks nothing, there is nothing to take away. -/
theorem without_of_forall (h : ∀ r ∈ t.entityRows, doomed r = false) : t.without doomed = t := by
  have hids : t.idsOf doomed = [] := by
    rw [idsOf, List.map_eq_nil_iff, List.filter_eq_nil_iff]
    exact fun r hr => Bool.eq_false_iff.mp (h r hr)
  have hentities : (t.entities.map fun table =>
      { table with rows := table.rows.filter fun r => !doomed r }) = t.entities := by
    cases htable : t.entities with
    | none => rfl
    | some table =>
      have hrows : (table.rows.filter fun r => !doomed r) = table.rows :=
        List.filter_eq_self.mpr fun r hr => by rw [h r (entityRows_of_some htable ▸ hr)]; rfl
      rw [Option.map_some, hrows]
  rw [without, hids, hentities]
  exact dropEdges_none t

/-- What goes later is what the first entities have left. -/
theorem contains_idsOf_or (doomed more : EntityRow → Bool) (t : Tables) (id : String) :
    (t.idsOf fun r => doomed r || more r).contains id =
      ((t.idsOf doomed).contains id || ((t.without doomed).idsOf more).contains id) := by
  rw [Bool.eq_iff_iff, Bool.or_eq_true]
  simp only [List.contains_iff_mem, mem_idsOf, without_entityRows, List.mem_filter,
    Bool.or_eq_true, Bool.not_eq_true', ← Bool.not_eq_true]
  constructor
  · rintro ⟨r, hr, hdoomed, rfl⟩
    by_cases hfirst : doomed r = true
    · exact .inl ⟨r, hr, hfirst, rfl⟩
    · exact .inr ⟨r, ⟨hr, hfirst⟩, hdoomed.resolve_left hfirst, rfl⟩
  · rintro (⟨r, hr, hdoomed, rfl⟩ | ⟨r, ⟨hr, -⟩, hdoomed, rfl⟩)
    · exact ⟨r, hr, .inl hdoomed, rfl⟩
    · exact ⟨r, hr, .inr hdoomed, rfl⟩

/-- Some entities first and others afterwards. -/
theorem without_without (doomed more : EntityRow → Bool) (t : Tables) :
    (t.without doomed).without more = t.without fun r => doomed r || more r := by
  have hentities : ((t.without doomed).without more).entities =
      (t.without fun r => doomed r || more r).entities := by
    show (t.entities.map _).map _ = t.entities.map _
    simp only [Option.map_map, Function.comp_def, List.filter_filter, Bool.not_or, Bool.and_comm]
  have hedge : ∀ r : RelationshipRow,
      (!(t.idsOf fun r => doomed r || more r).contains r.sourceId &&
          !(t.idsOf fun r => doomed r || more r).contains r.targetId) =
        ((!((t.without doomed).idsOf more).contains r.sourceId &&
            !((t.without doomed).idsOf more).contains r.targetId) &&
          (!(t.idsOf doomed).contains r.sourceId && !(t.idsOf doomed).contains r.targetId)) := by
    intro r
    rw [contains_idsOf_or, contains_idsOf_or]
    cases (t.idsOf doomed).contains r.sourceId <;> cases (t.idsOf doomed).contains r.targetId <;>
      simp
  have hrelationships : ((t.without doomed).without more).relationships =
      (t.without fun r => doomed r || more r).relationships := by
    show (t.relationships.map _).map _ = t.relationships.map _
    simp only [Option.map_map, Function.comp_def, List.filter_filter, hedge]
  show { t with
    entities := ((t.without doomed).without more).entities
    relationships := ((t.without doomed).without more).relationships } = _
  rw [hentities, hrelationships]
  rfl

/-! ### Relationships -/

/-- An edge is added if it is new and both of its ends are there; a duplicate is passed over where
that is asked for. -/
theorem insertRelationship_eq_ok {onDuplicate : OnDuplicate} {row : RelationshipRow} {new : Bool} :
    t.insertRelationship onDuplicate row = .ok (new, t') ↔
      ∃ table, t.relationships = some table ∧ t.entities.isSome = true ∧
        row.kind ∉ table.rejects ∧
        ((new = false ∧ onDuplicate = .skip ∧ table.rows.any (·.sameEdge row) = true ∧ t' = t) ∨
          (new = true ∧ table.rows.any (·.sameEdge row) = false ∧
            t.hasEntity row.sourceId = true ∧ t.hasEntity row.targetId = true ∧
            t' = { t with relationships := some { table with rows := table.rows ++ [row] } })) := by
  unfold insertRelationship
  rw [bind_eq_ok]
  simp only [relationshipTable_eq_ok]
  refine exists_congr fun table => and_congr_right fun _ => ?_
  rw [← Option.not_isNone, Bool.not_eq_true', ← Bool.not_eq_true, ← List.contains_iff_mem]
  cases t.entities.isNone with
  | true => simp
  | false =>
    cases table.rejects.contains row.kind with
    | true => simp
    | false =>
      cases table.rows.any (·.sameEdge row) with
      | true =>
        cases onDuplicate with
        | fail => simp
        | skip => simp [@eq_comm _ false, @eq_comm _ t]
      | false =>
        cases t.hasEntity row.sourceId <;> cases t.hasEntity row.targetId <;> simp [eq_comm]

theorem deleteRelationships_eq_ok {doomed : RelationshipRow → Bool} {n : Nat} :
    t.deleteRelationships doomed = .ok (n, t') ↔
      ∃ table, t.relationships = some table ∧ n = (table.rows.filter doomed).length ∧
        t' = { t with relationships := some { table with
            rows := table.rows.filter fun r => !doomed r } } := by
  rw [deleteRelationships, bind_eq_ok]
  simp only [relationshipTable_eq_ok, Except.ok.injEq, Prod.mk.injEq]
  exact exists_congr fun table => and_congr_right fun _ => and_congr eq_comm eq_comm

/-! ### Files -/

/-- the records after a path was given a new hash and language -/
def refreshed (filePath contentHash language : String) (table : FileTable) : List FileRecord :=
  if table.rows.any (·.filePath == filePath) then
    table.rows.map fun r => if r.filePath = filePath then { r with contentHash, language } else r
  else table.rows ++ [⟨table.lastId + 1, filePath, contentHash, language⟩]

theorem upsertFile_eq_ok {filePath contentHash language : String} :
    t.upsertFile filePath contentHash language = .ok t' ↔
      ∃ table, t.files = some table ∧ language ∉ table.rejects ∧
        t' = { t with files := some { table with
          rows := refreshed filePath contentHash language table
          lastId := table.lastId + 1 } } := by
  rw [upsertFile, bind_eq_ok]
  simp only [fileTable_eq_ok]
  refine exists_congr fun table => and_congr_right fun _ => ?_
  unfold refreshed
  cases hr : table.rejects.contains language with
  | true => simp_all
  | false =>
    have hk : language ∉ table.rejects := by simpa using hr
    cases table.rows.any (·.filePath == filePath) <;> simp_all [eq_comm]

/-- the tables without the records of the paths that a test picks -/
def unrecorded (gone : String → Bool) (t : Tables) : Tables :=
  { t with files := t.files.map fun table =>
      { table with rows := table.rows.filter fun r => !gone r.filePath } }

theorem unrecorded_fileRecords (gone : String → Bool) (t : Tables) :
    (t.unrecorded gone).fileRecords = t.fileRecords.filter fun r => !gone r.filePath := by
  unfold fileRecords unrecorded
  cases t.files <;> rfl

theorem unrecorded_none (t : Tables) : t.unrecorded (fun _ => false) = t := by
  obtain ⟨entities, relationships, files, ledger, others⟩ := t
  cases files with
  | none => rfl
  | some table =>
    have hrows : (table.rows.filter fun _ => true) = table.rows :=
      List.filter_eq_self.mpr fun _ _ => rfl
    simp only [unrecorded, Bool.not_false, Option.map_some, hrows]

theorem unrecorded_unrecorded (gone more : String → Bool) (t : Tables) :
    (t.unrecorded gone).unrecorded more = t.unrecorded fun path => gone path || more path := by
  simp only [unrecorded, Option.map_map, Function.comp_def, List.filter_filter, Bool.not_or,
    Bool.and_comm]

theorem unrecorded_without (gone : String → Bool) (doomed : EntityRow → Bool) (t : Tables) :
    (t.unrecorded gone).without doomed = (t.without doomed).unrecorded gone := rfl

theorem unrecorded_files_isSome (gone : String → Bool) (t : Tables) :
    (t.unrecorded gone).files.isSome = t.files.isSome :=
  Option.isSome_map

theorem deleteFile_eq_ok {filePath : String} {there : Bool} :
    t.deleteFile filePath = .ok (there, t') ↔
      t.files.isSome = true ∧ there = t.fileRecords.any (·.filePath == filePath) ∧
        t' = t.unrecorded (· == filePath) := by
  rw [deleteFile, bind_eq_ok, Option.isSome_iff_exists, exists_and_right.symm]
  simp only [fileTable_eq_ok, Except.ok.injEq, Prod.mk.injEq]
  refine exists_congr fun table => and_congr_right fun htable => ?_
  rw [unrecorded, fileRecords_of_some htable, htable]
  exact and_congr eq_comm eq_comm

end CodeAtlas.Tables
