import CodeAtlas.Proofs.Store.Batches

/-!
# Reading rows back

What a query gives, in terms of the rows of the tables.

* `Tables.HoldsGraph`        the tables can be queried, and edges join stored entities;
* `Entities.find?_eq_some`, `Entities.byFile_eq_ok` and their likes: what a query gave is in the
                             rows that it asks for;
* `FileLedger.find?_eq_ok` and its likes: what a query of the ledger gives;
* `Entities.exists_find?` and its likes: on such tables every query gives something;
* `Sound.holdsGraph`         sound tables hold a graph.
-/

namespace CodeAtlas

/-! ### Reading one after another -/

theorem exists_mapM_eq_ok {ε α β : Type} {f : α → Except ε β} {xs : List α}
    (h : ∀ x ∈ xs, ∃ y, f x = .ok y) : ∃ ys, xs.mapM f = .ok ys := by
  induction xs with
  | nil => exact ⟨[], rfl⟩
  | cons x xs ih =>
    obtain ⟨y, hy⟩ := h x List.mem_cons_self
    obtain ⟨ys, hys⟩ := ih fun x hx => h x (List.mem_cons_of_mem _ hx)
    exact ⟨y :: ys, by rw [List.mapM_cons, hy, hys]; rfl⟩

theorem forall₂_of_mapM_eq_ok {ε α β : Type} {f : α → Except ε β} {xs : List α} {ys : List β}
    (h : xs.mapM f = .ok ys) : List.Forall₂ (fun x y => f x = .ok y) xs ys := by
  induction xs generalizing ys with
  | nil =>
    cases h
    exact .nil
  | cons x xs ih =>
    rw [List.mapM_cons, Tables.bind_eq_ok] at h
    obtain ⟨y, hy, h⟩ := h
    rw [Tables.bind_eq_ok] at h
    obtain ⟨ys', hys, h⟩ := h
    cases h
    exact .cons hy (ih hys)

/-- the first of two related lists, member by member -/
theorem exists_of_forall₂_of_mem_right {α β : Type} {R : α → β → Prop} {xs : List α} {ys : List β}
    (h : List.Forall₂ R xs ys) {y : β} (hy : y ∈ ys) : ∃ x ∈ xs, R x y := by
  induction h with
  | nil => cases hy
  | cons hr _ ih =>
    rcases List.mem_cons.mp hy with rfl | hy
    · exact ⟨_, List.mem_cons_self, hr⟩
    · obtain ⟨x, hx, hr⟩ := ih hy
      exact ⟨x, List.mem_cons_of_mem _ hx, hr⟩

theorem exists_of_forall₂_of_mem_left {α β : Type} {R : α → β → Prop} {xs : List α} {ys : List β}
    (h : List.Forall₂ R xs ys) {x : α} (hx : x ∈ xs) : ∃ y ∈ ys, R x y :=
  exists_of_forall₂_of_mem_right h.flip hx

/-! ### Rows -/

theorem EntityKind.parse?_name (kind : EntityKind) : parse? kind.name = some kind := by
  cases kind <;> decide

theorem RelationshipKind.parse?_name (kind : RelationshipKind) : parse? kind.name = some kind := by
  cases kind <;> decide

theorem RelationshipKind.mem_dependencies {kind : RelationshipKind} :
    kind ∈ dependencies ↔ kind.isDependency = true := by
  cases kind <;> decide

theorem Cell.line_integer (n : UInt32) (column : Nat) (name : String) :
    (Cell.integer n.toNat).line column name = .ok n := by
  have hrange : (0 : Int) ≤ n.toNat ∧ (n.toNat : Int) < UInt32.size := by
    have hlt := n.toNat_lt_size
    omega
  rw [line, if_pos hrange, Int.toNat_natCast, UInt32.ofNat_toNat]

/-- An entity is read back from its row, but for what becomes of its metadata. -/
theorem EntityRow.read_ofEntity (e : Entity) :
    (ofEntity e).read = .ok { e with metadata := Metadata.decode (Metadata.encode e.metadata) } := by
  unfold read ofEntity
  simp only [EntityKind.parse?_name, Cell.line_integer]
  rfl

theorem EntityRow.read_eq_ok {r : EntityRow} {e : Entity} (h : r.read = .ok e) :
    e.id = r.id ∧ e.name = r.name ∧ e.filePath = r.filePath := by
  unfold read at h
  split at h
  · cases h
  · obtain ⟨first, _, h⟩ := Tables.bind_eq_ok.mp h
    obtain ⟨last, _, h⟩ := Tables.bind_eq_ok.mp h
    cases h
    exact ⟨rfl, rfl, rfl⟩

theorem RelationshipRow.read_eq_ok {r : RelationshipRow} {e : Relationship}
    (h : r.read = .ok e) :
    e.sourceId = r.sourceId ∧ e.targetId = r.targetId ∧
      RelationshipKind.parse? r.kind = some e.kind := by
  unfold read at h
  split at h
  · cases h
  · rename_i kind hkind
    cases h
    exact ⟨rfl, rfl, hkind⟩

theorem RelationshipRow.exists_read_ofRelationship (e : Relationship) :
    ∃ e', (ofRelationship e).read = .ok e' := by
  unfold read
  rw [show (ofRelationship e).kind = e.kind.name from rfl, RelationshipKind.parse?_name]
  exact ⟨_, rfl⟩

/-! ### Tables that can be queried -/

namespace Tables

/-- the tables of the graph are there, every row of them is read back, and edges join stored
entities -/
structure HoldsGraph (t : Tables) : Prop where
  entities : ∃ table, t.entities = some table
  relationships : ∃ table, t.relationships = some table
  entity : ∀ r ∈ t.entityRows, ∃ e, r.read = .ok e
  relationship : ∀ r ∈ t.relationshipRows, ∃ e, r.read = .ok e
  ends : ∀ r ∈ t.relationshipRows,
    (∃ e ∈ t.entityRows, e.id = r.sourceId) ∧ (∃ e ∈ t.entityRows, e.id = r.targetId)

/-- Rows that the calls of the library wrote are read back. -/
theorem Sound.exists_read {t : Tables} {n : Nat} (h : t.Sound n) {r : EntityRow}
    (hr : r ∈ t.entityRows) : ∃ e, r.read = .ok e := by
  obtain ⟨e, rfl, _⟩ := h.entity r hr
  exact ⟨_, EntityRow.read_ofEntity e⟩

theorem Sound.holdsGraph {t : Tables} {n : Nat} (h : t.Sound n)
    (hents : t.entities.isSome = true) (hrels : t.relationships.isSome = true) : t.HoldsGraph where
  entities := Option.isSome_iff_exists.mp hents
  relationships := Option.isSome_iff_exists.mp hrels
  entity _ hr := h.exists_read hr
  relationship r hr := by
    obtain ⟨e, rfl⟩ := h.relationship r hr
    exact RelationshipRow.exists_read_ofRelationship e
  ends r hr := by
    obtain ⟨hs, ht⟩ := h.ends r hr
    exact ⟨List.mem_map.mp hs, List.mem_map.mp ht⟩

end Tables

/-! ### Queries on entities -/

namespace Entities

variable {t : Tables} {rs : List EntityRow} {es : List Entity} {id : String}

theorem rows_eq_ok (h : rows t = .ok rs) : rs = t.entityRows := by
  unfold rows at h
  split at h
  · rename_i table htable
    rw [Tables.entityRows_of_some (Tables.entityTable_eq_ok.mp htable)]
    exact (Except.ok.inj h).symm
  · cases h

theorem exists_rows (h : t.HoldsGraph) : rows t = .ok t.entityRows := by
  obtain ⟨table, htable⟩ := h.entities
  unfold rows
  rw [Tables.entityTable_eq_ok.mpr htable, Tables.entityRows_of_some htable]

theorem readAll_eq_ok (h : readAll rs = .ok es) :
    List.Forall₂ (fun r e => r.read = .ok e) rs es := by
  unfold readAll at h
  split at h
  · rename_i entities hes
    cases h
    exact forall₂_of_mapM_eq_ok hes
  · cases h

theorem map_id_of_readAll (h : readAll rs = .ok es) :
    es.map Entity.id = rs.map EntityRow.id := by
  have hread := readAll_eq_ok h
  clear h
  induction hread with
  | nil => rfl
  | cons hr _ ih => rw [List.map_cons, List.map_cons, ih, (EntityRow.read_eq_ok hr).1]

theorem exists_readAll (h : t.HoldsGraph) (hrs : rs ⊆ t.entityRows) :
    ∃ es, readAll rs = .ok es := by
  obtain ⟨es, hes⟩ := exists_mapM_eq_ok fun r hr => h.entity r (hrs hr)
  exact ⟨es, by rw [readAll, hes]⟩

theorem find?_eq_some {e : Entity} (h : find? id t = .ok (some e)) :
    ∃ r ∈ t.entityRows, r.id = id ∧ r.read = .ok e := by
  obtain ⟨rs, hrs, h⟩ := Tables.bind_eq_ok.mp h
  obtain ⟨es, hes, h⟩ := Tables.bind_eq_ok.mp h
  have hhead : es.head? = some e := Except.ok.inj h
  obtain ⟨r, hr, hread⟩ :=
    exists_of_forall₂_of_mem_right (readAll_eq_ok hes) (List.mem_of_head? hhead)
  rw [rows_eq_ok hrs, List.mem_filter, beq_iff_eq] at hr
  exact ⟨r, hr.1, hr.2, hread⟩

theorem find?_eq_none (h : find? id t = .ok none) : ∀ r ∈ t.entityRows, r.id ≠ id := by
  obtain ⟨rs, hrs, h⟩ := Tables.bind_eq_ok.mp h
  obtain ⟨es, hes, h⟩ := Tables.bind_eq_ok.mp h
  have hnil : es = [] := List.head?_eq_none_iff.mp (Except.ok.inj h)
  intro r hr hid
  have hmem : r ∈ rs.filter (·.id == id) :=
    List.mem_filter.mpr ⟨rows_eq_ok hrs ▸ hr, beq_iff_eq.mpr hid⟩
  obtain ⟨e, he, _⟩ := exists_of_forall₂_of_mem_left (readAll_eq_ok hes) hmem
  exact absurd (hnil ▸ he) List.not_mem_nil

theorem exists_find? (h : t.HoldsGraph) (id : String) : ∃ found, find? id t = .ok found := by
  obtain ⟨es, hes⟩ := exists_readAll h (List.filter_subset_self (p := (·.id == id)) t.entityRows)
  exact ⟨es.head?, by rw [find?, exists_rows h]; show (readAll _ >>= _) = _; rw [hes]; rfl⟩

/-- A query for the rows that pass a test gives entities of their ids. -/
theorem byFile_eq_ok {filePath : String} (h : byFile filePath t = .ok es) :
    (es.map Entity.id).Perm ((t.entityRows.filter (·.filePath == filePath)).map EntityRow.id) := by
  obtain ⟨rs, hrs, h⟩ := Tables.bind_eq_ok.mp h
  rw [map_id_of_readAll h, rows_eq_ok hrs]
  exact (List.mergeSort_perm _ _).map _

theorem byName_eq_ok {name : String} (h : byName name t = .ok es) :
    (es.map Entity.id).Perm ((t.entityRows.filter (·.name == name)).map EntityRow.id) := by
  obtain ⟨rs, hrs, h⟩ := Tables.bind_eq_ok.mp h
  rw [map_id_of_readAll h, rows_eq_ok hrs]
  exact (List.mergeSort_perm _ _).map _

/-- The entities of a file are read if each of its rows is. -/
theorem exists_byFile_of_read {filePath : String} (htable : t.entities.isSome = true)
    (hread : ∀ r ∈ t.entityRows, r.filePath = filePath → ∃ e, r.read = .ok e) :
    ∃ es, byFile filePath t = .ok es := by
  obtain ⟨table, htable⟩ := Option.isSome_iff_exists.mp htable
  have hrows : ∀ r ∈ (t.entityRows.filter (·.filePath == filePath)).mergeSort
      (fun a b => a.startLine.le b.startLine), ∃ e, r.read = .ok e := by
    intro r hr
    rw [List.mem_mergeSort, List.mem_filter, beq_iff_eq] at hr
    exact hread r hr.1 hr.2
  obtain ⟨es, hes⟩ := exists_mapM_eq_ok hrows
  refine ⟨es, ?_⟩
  rw [Tables.entityRows_of_some htable] at hes
  rw [byFile, rows, Tables.entityTable_eq_ok.mpr htable]
  show readAll _ = _
  rw [readAll, hes]

theorem exists_byFile (h : t.HoldsGraph) (filePath : String) :
    ∃ es, byFile filePath t = .ok es :=
  exists_byFile_of_read (Option.isSome_iff_exists.mpr h.entities) fun r hr _ => h.entity r hr

theorem exists_byName (h : t.HoldsGraph) (name : String) : ∃ es, byName name t = .ok es := by
  have hsub : (t.entityRows.filter (·.name == name)).mergeSort placeLe ⊆ t.entityRows :=
    fun r hr => (List.mem_filter.mp ((List.mergeSort_perm _ _).mem_iff.mp hr)).1
  obtain ⟨es, hes⟩ := exists_readAll h hsub
  exact ⟨es, by rw [byName, exists_rows h]; exact hes⟩

end Entities

/-! ### Queries on the ledger -/

namespace FileLedger

variable {t : Tables}

theorem rows_eq_ok {records : List FileRecord} :
    rows t = .ok records ↔ t.files.isSome = true ∧ t.fileRecords = records := by
  unfold rows
  cases hfiles : t.fileTable with
  | ok table =>
    have htable := Tables.fileTable_eq_ok.mp hfiles
    rw [Tables.fileRecords_of_some htable, htable]
    exact ⟨fun h => ⟨rfl, Except.ok.inj h⟩, fun h => congrArg Except.ok h.2⟩
  | error fault =>
    refine ⟨nofun, fun ⟨hsome, _⟩ => ?_⟩
    obtain ⟨table, htable⟩ := Option.isSome_iff_exists.mp hsome
    rw [Tables.fileTable_eq_ok.mpr htable] at hfiles
    cases hfiles

theorem find?_eq_ok {filePath : String} {found : Option FileRecord} :
    find? filePath t = .ok found ↔
      t.files.isSome = true ∧ t.fileRecords.find? (·.filePath == filePath) = found := by
  constructor
  · intro h
    obtain ⟨records, hrows, h⟩ := Tables.bind_eq_ok.mp h
    obtain ⟨hfiles, rfl⟩ := rows_eq_ok.mp hrows
    exact ⟨hfiles, Except.ok.inj h⟩
  · rintro ⟨hfiles, rfl⟩
    rw [find?, rows_eq_ok.mpr ⟨hfiles, rfl⟩]
    rfl

theorem all_eq_ok {records : List FileRecord} :
    all t = .ok records ↔ t.files.isSome = true ∧
      t.fileRecords.mergeSort (fun a b => a.filePath ≤ b.filePath) = records := by
  constructor
  · intro h
    obtain ⟨rs, hrows, h⟩ := Tables.bind_eq_ok.mp h
    obtain ⟨hfiles, rfl⟩ := rows_eq_ok.mp hrows
    exact ⟨hfiles, Except.ok.inj h⟩
  · rintro ⟨hfiles, rfl⟩
    rw [all, rows_eq_ok.mpr ⟨hfiles, rfl⟩]
    rfl

end FileLedger

/-! ### Queries on relationships -/

namespace Relationships

variable {t : Tables} {rs : List Relationship}

theorem select_eq_ok {test : RelationshipRow → Bool} (h : select test t = .ok rs) :
    List.Forall₂ (fun row r => row.read = .ok r) (t.relationshipRows.filter test) rs := by
  obtain ⟨rows', hrows, h⟩ := Tables.bind_eq_ok.mp h
  have heq : rows' = t.relationshipRows := by
    unfold rows at hrows
    split at hrows
    · rename_i table htable
      rw [Tables.relationshipRows_of_some (Tables.relationshipTable_eq_ok.mp htable)]
      exact (Except.ok.inj hrows).symm
    · cases hrows
  subst heq
  unfold readAll at h
  split at h
  · rename_i read hread
    cases h
    exact forall₂_of_mapM_eq_ok hread
  · cases h

theorem exists_select_of_read {table : Table RelationshipRow} (htable : t.relationships = some table)
    (hread : ∀ r ∈ t.relationshipRows, ∃ e, r.read = .ok e) (test : RelationshipRow → Bool) :
    ∃ rs, select test t = .ok rs := by
  have hselected : ∀ r ∈ t.relationshipRows.filter test, ∃ e, r.read = .ok e := fun r hr =>
    hread r (List.mem_filter.mp hr).1
  obtain ⟨rs, hrs⟩ := exists_mapM_eq_ok hselected
  refine ⟨rs, ?_⟩
  have hrows : rows t = .ok t.relationshipRows := by
    unfold rows
    rw [Tables.relationshipTable_eq_ok.mpr htable, Tables.relationshipRows_of_some htable]
  rw [select, hrows]
  show readAll _ = _
  rw [readAll, hrs]

theorem exists_select (h : t.HoldsGraph) (test : RelationshipRow → Bool) :
    ∃ rs, select test t = .ok rs := by
  obtain ⟨table, htable⟩ := h.relationships
  exact exists_select_of_read htable h.relationship test

theorem byKind_eq_ok {kind : RelationshipKind} (h : byKind kind t = .ok rs)
    {source target : String} {kind' : RelationshipKind} :
    (∃ r ∈ rs, r.sourceId = source ∧ r.targetId = target ∧ r.kind = kind') ↔
      kind' = kind ∧ t.HasEdge source target kind'.name := by
  have hread := select_eq_ok h
  have hkind : ∀ row : RelationshipRow, ∀ r : Relationship,
      row ∈ t.relationshipRows.filter (·.kind == kind.name) → row.read = .ok r → r.kind = kind := by
    intro row r hrow hr
    have hname := beq_iff_eq.mp (List.mem_filter.mp hrow).2
    have hparse := (RelationshipRow.read_eq_ok hr).2.2
    rw [hname, RelationshipKind.parse?_name] at hparse
    exact (Option.some.inj hparse).symm
  constructor
  · rintro ⟨r, hr, rfl, rfl, rfl⟩
    obtain ⟨row, hrow, hr⟩ := exists_of_forall₂_of_mem_right hread hr
    obtain ⟨hs, ht, _⟩ := RelationshipRow.read_eq_ok hr
    have hk := hkind row r hrow hr
    obtain ⟨hmem, hname⟩ := List.mem_filter.mp hrow
    exact ⟨hk, row, hmem, hs.symm, ht.symm, hk ▸ beq_iff_eq.mp hname⟩
  · rintro ⟨rfl, row, hmem, rfl, rfl, hname⟩
    have hrow : row ∈ t.relationshipRows.filter (·.kind == kind'.name) :=
      List.mem_filter.mpr ⟨hmem, beq_iff_eq.mpr hname⟩
    obtain ⟨r, hr, hreads⟩ := exists_of_forall₂_of_mem_left hread hrow
    obtain ⟨hs, ht, _⟩ := RelationshipRow.read_eq_ok hreads
    exact ⟨r, hr, hs, ht, hkind row r hrow hreads⟩

theorem byKinds_eq_ok {kinds : List RelationshipKind} (h : byKinds kinds t = .ok rs)
    {source target : String} {kind : RelationshipKind} :
    (∃ r ∈ rs, r.sourceId = source ∧ r.targetId = target ∧ r.kind = kind) ↔
      kind ∈ kinds ∧ t.HasEdge source target kind.name := by
  obtain ⟨groups, hgroups, h⟩ := Tables.bind_eq_ok.mp h
  have heq : rs = groups.flatten := (Except.ok.inj h).symm
  have hread := forall₂_of_mapM_eq_ok hgroups
  subst heq
  constructor
  · rintro ⟨r, hr, hends⟩
    obtain ⟨group, hgroup, hr⟩ := List.mem_flatten.mp hr
    obtain ⟨k, hk, hbyKind⟩ := exists_of_forall₂_of_mem_right hread hgroup
    obtain ⟨rfl, hedge⟩ := (byKind_eq_ok hbyKind).mp ⟨r, hr, hends⟩
    exact ⟨hk, hedge⟩
  · rintro ⟨hk, hedge⟩
    obtain ⟨group, hgroup, hbyKind⟩ := exists_of_forall₂_of_mem_left hread hk
    obtain ⟨r, hr, hends⟩ := (byKind_eq_ok hbyKind).mpr ⟨rfl, hedge⟩
    exact ⟨r, List.mem_flatten.mpr ⟨group, hgroup, hr⟩, hends⟩

theorem exists_byKinds (h : t.HoldsGraph) (kinds : List RelationshipKind) :
    ∃ rs, byKinds kinds t = .ok rs := by
  have hkinds : ∀ kind ∈ kinds, ∃ rs, byKind kind t = .ok rs := fun kind _ => exists_select h _
  obtain ⟨groups, hgroups⟩ := exists_mapM_eq_ok hkinds
  exact ⟨groups.flatten, by rw [byKinds, hgroups]; rfl⟩

end Relationships

end CodeAtlas
