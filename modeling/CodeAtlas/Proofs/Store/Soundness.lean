import CodeAtlas.Proofs.Store.Ids
import CodeAtlas.Proofs.Store.Ledger
import CodeAtlas.Store.Migrations
import Mathlib.Data.List.Nodup

/-!
# Sound tables

The invariant of the content of a database, and the proof that every statement keeps it.

* `Tables.Sound n`     the rows are rows of valid entities and of relationships, entities have
                       distinct ids with numbers below `n`, edges join stored entities and join no
                       two of them twice in the same way, and no path is in the ledger twice;
* `Sound.shrink`       rows may go, as long as no edge stays behind without one of its ends;
* `Sound.without`      entities go together with the edges at them;
* `Sound.insertEntity` and its likes: one lemma for each statement.
-/

namespace CodeAtlas

namespace Tables

variable {t t' : Tables} {n m : Nat}

/-! ### The invariant -/

/-- what holds of the content of a database after `issued` ids were given out -/
structure Sound (issued : Nat) (t : Tables) : Prop where
  entity : ∀ r ∈ t.entityRows, ∃ e : Entity, EntityRow.ofEntity e = r ∧ e.fault? = none
  issuedId : ∀ r ∈ t.entityRows, ∃ k, k < issued ∧ r.id = idOf k
  distinctIds : (t.entityRows.map EntityRow.id).Nodup
  relationship : ∀ r ∈ t.relationshipRows, ∃ e : Relationship, RelationshipRow.ofRelationship e = r
  ends : ∀ r ∈ t.relationshipRows,
    r.sourceId ∈ t.entityRows.map EntityRow.id ∧ r.targetId ∈ t.entityRows.map EntityRow.id
  distinctEdges : t.relationshipRows.Pairwise fun a b => a.sameEdge b = false
  distinctPaths : (t.fileRecords.map (·.filePath)).Nodup

namespace Sound

theorem empty (n : Nat) : Sound n {} where
  entity := nofun
  issuedId := nofun
  distinctIds := .nil
  relationship := nofun
  ends := nofun
  distinctEdges := .nil
  distinctPaths := .nil

theorem mono (h : t.Sound n) (hle : n ≤ m) : t.Sound m :=
  { h with
    issuedId := fun r hr => by
      obtain ⟨k, hk, hid⟩ := h.issuedId r hr
      exact ⟨k, Nat.lt_of_lt_of_le hk hle, hid⟩ }

/-- Rows may go, as long as no edge stays behind without one of its ends. -/
theorem shrink (h : t.Sound n) (he : t'.entityRows.Sublist t.entityRows)
    (hr : t'.relationshipRows.Sublist t.relationshipRows)
    (hf : t'.fileRecords.Sublist t.fileRecords)
    (hends : ∀ r ∈ t'.relationshipRows, ∀ e ∈ t.entityRows,
      e.id = r.sourceId ∨ e.id = r.targetId → e ∈ t'.entityRows) : t'.Sound n where
  entity r hmem := h.entity r (he.subset hmem)
  issuedId r hmem := h.issuedId r (he.subset hmem)
  distinctIds := (he.map EntityRow.id).nodup h.distinctIds
  relationship r hmem := h.relationship r (hr.subset hmem)
  ends r hmem := by
    obtain ⟨hs, ht⟩ := h.ends r (hr.subset hmem)
    obtain ⟨s, hs, hsid⟩ := List.mem_map.mp hs
    obtain ⟨e, ht, htid⟩ := List.mem_map.mp ht
    exact ⟨List.mem_map.mpr ⟨s, hends r hmem s hs (.inl hsid), hsid⟩,
      List.mem_map.mpr ⟨e, hends r hmem e ht (.inr htid), htid⟩⟩
  distinctEdges := h.distinctEdges.sublist hr
  distinctPaths := (hf.map (·.filePath)).nodup h.distinctPaths

/-- What is not a row does not matter. -/
theorem congr (h : t.Sound n) (he : t'.entityRows = t.entityRows)
    (hr : t'.relationshipRows = t.relationshipRows) (hf : t'.fileRecords = t.fileRecords) :
    t'.Sound n :=
  h.shrink (he ▸ .refl _) (hr ▸ .refl _) (hf ▸ .refl _) fun _ _ _ hmem _ => he ▸ hmem

/-- Entities go together with the edges at them. -/
theorem shrinkEntities (h : t.Sound n) {gone : String → Bool}
    (hr : t'.relationshipRows = t.relationshipRows) (hf : t'.fileRecords = t.fileRecords)
    (he : t'.entityRows.Sublist t.entityRows)
    (hkept : ∀ e ∈ t.entityRows, gone e.id = false → e ∈ t'.entityRows) :
    (t'.dropEdges gone).Sound n := by
  refine h.shrink he ?_ (hf ▸ .refl _) fun r hmem e hstored hend => ?_
  · rw [relationshipRows_dropEdges, hr]
    exact List.filter_sublist
  · obtain ⟨-, hs, ht⟩ := mem_dropEdges.mp hmem
    refine hkept e hstored ?_
    rcases hend with hend | hend
    · exact hend ▸ hs
    · exact hend ▸ ht

/-! ### Statements -/

/-- An entity is inserted under an id that was never given out before. -/
theorem insertEntity (h : t.Sound n) {e : Entity} (hvalid : e.fault? = none)
    (hid : e.id = idOf n) (hins : t.insertEntity (.ofEntity e) = .ok t') : t'.Sound (n + 1) := by
  obtain ⟨table, htable, _, rfl⟩ := insertEntity_eq_ok.mp hins
  have hrows : entityRows { t with
      entities := some { table with rows := table.rows ++ [EntityRow.ofEntity e] } } =
      t.entityRows ++ [EntityRow.ofEntity e] := by
    rw [entityRows_of_some htable]
    rfl
  constructor
  · intro r hr
    rw [hrows, List.mem_append, List.mem_singleton] at hr
    rcases hr with hr | rfl
    · exact h.entity r hr
    · exact ⟨e, rfl, hvalid⟩
  · intro r hr
    rw [hrows, List.mem_append, List.mem_singleton] at hr
    rcases hr with hr | rfl
    · obtain ⟨k, hk, hk'⟩ := h.issuedId r hr
      exact ⟨k, Nat.lt_succ_of_lt hk, hk'⟩
    · exact ⟨n, Nat.lt_succ_self n, hid⟩
  · have hnew : e.id ∉ t.entityRows.map EntityRow.id := by
      intro hmem
      obtain ⟨r, hr, hr'⟩ := List.mem_map.mp hmem
      obtain ⟨k, hk, hk'⟩ := h.issuedId r hr
      rw [hid, hk'] at hr'
      exact absurd (idOf_inj hr') (Nat.ne_of_lt hk)
    rw [hrows, List.map_append]
    show (_ ++ [e.id]).Nodup
    rw [← List.concat_eq_append]
    exact .concat hnew h.distinctIds
  · exact h.relationship
  · intro r hr
    rw [hrows, List.map_append]
    exact ⟨List.mem_append_left _ (h.ends r hr).1, List.mem_append_left _ (h.ends r hr).2⟩
  · exact h.distinctEdges
  · exact h.distinctPaths

/-- An id belongs to one row only. -/
theorem contains_idsOf (h : t.Sound n) (doomed : EntityRow → Bool) {r : EntityRow}
    (hr : r ∈ t.entityRows) : (t.idsOf doomed).contains r.id = doomed r := by
  rw [Bool.eq_iff_iff, List.contains_iff_mem, mem_idsOf]
  constructor
  · rintro ⟨r', hr', hdoomed, hid⟩
    exact List.inj_on_of_nodup_map h.distinctIds hr' hr hid ▸ hdoomed
  · exact fun hdoomed => ⟨r, hr, hdoomed, rfl⟩

theorem without (h : t.Sound n) (doomed : EntityRow → Bool) : (t.without doomed).Sound n := by
  refine h.shrinkEntities rfl rfl ?_ fun e he hkept => ?_
  · exact (without_entityRows doomed t) ▸ List.filter_sublist
  · rw [h.contains_idsOf doomed he] at hkept
    exact (without_entityRows doomed t) ▸ List.mem_filter.mpr ⟨he, by rw [hkept]; rfl⟩

theorem deleteEntities (h : t.Sound n) {doomed : EntityRow → Bool} {k : Nat}
    (hdel : t.deleteEntities doomed = .ok (k, t')) : t'.Sound n := by
  obtain ⟨-, -, rfl⟩ := deleteEntities_eq_ok.mp hdel
  exact h.without doomed

theorem insertRelationship (h : t.Sound n) {onDuplicate : OnDuplicate} {e : Relationship}
    {new : Bool} (hins : t.insertRelationship onDuplicate (.ofRelationship e) = .ok (new, t')) :
    t'.Sound n := by
  obtain ⟨table, htable, _, _, ⟨_, _, _, rfl⟩ | ⟨_, hnew, hs, ht, rfl⟩⟩ :=
    insertRelationship_eq_ok.mp hins
  · exact h
  · have hrows : relationshipRows { t with
        relationships := some { table with rows := table.rows ++ [.ofRelationship e] } } =
        t.relationshipRows ++ [.ofRelationship e] := by
      rw [relationshipRows_of_some htable]
      rfl
    refine { h with relationship := ?_, ends := ?_, distinctEdges := ?_ }
    · intro r hr
      rw [hrows, List.mem_append, List.mem_singleton] at hr
      rcases hr with hr | rfl
      · exact h.relationship r hr
      · exact ⟨e, rfl⟩
    · intro r hr
      rw [hrows, List.mem_append, List.mem_singleton] at hr
      rcases hr with hr | rfl
      · exact h.ends r hr
      · exact ⟨hasEntity_iff_mem.mp hs, hasEntity_iff_mem.mp ht⟩
    · rw [hrows, List.pairwise_append]
      refine ⟨h.distinctEdges, List.pairwise_singleton _ _, ?_⟩
      intro r hr r' hr'
      rw [List.mem_singleton.mp hr']
      rw [relationshipRows_of_some htable] at hr
      exact Bool.eq_false_iff.mpr (List.any_eq_false.mp hnew r hr)

theorem deleteRelationships (h : t.Sound n) {doomed : RelationshipRow → Bool} {k : Nat}
    (hdel : t.deleteRelationships doomed = .ok (k, t')) : t'.Sound n := by
  obtain ⟨table, htable, _, rfl⟩ := deleteRelationships_eq_ok.mp hdel
  refine h.shrink (.refl _) ?_ (.refl _) fun _ _ _ he _ => he
  rw [relationshipRows_of_some htable]
  exact List.filter_sublist

theorem upsertFile (h : t.Sound n) {filePath contentHash language : String}
    (hup : t.upsertFile filePath contentHash language = .ok t') : t'.Sound n := by
  obtain ⟨table, htable, _, rfl⟩ := upsertFile_eq_ok.mp hup
  refine { h with distinctPaths := ?_ }
  have hpaths := h.distinctPaths
  rw [fileRecords_of_some htable] at hpaths
  show ((refreshed filePath contentHash language table).map _).Nodup
  rw [refreshed_paths]
  split
  · exact hpaths
  · rename_i hnew
    rw [← List.concat_eq_append]
    exact .concat hnew hpaths

theorem deleteFile (h : t.Sound n) {filePath : String} {there : Bool}
    (hdel : t.deleteFile filePath = .ok (there, t')) : t'.Sound n := by
  obtain ⟨-, -, rfl⟩ := deleteFile_eq_ok.mp hdel
  refine h.shrink (.refl _) (.refl _) ?_ fun _ _ _ he _ => he
  rw [unrecorded_fileRecords]
  exact List.filter_sublist

/-! ### The schema -/

/-- Without entities there are no edges, so none is left when the entities are dropped. -/
theorem dropTable (h : t.Sound n) (name : String) : (t.dropTable name).Sound n := by
  unfold Tables.dropTable
  -- the entities and their edges go first, then the table of that name
  have hfirst : ∀ u : Tables, u.Sound n → Sound n { u with
      relationships := if sameName name "relationships" then none else u.relationships
      files := if sameName name "files" then none else u.files
      ledger := if sameName name "schema_migrations" then none else u.ledger
      others := u.others.filter fun other => !sameName name other } := by
    intro u hu
    refine hu.shrink (.refl _) ?_ ?_ fun _ _ _ he _ => he
    · unfold relationshipRows
      cases sameName name "relationships"
      · exact .refl _
      · exact List.nil_sublist _
    · unfold fileRecords
      cases sameName name "files"
      · exact .refl _
      · exact List.nil_sublist _
  apply hfirst
  cases hents : t.entities with
  | none => exact h
  | some table =>
    show Sound n (if sameName name "entities" then _ else t)
    split
    · refine h.shrinkEntities rfl rfl (List.nil_sublist _) fun e he hkept => ?_
      have hgone : (table.rows.map EntityRow.id).contains e.id = true :=
        List.contains_iff_mem.mpr (List.mem_map_of_mem (entityRows_of_some hents ▸ he))
      rw [hgone] at hkept
      cases hkept
    · exact h

theorem ifFree_eq_ok {name column : String} {f : Tables → Tables}
    (h : Migration.ifFree name column f t = .ok t') : t' = f t := by
  unfold Migration.ifFree at h
  split at h
  · cases h
  · exact (Except.ok.inj h).symm

/-- The built-in migrations add empty tables or drop tables. -/
theorem builtIn (h : t.Sound n) {m : Migration} (hm : m ∈ Migrations.builtIn.defined)
    {f : Tables → Except StorageFault Tables} (hf : f ∈ m.up ∨ f ∈ m.down)
    (hrun : f t = .ok t') : t'.Sound n := by
  have hmem : m ∈ Migration.builtIn := (List.mergeSort_perm _ _).mem_iff.mp hm
  simp only [Migration.builtIn, List.mem_cons, List.not_mem_nil, or_false] at hmem
  -- what takes a migration back drops its table
  have hdrop : ∀ name, f ∈ [fun t : Tables => Except.ok (t.dropTable name)] → t'.Sound n := by
    intro name hdown
    rw [List.mem_singleton.mp hdown] at hrun
    rw [← Except.ok.inj hrun]
    exact h.dropTable _
  rcases hmem with rfl | rfl | rfl
  · rcases hf with hup | hdown
    · rw [List.mem_singleton.mp hup] at hrun
      rw [ifFree_eq_ok hrun]
      refine h.congr ?_ rfl rfl
      unfold entityRows
      cases t.entities <;> rfl
    · exact hdrop _ hdown
  · rcases hf with hup | hdown
    · rw [List.mem_singleton.mp hup] at hrun
      rw [ifFree_eq_ok hrun]
      refine h.congr rfl ?_ rfl
      unfold relationshipRows
      cases t.relationships <;> rfl
    · exact hdrop _ hdown
  · rcases hf with hup | hdown
    · rw [List.mem_singleton.mp hup] at hrun
      rw [← Except.ok.inj hrun]
      split
      · exact h
      · refine h.congr rfl rfl ?_
        unfold fileRecords
        cases t.files <;> rfl
    · exact hdrop _ hdown

end Sound

end Tables

end CodeAtlas
