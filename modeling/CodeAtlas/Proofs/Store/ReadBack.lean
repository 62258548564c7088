import CodeAtlas.Proofs.Integrity
import CodeAtlas.Proofs.Metadata
import CodeAtlas.Proofs.Store.EdgeBatches

/-!
# Rows are read back

An entity or a relationship that is created is read back with the fields that it was created with. Only
its metadata may differ, and how far is known: it has gone through its text.

* `RelationshipRow.read_ofRelationship`   an edge as it is read from its row;
* `Entities.create_read_back`, `Relationships.create_read_back`      what is created is found;
* `Metadata.read_back`   what is stored of metadata, and what is read of it.
-/

namespace CodeAtlas

open StoreM RelationshipRow MetadataValue

/-! ### Rows -/

theorem RelationshipRow.read_ofRelationship (r : Relationship) : (ofRelationship r).read =
    .ok { r with metadata := Metadata.decode (Metadata.encode r.metadata) } := by
  unfold read ofRelationship
  simp only [RelationshipKind.parse?_name]

/-! ### Creating and reading -/

namespace Entities

variable {db : Database} {new : NewEntity}

theorem create_read_back {rows : List EntityRow} (hsound : db.tables.Sound db.idsUsed)
    (htable : db.tables.entities = some ⟨rows, []⟩) (hvalid : new.fault? = none) :
    ∃ e after, (create new).runOn db = (.ok e, after) ∧ e.toNewEntity = new ∧
      find? e.id after.tables =
        .ok (some { e with metadata := Metadata.decode (Metadata.encode new.metadata) }) := by
  have hcreate := insert_runOn_of_ready new htable
  have hfresh : rows.filter (·.id == idOf db.idsUsed) = [] := by
    refine List.filter_eq_nil_iff.mpr fun r hr hid => ?_
    have hrow : r ∈ db.tables.entityRows := by rwa [Tables.entityRows_of_some htable]
    obtain ⟨k, hk, hid'⟩ := hsound.issuedId r hrow
    exact absurd (idOf_inj (hid'.symm.trans (beq_iff_eq.mp hid))) (Nat.ne_of_lt hk)
  refine ⟨_, _, by rw [create, NewEntity.validate_eq_ok.mpr hvalid, runOn_bind_ok (runOn_lift _ db),
    hcreate], rfl, ?_⟩
  have hread : (EntityRow.ofEntity { new with id := idOf db.idsUsed }).read = _ :=
    EntityRow.read_ofEntity _
  have hfilter : (rows ++ [EntityRow.ofEntity { new with id := idOf db.idsUsed }]).filter
      (·.id == idOf db.idsUsed) = [.ofEntity { new with id := idOf db.idsUsed }] := by
    have hself : (idOf db.idsUsed == idOf db.idsUsed) = true := beq_self_eq_true _
    rw [List.filter_append, hfresh, List.nil_append, List.filter_singleton]
    show (bif idOf db.idsUsed == idOf db.idsUsed then _ else _) = _
    rw [hself]
    rfl
  show (readAll (List.filter _ (rows ++ _)) >>= _) = _
  rw [hfilter, readAll, List.mapM_cons, hread]
  rfl

end Entities

namespace Relationships

variable {db : Database} {new : NewRelationship}

theorem create_read_back {n : Nat} (hready : db.tables.Ready) (hsound : db.tables.Sound n)
    (hjoinable : new.Joinable db.tables) (hnew : ¬ Stored db.tables.relationshipRows new.triple) :
    ∃ r after, (create new).runOn db = (.ok r, after) ∧ r.toNewRelationship = new ∧
      ∀ test : RelationshipRow → Bool, test (.ofRelationship r) = true →
        ∃ rs, select test after.tables = .ok rs ∧
          { r with metadata := Metadata.decode (Metadata.encode new.metadata) } ∈ rs := by
  have hents := hready.entities_isSome
  rcases hrun : (create new).runOn db with ⟨result, after⟩
  obtain ⟨hok, hafter, -⟩ := create_strict hready.relationships hents hrun
  cases result with
  | error e => cases hok.mpr ⟨hjoinable, hnew⟩
  | ok r =>
    obtain ⟨rfl, hstored⟩ := hafter r rfl
    refine ⟨r, after, rfl, rfl, fun test htest => ?_⟩
    have hrows := relationshipRows_withEdges hready.relationships [r]
    have htable := relationships_withEdges hready.relationships [r]
    have hmem : RelationshipRow.ofRelationship r ∈ (withEdges [r] db.tables).relationshipRows := by
      rw [hrows]
      exact List.mem_append_right _ (List.mem_singleton_self _)
    have hread : ∀ row ∈ (withEdges [r] db.tables).relationshipRows, ∃ r', row.read = .ok r' := by
      rw [hrows]
      intro row hrow
      rcases List.mem_append.mp hrow with hrow | hrow
      · obtain ⟨r', rfl⟩ := hsound.relationship row hrow
        exact ⟨_, RelationshipRow.read_ofRelationship r'⟩
      · exact ⟨_, List.mem_singleton.mp hrow ▸ RelationshipRow.read_ofRelationship r⟩
    obtain ⟨rs, hrs⟩ := exists_select_of_read htable hread test
    rw [show after.tables = withEdges [r] db.tables by rw [hstored]]
    obtain ⟨r', hr', heq⟩ := exists_of_forall₂_of_mem_left (select_eq_ok hrs)
      (List.mem_filter.mpr ⟨hmem, htest⟩)
    rw [RelationshipRow.read_ofRelationship] at heq
    exact ⟨rs, hrs, Except.ok.inj heq ▸ hr'⟩

end Relationships

/-! ### Metadata -/

namespace Metadata

/-- what there is to read of the metadata of a row: an empty map is none -/
def kept : Option Metadata → Option Metadata
  | some [] => none
  | metadata => metadata

/-- metadata that is read back as it was stored -/
def Keeps (metadata : Option Metadata) : Prop := ∀ m ∈ metadata, m.Ordered ∧ m.Stable

theorem decode_encode_of_keeps {metadata : Option Metadata} (h : Keeps metadata) :
    decode (encode metadata) = kept metadata := by
  cases metadata with
  | none => rfl
  | some m =>
    cases m with
    | nil => rfl
    | cons e rest =>
      obtain ⟨hordered, hstable⟩ := h _ rfl
      exact (decode_encode_eq_some_iff hordered (List.cons_ne_nil e rest)).mpr hstable

/-- **Metadata is read back as it was stored**, as far as its numbers are. A map that is absent or empty
is stored as nothing, and nothing is read of nothing. Any other map has a text. What is read of the
text is the map if and only if it is not nested too deeply and each of its numbers is what the
number's own text stands for. It is nothing if and only if the map is nested too deeply or one of its
numbers is not finite. In between, it is the map with the numbers replaced by what their texts stand
for. A map that was read of some text is never lost, and is the same once more if and only if its
numbers are. Entities and relationships that are stored are read back with the fields that they were
created with, but for what becomes of their metadata. -/
theorem read_back :
    (encode none = none ∧ encode (some []) = none ∧ decode none = none) ∧
    (∀ m : Metadata, m.Ordered → m ≠ [] →
      (∃ text, encode (some m) = some text) ∧
      (decode (encode (some m)) = some m ↔
        m.depth ≤ maxDepth ∧ ∀ x ∈ m.numbers, reread? x = some x) ∧
      (decode (encode (some m)) = none ↔
        maxDepth < m.depth ∨ ∃ x ∈ m.numbers, x.isFinite = false) ∧
      ∀ m', decode (encode (some m)) = some m' → mapEntries? reread? m = some m') ∧
    (∀ text m, decode (some text) = some m → m ≠ [] →
      (∃ m', decode (encode (some m)) = some m' ∧ mapEntries? reread? m = some m') ∧
      (decode (encode (some m)) = some m ↔ ∀ x ∈ m.numbers, reread? x = some x)) ∧
    (∀ metadata, Keeps metadata → decode (encode metadata) = kept metadata) ∧
    ∀ (migrated : Bool) (p : Script), ∀ state ∈ p.visited (Database.opened migrated),
      state.tables.Ready →
      (∀ new : NewEntity, new.fault? = none →
        ∃ e after, (Entities.create new).runOn state = (.ok e, after) ∧
          e.toNewEntity = new ∧ Entities.find? e.id after.tables =
            .ok (some { e with metadata := decode (encode new.metadata) })) ∧
      ∀ new : NewRelationship, new.Joinable state.tables →
        ¬ Stored state.tables.relationshipRows new.triple →
        ∃ r after, (Relationships.create new).runOn state = (.ok r, after) ∧
          r.toNewRelationship = new ∧
          ∀ test : RelationshipRow → Bool, test (.ofRelationship r) = true →
            ∃ rs, Relationships.select test after.tables = .ok rs ∧
              { r with metadata := decode (encode new.metadata) } ∈ rs := by
  refine ⟨⟨rfl, rfl, rfl⟩, fun m hordered hne => ?stored, fun text m hread hne => ?reread,
    fun _ => decode_encode_of_keeps, fun migrated p state hstate hready => ?rows⟩
  case stored =>
    refine ⟨⟨_, encode_of_ne_nil hne⟩, decode_encode_eq_some_iff hordered hne,
      decode_encode_eq_none_iff hordered hne, fun m' hm' => ?_⟩
    rw [decode_encode hordered hne] at hm'
    split at hm'
    · exact hm'
    · cases hm'
  case reread =>
    obtain ⟨hordered, hdepth, hfinite⟩ := ordered_of_decode hread
    refine ⟨?_, (decode_encode_eq_some_iff hordered hne).trans (and_iff_right hdepth)⟩
    have hsome : decode (encode (some m)) ≠ none := fun hnone => by
      obtain hdeep | ⟨x, hx, hinfinite⟩ := (decode_encode_eq_none_iff hordered hne).mp hnone
      · exact absurd hdepth (Nat.not_le.mpr hdeep)
      · exact absurd (hfinite x hx) (Bool.not_eq_true _ ▸ hinfinite)
    obtain ⟨m', hm'⟩ := Option.ne_none_iff_exists'.mp hsome
    rw [decode_encode hordered hne, if_pos hdepth] at hm' ⊢
    exact ⟨m', hm', hm'⟩
  case rows =>
    have hsound := (p.visited_sound (Database.opened_sound migrated) state hstate).tables
    exact ⟨fun new => Entities.create_read_back hsound hready.entities,
      fun new => Relationships.create_read_back hready hsound⟩

/-- a function of two arguments that is asynchronous -/
def asyncPair : Metadata :=
  [("arity", .number (.ofNat 2)), ("modifiers", .map [("async", .bool true)])]

theorem keeps_asyncPair : Keeps (some asyncPair) := by
  intro m hm
  obtain rfl := Option.some.inj hm
  refine ⟨.map ?_ ?_, by decide, ?_⟩
  · unfold KeysAscend
    decide
  · refine List.forall_mem_cons.mpr ⟨.number _, List.forall_mem_singleton.mpr (.map ?_ ?_)⟩
    · exact List.pairwise_singleton _ _
    · exact List.forall_mem_singleton.mpr (.bool true)
  · show ∀ x ∈ [Binary64.ofNat 2], reread? x = some x
    decide +kernel

/-- stores two functions -/
def storingPair : Script :=
  .call (.createEntities
    [⟨.function, "f", "/a.ts", 1, 2, "typescript", none⟩,
      ⟨.function, "g", "/a.ts", 3, 4, "typescript", none⟩])

/-- A function and a call are read back with their metadata. -/
theorem read_back_asyncPair : ∃ state ∈ storingPair.visited (Database.opened true),
    decode (encode (some asyncPair)) = some asyncPair ∧
    (∃ e after, (Entities.create ⟨.function, "h", "/b.ts", 1, 2, "typescript", some asyncPair⟩).runOn
      state = (.ok e, after) ∧ (Entities.find? e.id after.tables).map (·.bind (·.metadata)) =
        .ok (some asyncPair)) ∧
    ∃ r after rs, (Relationships.create ⟨idOf 0, idOf 1, .calls, some asyncPair⟩).runOn state =
      (.ok r, after) ∧ Relationships.between (idOf 0) (idOf 1) after.tables = .ok rs ∧
        some asyncPair ∈ rs.map (·.metadata) := by
  have hmem := storingPair.final_mem_visited (Database.opened true)
  obtain ⟨-, hstored, -, hkeeps, hrows⟩ := read_back
  obtain ⟨state, hstate, htables⟩ : ∃ state ∈ storingPair.visited (Database.opened true),
      state.tables = { Tables.migrated with entities := some ⟨[
        .ofEntity { id := idOf 0, kind := .function, name := "f", filePath := "/a.ts", startLine := 1,
                    endLine := 2, language := "typescript" },
        .ofEntity { id := idOf 1, kind := .function, name := "g", filePath := "/a.ts", startLine := 3,
                    endLine := 4, language := "typescript" }], []⟩ } := by
    refine ⟨_, hmem, ?_⟩
    rw [Database.opened_true]
    show ((discard (Entities.createBatch _)).runOn _).2.tables = _
    rw [runOn_discard, Entities.createBatch_runOn (by decide) rfl]
    rfl
  have hready : state.tables.Ready := htables ▸ ⟨rfl, rfl, 0, rfl⟩
  have hends : state.tables.hasEntity (idOf 0) = true ∧ state.tables.hasEntity (idOf 1) = true := by
    rw [htables]
    decide +kernel
  have hnone : state.tables.relationshipRows = [] := htables ▸ rfl
  obtain ⟨hentity, hrelationship⟩ := hrows true storingPair state hstate hready
  obtain ⟨e, after, hcreate, -, hfind⟩ := hentity
    ⟨.function, "h", "/b.ts", 1, 2, "typescript", some asyncPair⟩ (by decide)
  obtain ⟨r, after', hcreate', hsame, hselect⟩ := hrelationship
    ⟨idOf 0, idOf 1, .calls, some asyncPair⟩ ⟨by decide, hends⟩
    (by rw [hnone]; exact fun ⟨_, hrow, _⟩ => nomatch hrow)
  have htest : ((RelationshipRow.ofRelationship r).sourceId == idOf 0 &&
      (RelationshipRow.ofRelationship r).targetId == idOf 1) = true := by
    have hsource : r.sourceId = idOf 0 := congrArg NewRelationship.sourceId hsame
    have htarget : r.targetId = idOf 1 := congrArg NewRelationship.targetId hsame
    show (r.sourceId == idOf 0 && r.targetId == idOf 1) = true
    rw [hsource, htarget]
    rfl
  obtain ⟨rs, hrs, hread⟩ := hselect
    (fun row => row.sourceId == idOf 0 && row.targetId == idOf 1) htest
  have hsame : decode (encode (some asyncPair)) = some asyncPair := hkeeps _ keeps_asyncPair
  dsimp only at hfind hread
  rw [hsame] at hfind hread
  exact ⟨state, hstate, hsame, ⟨e, after, hcreate, by rw [hfind]; rfl⟩, r, after', rs, hcreate', hrs,
    List.mem_map_of_mem hread⟩

/-- A number need not be what its text stands for, so a map of finite numbers may be read as another
one. -/
theorem read_back_inexact : ∃ m : Metadata, m.Ordered ∧ m ≠ [] ∧ m.depth ≤ maxDepth ∧
    (∀ x ∈ m.numbers, x.isFinite = true) ∧ decode (encode (some m)) ≠ some m := by
  have hordered : Ordered [("n", .number (.ofNat 9007199254740991))] :=
    .map (List.pairwise_singleton _ _) (List.forall_mem_singleton.mpr (.number _))
  have hnumbers : numbers [("n", .number (.ofNat 9007199254740991))] = [.ofNat 9007199254740991] :=
    rfl
  refine ⟨_, hordered, List.cons_ne_nil _ _, by decide, ?_, fun hsame => ?_⟩
  · rw [hnumbers]
    decide +kernel
  · have hstable := (decode_encode_eq_some_iff hordered (List.cons_ne_nil _ _)).mp hsame
    have hreread := hstable.2 (.ofNat 9007199254740991) (hnumbers ▸ List.mem_singleton_self _)
    exact absurd hreread (by decide +kernel)

end Metadata

end CodeAtlas
