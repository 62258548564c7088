import CodeAtlas.Proofs.Index.Content
import CodeAtlas.Proofs.Script
import CodeAtlas.Proofs.Store.Migrated
import CodeAtlas.Proofs.Store.Soundness

/-!
# Integrity of the graph

Whatever calls are made, whichever of them fail, and however they are grouped into blocks: edges
join stored entities, nothing is stored twice that must be unique, and every entity is valid.

* `Database.Sound`             the tables are sound, and so is every state to which an open block can
                               still take them back;
* `StoreM.Safe`                keeps databases sound, with one rule for each way of building a
                               computation;
* `Operation.run_safe`         every call is safe;
* `Script.visited_integrity`  every state of every script has integrity.
-/

namespace CodeAtlas

/-! ### Sound databases -/

/-- the content is sound, also after any open block is taken back -/
structure Database.Sound (db : Database) : Prop where
  tables : db.tables.Sound db.idsUsed
  begun : ∀ t, db.begun = some t → t.Sound db.idsUsed
  savepoints : ∀ s ∈ db.savepoints, s.image.Sound db.idsUsed

namespace Database

theorem from?_sublist (name : String) (ss : List Savepoint) : (from? name ss).Sublist ss := by
  induction ss with
  | nil => exact .refl _
  | cons s rest ih =>
    rw [from?]
    split
    · exact .refl _
    · exact ih.cons s

namespace Sound

variable {db : Database}

theorem empty : Sound {} := ⟨.empty 0, nofun, nofun⟩

theorem «begin» (h : db.Sound) : db.begin.Sound :=
  ⟨h.tables, fun _ ht => Option.some.inj ht ▸ h.tables, h.savepoints⟩

theorem savepoint (h : db.Sound) (name : String) : (db.savepoint name).Sound where
  tables := h.tables
  begun := h.begun
  savepoints s hs := by
    rcases List.mem_cons.mp hs with rfl | hs
    · exact h.tables
    · exact h.savepoints s hs

theorem commit (h : db.Sound) : db.commit.Sound := ⟨h.tables, nofun, nofun⟩

theorem rollback (h : db.Sound) : db.rollback.Sound := by
  refine ⟨?_, nofun, nofun⟩
  show Tables.Sound db.idsUsed (db.begun.getD db.tables)
  cases hb : db.begun with
  | none => exact h.tables
  | some t => exact h.begun t hb

theorem release (h : db.Sound) (name : String) : (db.release name).Sound where
  tables := h.tables
  begun := h.begun
  savepoints s hs :=
    h.savepoints s ((from?_sublist name db.savepoints).subset (List.mem_of_mem_tail hs))

theorem rollbackTo (h : db.Sound) (name : String) : (db.rollbackTo name).Sound := by
  have hsub := (from?_sublist name db.savepoints).subset
  unfold Database.rollbackTo
  split
  · exact h
  · rename_i s rest heq
    rw [heq] at hsub
    exact ⟨h.savepoints s (hsub List.mem_cons_self), h.begun,
      fun s' hs' => h.savepoints s' (hsub hs')⟩

/-- Soundness looks at ids that were given out, so it does not matter that one more was. -/
theorem issued (h : db.Sound) {t : Tables} (ht : t.Sound (db.idsUsed + 1)) :
    Sound { db with tables := t, idsUsed := db.idsUsed + 1 } where
  tables := ht
  begun t ht := (h.begun t ht).mono (Nat.le_succ _)
  savepoints s hs := (h.savepoints s hs).mono (Nat.le_succ _)

theorem entered (h : db.Sound) : db.entered.Sound := by
  unfold Database.entered
  split
  · obtain ⟨ht, hb, hs⟩ := h.savepoint (StoreM.savepointName (db.savepointDepth + 1))
    exact ⟨ht, hb, hs⟩
  · exact h.begin

theorem left {after : Database} (h : after.Sound) (kept : Bool) : (db.left kept after).Sound := by
  have hdepth : Sound { after with savepointDepth := db.savepointDepth } :=
    ⟨h.tables, h.begun, h.savepoints⟩
  unfold Database.left
  cases db.inTransaction with
  | true =>
    cases kept with
    | true => exact hdepth.release _
    | false => exact (hdepth.rollbackTo _).release _
  | false =>
    cases kept with
    | true => exact h.commit
    | false => exact h.rollback

end Sound

end Database

/-! ### Safe computations -/

namespace StoreM

variable {α β γ : Type} {x : StoreM α}

/-- keeps databases sound -/
def Safe (x : StoreM α) : Prop := ∀ db : Database, db.Sound → (x.runOn db).2.Sound

namespace Safe

theorem sequential : Sequential fun _ x => Safe x :=
  .of_relation (R := fun a b => a.Sound → b.Sound) (fun _ h => h) fun hab hbc h => hbc (hab h)

theorem pure (a : α) : Safe (pure a : StoreM α) := sequential.pure a

theorem lift (r : Except Error α) : Safe (lift r) := fun _ h => h

theorem query (f : Tables → Except Error α) : Safe (query f) := fun _ h => h

theorem execute {f : Tables → Except Error (α × Tables)}
    (hf : ∀ (n : Nat) (t t' : Tables) (a : α), t.Sound n → f t = .ok (a, t') → t'.Sound n) :
    Safe (execute f) := by
  intro db h
  rw [runOn_execute]
  split
  · rename_i a tables heq
    exact ⟨hf _ _ _ a h.tables heq, h.begun, h.savepoints⟩
  · exact h

theorem bind {f : α → StoreM β} (hx : Safe x) (hf : ∀ a, Safe (f a)) : Safe (x >>= f) :=
  sequential.bind hx hf

/-- what a check lets through is known to pass it -/
theorem bind_lift {r : Except Error α} {f : α → StoreM β} (hf : ∀ a, r = .ok a → Safe (f a)) :
    Safe (StoreM.lift r >>= f) := by
  intro db h
  rw [runOn_bind, runOn_lift]
  cases r with
  | ok a => exact hf a rfl db h
  | error e => exact h

theorem map (g : α → β) (hx : Safe x) : Safe (g <$> x) := sequential.map g hx

theorem discard (hx : Safe x) : Safe (discard x) := hx.map _

theorem mapError (f : Error → Error) (hx : Safe x) : Safe (mapError f x) := by
  intro db h
  rw [runOn_mapError]
  exact hx db h

theorem attempt (hx : Safe x) : Safe (attempt x) := hx

theorem mapM {f : γ → StoreM α} (cs : List γ) (hf : ∀ c ∈ cs, Safe (f c)) : Safe (cs.mapM f) :=
  sequential.mapM cs hf

theorem forM {f : γ → StoreM PUnit} (cs : List γ) (hf : ∀ c ∈ cs, Safe (f c)) :
    Safe (cs.forM f) := sequential.forM cs hf

theorem transaction (hx : Safe x) : Safe (transaction x) := by
  intro db h
  rw [transaction_eq]
  exact (hx _ h.entered).left _

theorem snapshot (hx : Safe x) : Safe (snapshot x) := by
  intro db h
  cases hin : db.inTransaction with
  | true =>
    rw [snapshot_eq_of_inTransaction x hin]
    exact hx db h
  | false =>
    rw [snapshot_eq x hin]
    exact (hx _ h.begin).rollback

end Safe

end StoreM

/-! ### The operations of the library -/

open StoreM

namespace NewEntity

theorem fault?_eq_none {e : NewEntity} :
    e.fault? = none ↔
      Text.isBlankText e.name = false ∧ Text.isBlankText e.filePath = false ∧
        1 ≤ e.startLine.toNat ∧ e.startLine.toNat ≤ e.endLine.toNat := by
  unfold fault?
  cases Text.isBlankText e.name with
  | true => simp
  | false =>
    cases Text.isBlankText e.filePath with
    | true => simp
    | false =>
      rw [if_neg Bool.false_ne_true, if_neg Bool.false_ne_true]
      have hzero : e.startLine = 0 ↔ e.startLine.toNat = 0 := UInt32.toNat_inj.symm
      have hlt : e.endLine < e.startLine ↔ e.endLine.toNat < e.startLine.toNat :=
        UInt32.lt_iff_toNat_lt
      by_cases hs : e.startLine = 0
      · simp [hs]
      · by_cases he : e.endLine < e.startLine
        · simp [hs, he, hlt.mp he]
        · rw [hzero] at hs
          rw [hlt] at he
          simp [hzero, hlt, hs, he]
          omega

theorem validate_eq_ok {e : NewEntity} : e.validate = .ok () ↔ e.fault? = none := by
  unfold validate
  split <;> simp_all

theorem forM_validate_eq_ok {es : List NewEntity} :
    es.forM validate = .ok () ↔ ∀ e ∈ es, e.fault? = none := by
  induction es with
  | nil => exact ⟨fun _ => nofun, fun _ => rfl⟩
  | cons e es ih =>
    show (validate e >>= fun _ => es.forM validate) = .ok () ↔ _
    rw [Tables.bind_eq_ok, List.forall_mem_cons, ← validate_eq_ok, ← ih]
    exact ⟨fun ⟨_, h, h'⟩ => ⟨h, h'⟩, fun ⟨h, h'⟩ => ⟨(), h, h'⟩⟩

end NewEntity

namespace Entities

theorem insert_safe {new : NewEntity} (hvalid : new.fault? = none) : (insert new).Safe := by
  intro db h
  rw [insert_runOn]
  split
  · rename_i tables hins
    exact h.issued (h.tables.insertEntity (e := { new with id := idOf db.idsUsed }) hvalid rfl hins)
  · exact h.issued (h.tables.mono (Nat.le_succ _))

theorem create_safe (new : NewEntity) : (create new).Safe :=
  Safe.bind_lift fun _ hvalid => insert_safe (NewEntity.validate_eq_ok.mp hvalid)

theorem createBatch_safe (es : List NewEntity) : (createBatch es).Safe :=
  Safe.bind_lift fun _ hvalid => .mapError _ (.transaction
    (.mapM es fun e he => insert_safe (NewEntity.forM_validate_eq_ok.mp hvalid e he)))

theorem deleteWhere_safe (doomed : EntityRow → Bool) : (deleteWhere doomed).Safe := by
  refine Safe.execute fun n t t' k h hdel => ?_
  cases hd : t.deleteEntities doomed with
  | error fault => simp only [hd] at hdel; cases hdel
  | ok r =>
    simp only [hd] at hdel
    cases hdel
    exact h.deleteEntities hd

theorem delete_safe (id : String) : (delete id).Safe :=
  (deleteWhere_safe _).bind fun _ => .pure _

end Entities

namespace Relationships

theorem insert_safe (onDuplicate : Tables.OnDuplicate) (new : NewRelationship) :
    (insert onDuplicate new).Safe := by
  intro db h
  rw [insert_runOn]
  split
  · rename_i isNew tables hins
    exact h.issued ((h.tables.insertRelationship hins).mono (Nat.le_succ _))
  · exact h.issued (h.tables.mono (Nat.le_succ _))

theorem create_safe (new : NewRelationship) : (create new).Safe :=
  (Safe.lift _).bind fun _ => (insert_safe .fail new).bind fun r => by
    cases r with
    | some relationship => exact .pure relationship
    | none => exact .lift _

theorem createBatch_safe (rs : List NewRelationship) : (createBatch rs).Safe :=
  (Safe.lift _).bind fun _ => .mapError _ (.transaction
    ((Safe.mapM rs fun r _ => insert_safe .skip r).bind fun _ => .pure _))

theorem deleteWhere_safe (doomed : RelationshipRow → Bool) : (deleteWhere doomed).Safe := by
  refine Safe.execute fun n t t' k h hdel => ?_
  cases hd : t.deleteRelationships doomed with
  | error fault => simp only [hd] at hdel; cases hdel
  | ok r =>
    simp only [hd] at hdel
    cases hdel
    exact h.deleteRelationships hd

theorem delete_safe (id : String) : (delete id).Safe :=
  (deleteWhere_safe _).bind fun _ => .pure _

end Relationships

namespace FileLedger

theorem upsert_safe (filePath contentHash language : String) :
    (upsert filePath contentHash language).Safe := by
  refine Safe.bind (.execute fun n t t' _ h hup => ?_) fun _ => (Safe.query _).bind fun r => ?_
  · cases hu : t.upsertFile filePath contentHash language with
    | error fault => simp only [hu] at hup; cases hup
    | ok u =>
      simp only [hu] at hup
      cases hup
      exact h.upsertFile hu
  · cases r with
    | some record => exact .pure record
    | none => exact .lift _

theorem delete_safe (filePath : String) : (delete filePath).Safe := by
  refine Safe.execute fun n t t' there h hdel => ?_
  cases hd : t.deleteFile filePath with
  | error fault => simp only [hd] at hdel; cases hdel
  | ok r =>
    simp only [hd] at hdel
    cases hdel
    exact h.deleteFile hd

end FileLedger

namespace Resolver

theorem resolveWithin_safe (es : List NewEntity) (rs : List ExtractedRelationship) :
    (resolveWithin es rs).Safe :=
  (Safe.query _).bind fun _ => (Entities.createBatch_safe es).bind fun _ =>
    (Relationships.createBatch_safe _).bind fun _ => .pure _

theorem resolve_safe (es : List NewEntity) (rs : List ExtractedRelationship) :
    (resolve es rs).Safe :=
  .mapError _ (.transaction (resolveWithin_safe es rs))

end Resolver

namespace Indexer

theorem replace_safe (filePath hash language : String) (known : Bool) (x : Extraction) :
    (replace filePath hash language known x).Safe := by
  have hrest := (Resolver.resolve_safe x.entities x.relationships).bind fun report =>
    (FileLedger.upsert_safe filePath hash language).discard.bind fun _ => .pure report
  refine .mapError _ (.transaction ?_)
  cases known with
  | false => exact hrest
  | true => exact (Entities.deleteWhere_safe _).discard.bind fun _ => hrest

theorem carries_safe : Carries Safe := .of_sequential Safe.sequential .query replace_safe

theorem indexContent_safe (base : Path) (options : IndexerOptions) (extractor : Extractor)
    (path content : String) : (indexContent base options extractor path content).Safe :=
  carries_safe.indexContent base options extractor path content

theorem indexFile_safe (disk : Disk) (options : IndexerOptions) (extractor : Extractor)
    (path : String) : (indexFile disk options extractor path).Safe :=
  carries_safe.indexFile disk options extractor path

theorem removeFile_safe (filePath : String) : (removeFile filePath).Safe :=
  (Entities.deleteWhere_safe _).bind fun _ =>
    (FileLedger.delete_safe filePath).discard.bind fun _ => .pure _

theorem removeFiles_safe (paths : List String) : (removeFiles paths).Safe := by
  unfold removeFiles
  split
  · exact .pure _
  · exact .mapError _ (.transaction (.mapM paths fun path _ => removeFile_safe path))

theorem ledgered_safe (test : String → Bool) : (ledgered test).Safe :=
  (Safe.query _).bind fun _ => .pure _

theorem sync_safe (disk : Disk) (options : IndexerOptions) (extractor : Extractor)
    (root : String) : (sync disk options extractor root).Safe :=
  (Safe.mapM _ fun (p : Path) _ => indexFile_safe disk options extractor p.text).bind fun _ =>
    (ledgered_safe _).bind fun paths => (removeFiles_safe paths).bind fun _ => .pure _

end Indexer

namespace Migrations

theorem applied_safe : applied.Safe :=
  (Safe.execute fun _ _ _ _ h heq => by cases heq; exact h.congr rfl rfl rfl).bind fun _ => .query _

theorem change_safe {f : Tables → Except StorageFault Tables}
    (hf : ∀ (n : Nat) (t t' : Tables), t.Sound n → f t = .ok t' → t'.Sound n) :
    (change f).Safe := by
  refine Safe.execute fun n t t' _ h heq => ?_
  cases hft : f t with
  | error fault => simp only [hft] at heq; cases heq
  | ok u =>
    simp only [hft] at heq
    cases heq
    exact hf n t _ h hft

/-- Statements that keep the tables sound, run as a whole. -/
theorem step_safe {m : Migration} {statements : List (Tables → Except StorageFault Tables)}
    (h : ∀ f ∈ statements, ∀ (n : Nat) (t t' : Tables), t.Sound n → f t = .ok t' → t'.Sound n) :
    (step m statements).Safe :=
  .mapError _ (.transaction (.forM statements fun f hf => change_safe (h f hf)))

theorem run_safe : builtIn.run.Safe := by
  rw [run, pending]
  refine (Safe.lift _).bind fun _ => ?_
  rw [bind_assoc]
  refine applied_safe.bind fun done => ?_
  rw [pure_bind]
  refine (Safe.forM _ fun m hm => ?_).bind fun _ => .pure _
  refine step_safe fun f hf n t t' h heq => ?_
  rcases List.mem_append.mp hf with hf | hf
  · exact h.builtIn (List.mem_filter.mp hm).1 (.inl hf) heq
  · rw [List.mem_singleton.mp hf] at heq
    obtain ⟨rows, _, heq⟩ := Tables.bind_eq_ok.mp heq
    split at heq
    · cases heq
    · cases heq
      exact h.congr rfl rfl rfl

theorem rollback_safe : builtIn.rollback.Safe := by
  refine applied_safe.bind fun rows => ?_
  cases rows.getLast? with
  | none => exact .pure _
  | some latest =>
    dsimp only
    cases hfind : builtIn.defined.find? (·.version == latest.version) with
    | none => exact .lift _
    | some m =>
      refine Safe.bind (step_safe fun f hf n t t' h heq => ?_) fun _ => .pure _
      rcases List.mem_append.mp hf with hf | hf
      · exact h.builtIn (List.mem_of_find?_eq_some hfind) (.inr hf) heq
      · rw [List.mem_singleton.mp hf] at heq
        obtain ⟨rows, _, heq⟩ := Tables.bind_eq_ok.mp heq
        cases heq
        exact h.congr rfl rfl rfl

end Migrations

/-- Every call keeps databases sound. -/
theorem Operation.run_safe (op : Operation) : op.run.Safe := by
  cases op with
  | createEntity new => exact (Entities.create_safe new).discard
  | createEntities new => exact (Entities.createBatch_safe new).discard
  | deleteEntity id => exact (Entities.delete_safe id).discard
  | deleteFileEntities filePath => exact (Entities.deleteWhere_safe _).discard
  | createRelationship new => exact (Relationships.create_safe new).discard
  | createRelationships new => exact (Relationships.createBatch_safe new).discard
  | deleteRelationship id => exact (Relationships.delete_safe id).discard
  | deleteRelationshipsAt entityId => exact (Relationships.deleteWhere_safe _).discard
  | recordFile filePath contentHash language =>
    exact (FileLedger.upsert_safe filePath contentHash language).discard
  | forgetFile filePath => exact (FileLedger.delete_safe filePath).discard
  | resolve entities relationships =>
    exact (Resolver.resolve_safe entities relationships).discard
  | indexContent base options extractor path content =>
    exact (Indexer.indexContent_safe base options extractor path content).discard
  | indexFile disk options extractor path =>
    exact (Indexer.indexFile_safe disk options extractor path).discard
  | removeStale base current =>
    exact ((Indexer.ledgered_safe _).bind Indexer.removeFiles_safe).discard
  | prune disk options root =>
    exact ((Indexer.ledgered_safe _).bind Indexer.removeFiles_safe).discard
  | sync disk options extractor root =>
    exact (Indexer.sync_safe disk options extractor root).discard
  | migrate => exact Migrations.run_safe.discard
  | rollBack => exact Migrations.rollback_safe.discard

/-! ### Every reachable state -/

namespace Script

theorem run_safe (p : Script) : p.run.Safe := by
  induction p with
  | call op => exact op.run_safe
  | fail e => exact .lift _
  | andThen p q ihp ihq => exact ihp.bind fun _ => ihq
  | recover p ih => exact ih.attempt.discard
  | block p ih => exact ih.transaction
  | snapshot p ih => exact ih.snapshot

/-- The states inside of open blocks are sound too. -/
theorem visited_sound (p : Script) {db : Database} (h : db.Sound) :
    ∀ state ∈ p.visited db, state.Sound := by
  induction p generalizing db with
  | call op =>
    intro state hs
    simp only [visited, List.mem_cons, List.not_mem_nil, or_false] at hs
    rcases hs with rfl | rfl
    · exact h
    · exact op.run_safe db h
  | fail e =>
    intro state hs
    rw [visited, List.mem_singleton] at hs
    exact hs ▸ h
  | andThen p q ihp ihq =>
    intro state hs
    rw [visited, List.mem_append] at hs
    rcases hs with hs | hs
    · exact ihp h state hs
    · have hmid := p.run_safe db h
      revert hmid hs
      rcases p.run.runOn db with ⟨r, mid⟩
      intro hs hmid
      cases r with
      | ok _ => exact ihq hmid state hs
      | error e => exact absurd hs List.not_mem_nil
  | recover p ih => exact ih h
  | block p ih =>
    intro state hs
    simp only [visited, List.mem_append, List.mem_cons, List.not_mem_nil, or_false] at hs
    rcases hs with (rfl | hs) | rfl
    · exact h
    · exact ih h.entered state hs
    · exact p.run_safe.transaction db h
  | snapshot p ih =>
    intro state hs
    simp only [visited, List.mem_append, List.mem_cons, List.not_mem_nil, or_false] at hs
    rcases hs with (rfl | hs) | rfl
    · exact h
    · cases hin : db.inTransaction with
      | true =>
        rw [hin, if_pos rfl] at hs
        exact ih h state hs
      | false =>
        rw [hin, if_neg Bool.false_ne_true] at hs
        exact ih h.begin state hs
    · exact p.run_safe.snapshot db h

end Script

namespace Tables

/-- the rules of the graph, as a reader of the tables sees them -/
structure Integrity (t : Tables) : Prop where
  ends : ∀ r ∈ t.relationshipRows,
    (∃ e ∈ t.entityRows, e.id = r.sourceId) ∧ (∃ e ∈ t.entityRows, e.id = r.targetId)
  edges : t.relationshipRows.Pairwise fun a b =>
    ¬(a.sourceId = b.sourceId ∧ a.targetId = b.targetId ∧ a.kind = b.kind)
  ids : (t.entityRows.map EntityRow.id).Nodup
  entities : ∀ r ∈ t.entityRows,
    Text.isBlankText r.name = false ∧ Text.isBlankText r.filePath = false ∧
      ∃ first last : Int, r.startLine = .integer first ∧ r.endLine = .integer last ∧
        1 ≤ first ∧ first ≤ last
  paths : (t.fileRecords.map (·.filePath)).Nodup

theorem Sound.integrity {t : Tables} {n : Nat} (h : t.Sound n) : t.Integrity where
  ends r hr := by
    obtain ⟨hs, ht⟩ := h.ends r hr
    exact ⟨List.mem_map.mp hs, List.mem_map.mp ht⟩
  edges := h.distinctEdges.imp fun {a b} hne heq => by
    obtain ⟨hs, ht, hk⟩ := heq
    rw [RelationshipRow.sameEdge, hs, ht, hk] at hne
    simp at hne
  ids := h.distinctIds
  entities r hr := by
    obtain ⟨e, rfl, hvalid⟩ := h.entity r hr
    obtain ⟨hname, hpath, hstart, hend⟩ := NewEntity.fault?_eq_none.mp hvalid
    exact ⟨hname, hpath, e.startLine.toNat, e.endLine.toNat, rfl, rfl, by omega, by omega⟩
  paths := h.distinctPaths

end Tables

/-- a database just opened, with the tables of the library or without any -/
def Database.opened (migrated : Bool) : Database :=
  if migrated then (Migrations.builtIn.run.runOn {}).2 else {}

theorem Database.opened_true : opened true = { tables := .migrated } :=
  congrArg Prod.snd Migrations.run_runOn_empty

theorem Database.opened_sound (migrated : Bool) : (opened migrated).Sound := by
  cases migrated with
  | true => exact Migrations.run_safe {} .empty
  | false => exact .empty

/-- Every state that a script goes through has integrity: whatever it calls, however the calls are
grouped into blocks, and whichever of them fail. -/
theorem Script.visited_integrity (migrated : Bool) (p : Script) (state : Database)
    (h : state ∈ p.visited (Database.opened migrated)) : state.tables.Integrity :=
  (p.visited_sound (Database.opened_sound migrated) state h).tables.integrity

/-- stores two functions, one calling the other, and takes back that it deleted them -/
def Script.keepingEdge : Script :=
  .block (.andThen
    (.call (.resolve
      [⟨.function, "main", "/a.ts", 1, 2, "typescript", none⟩,
        ⟨.function, "helper", "/b.ts", 3, 3, "typescript", none⟩]
      [⟨.calls, "main", "helper", some "/a.ts", some "/b.ts", none⟩]))
    (.recover (.block (.andThen
      (.call (.deleteFileEntities "/b.ts"))
      (.fail (.validation (.other "stop")))))))

theorem Script.visited_integrity_keepingEdge :
    ∃ state ∈ keepingEdge.visited (Database.opened true),
      state.tables.entityRows.length = 2 ∧ state.tables.relationshipRows.length = 1 ∧
        state.tables.Integrity := by
  have hmem := keepingEdge.final_mem_visited (Database.opened true)
  refine ⟨_, hmem, ?_, ?_, visited_integrity true keepingEdge _ hmem⟩
  · rw [Database.opened_true]
    decide +kernel
  · rw [Database.opened_true]
    decide +kernel

end CodeAtlas
