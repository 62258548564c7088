import CodeAtlas.Proofs.Index.Content
import CodeAtlas.Proofs.Operation
import CodeAtlas.Proofs.Store.Runs

/-!
# Programs over a store

Computations on a database as data: single statements, put together by sequences, blocks, snapshots
and recoveries to any depth. What a later part does may depend on what an earlier one gave.

* `StoreProgram.run`          what a program does with a handle;
* `StoreM.IsProgram`          a computation that is what some program does, with one rule for each
                              way of building a computation;
* `Operation.run_isProgram`   every call of the library is such a computation.
-/

namespace CodeAtlas

/-- a computation on a database, as data -/
inductive StoreProgram : Type → Type 1 where
  /-- a value, or an error of the caller's own -/
  | done {α : Type} (r : Except Error α) : StoreProgram α
  | read {α : Type} (f : Tables → Except Error α) : StoreProgram α
  /-- one statement -/
  | write {α : Type} (f : Tables → Except Error (α × Tables)) : StoreProgram α
  | newId : StoreProgram String
  /-- asks whether a transaction is open -/
  | isInside : StoreProgram Bool
  /-- the second part runs if the first one did not fail -/
  | andThen {α β : Type} (p : StoreProgram α) (next : α → StoreProgram β) : StoreProgram β
  /-- an error of the part is passed on in another form -/
  | relabel {α : Type} (f : Error → Error) (p : StoreProgram α) : StoreProgram α
  /-- an error of the part is seen and not passed on -/
  | recover {α : Type} (p : StoreProgram α) : StoreProgram (Except Error α)
  | block {α : Type} (p : StoreProgram α) : StoreProgram α
  | snapshot {α : Type} (p : StoreProgram α) : StoreProgram α

def StoreProgram.run {α : Type} : StoreProgram α → StoreM α
  | .done r => StoreM.lift r
  | .read f => StoreM.query f
  | .write f => StoreM.execute f
  | .newId => StoreM.freshId
  | .isInside => StoreM.inTransaction
  | .andThen p next => p.run >>= fun a => (next a).run
  | .relabel f p => StoreM.mapError f p.run
  | .recover p => StoreM.attempt p.run
  | .block p => StoreM.transaction p.run
  | .snapshot p => StoreM.snapshot p.run

/-! ### Computations that are programs -/

namespace StoreM

variable {α β γ : Type} {x : StoreM α}

/-- is what some program does -/
def IsProgram (x : StoreM α) : Prop := ∃ p : StoreProgram α, p.run = x

namespace IsProgram

theorem pure (a : α) : IsProgram (pure a : StoreM α) := ⟨.done (.ok a), rfl⟩

theorem lift (r : Except Error α) : IsProgram (lift r) := ⟨.done r, rfl⟩

theorem query (f : Tables → Except Error α) : IsProgram (query f) := ⟨.read f, rfl⟩

theorem execute (f : Tables → Except Error (α × Tables)) : IsProgram (execute f) := ⟨.write f, rfl⟩

theorem freshId : IsProgram freshId := ⟨.newId, rfl⟩

theorem bind {f : α → StoreM β} (hx : IsProgram x) (hf : ∀ a, IsProgram (f a)) :
    IsProgram (x >>= f) := by
  obtain ⟨p, rfl⟩ := hx
  have hnext : (fun a => (Classical.choose (hf a)).run) = f :=
    funext fun a => Classical.choose_spec (hf a)
  exact ⟨.andThen p fun a => Classical.choose (hf a), congrArg (p.run >>= ·) hnext⟩

theorem sequential : Sequential fun _ x => IsProgram x := ⟨pure, bind⟩

theorem map (g : α → β) (hx : IsProgram x) : IsProgram (g <$> x) := sequential.map g hx

theorem discard (hx : IsProgram x) : IsProgram (discard x) := hx.map _

theorem mapError (f : Error → Error) (hx : IsProgram x) : IsProgram (mapError f x) := by
  obtain ⟨p, rfl⟩ := hx
  exact ⟨.relabel f p, rfl⟩

theorem transaction (hx : IsProgram x) : IsProgram (transaction x) := by
  obtain ⟨p, rfl⟩ := hx
  exact ⟨.block p, rfl⟩

theorem mapM {f : γ → StoreM α} (hf : ∀ c, IsProgram (f c)) (cs : List γ) :
    IsProgram (cs.mapM f) := sequential.mapM cs fun c _ => hf c

theorem forM {f : γ → StoreM PUnit} (hf : ∀ c, IsProgram (f c)) (cs : List γ) :
    IsProgram (cs.forM f) := sequential.forM cs fun c _ => hf c

end IsProgram

end StoreM

/-! ### The operations of the library -/

open StoreM

namespace Entities

theorem insert_isProgram (new : NewEntity) : (insert new).IsProgram :=
  IsProgram.freshId.bind fun _ => .execute _

theorem create_isProgram (new : NewEntity) : (create new).IsProgram :=
  (IsProgram.lift _).bind fun _ => insert_isProgram new

theorem createBatch_isProgram (es : List NewEntity) : (createBatch es).IsProgram :=
  (IsProgram.lift _).bind fun _ => .mapError _ (.transaction (.mapM insert_isProgram es))

theorem deleteWhere_isProgram (doomed : EntityRow → Bool) : (deleteWhere doomed).IsProgram :=
  .execute _

theorem delete_isProgram (id : String) : (delete id).IsProgram :=
  (deleteWhere_isProgram _).bind fun _ => .pure _

end Entities

namespace Relationships

theorem insert_isProgram (onDuplicate : Tables.OnDuplicate) (new : NewRelationship) :
    (insert onDuplicate new).IsProgram :=
  IsProgram.freshId.bind fun _ => .execute _

theorem create_isProgram (new : NewRelationship) : (create new).IsProgram :=
  (IsProgram.lift _).bind fun _ => (insert_isProgram .fail new).bind fun r => by
    cases r with
    | some relationship => exact .pure relationship
    | none => exact .lift _

theorem createBatch_isProgram (rs : List NewRelationship) : (createBatch rs).IsProgram :=
  (IsProgram.lift _).bind fun _ => .mapError _ (.transaction
    ((IsProgram.mapM (insert_isProgram .skip) rs).bind fun _ => .pure _))

theorem deleteWhere_isProgram (doomed : RelationshipRow → Bool) :
    (deleteWhere doomed).IsProgram :=
  .execute _

theorem delete_isProgram (id : String) : (delete id).IsProgram :=
  (deleteWhere_isProgram _).bind fun _ => .pure _

end Relationships

namespace FileLedger

theorem upsert_isProgram (filePath contentHash language : String) :
    (upsert filePath contentHash language).IsProgram :=
  (IsProgram.execute _).bind fun _ => (IsProgram.query _).bind fun r => by
    cases r with
    | some record => exact .pure record
    | none => exact .lift _

theorem delete_isProgram (filePath : String) : (delete filePath).IsProgram := .execute _

end FileLedger

namespace Resolver

theorem resolveWithin_isProgram (es : List NewEntity) (rs : List ExtractedRelationship) :
    (resolveWithin es rs).IsProgram :=
  (IsProgram.query _).bind fun _ => (Entities.createBatch_isProgram es).bind fun _ =>
    (Relationships.createBatch_isProgram _).bind fun _ => .pure _

theorem resolve_isProgram (es : List NewEntity) (rs : List ExtractedRelationship) :
    (resolve es rs).IsProgram :=
  .mapError _ (.transaction (resolveWithin_isProgram es rs))

end Resolver

namespace Indexer

theorem replaceBody_isProgram (filePath hash language : String) (known : Bool) (x : Extraction) :
    (replaceBody filePath hash language known x).IsProgram := by
  have hrest := (Resolver.resolve_isProgram x.entities x.relationships).bind fun report =>
    (FileLedger.upsert_isProgram filePath hash language).discard.bind fun _ => .pure report
  cases known with
  | false => exact hrest
  | true => exact (Entities.deleteWhere_isProgram _).discard.bind fun _ => hrest

theorem replace_isProgram (filePath hash language : String) (known : Bool) (x : Extraction) :
    (replace filePath hash language known x).IsProgram :=
  .mapError _ (.transaction (replaceBody_isProgram filePath hash language known x))

theorem carries_isProgram : Carries IsProgram :=
  .of_sequential IsProgram.sequential .query replace_isProgram

theorem indexContent_isProgram (base : Path) (options : IndexerOptions) (extractor : Extractor)
    (path content : String) : (indexContent base options extractor path content).IsProgram :=
  carries_isProgram.indexContent base options extractor path content

theorem indexFile_isProgram (disk : Disk) (options : IndexerOptions) (extractor : Extractor)
    (path : String) : (indexFile disk options extractor path).IsProgram :=
  carries_isProgram.indexFile disk options extractor path

theorem removeFile_isProgram (filePath : String) : (removeFile filePath).IsProgram :=
  (Entities.deleteWhere_isProgram _).bind fun _ =>
    (FileLedger.delete_isProgram filePath).discard.bind fun _ => .pure _

theorem removeFiles_isProgram (paths : List String) : (removeFiles paths).IsProgram := by
  unfold removeFiles
  split
  · exact .pure _
  · exact .mapError _ (.transaction (.mapM removeFile_isProgram paths))

theorem ledgered_isProgram (test : String → Bool) : (ledgered test).IsProgram :=
  (IsProgram.query _).bind fun _ => .pure _

theorem removeStale_isProgram (base : Path) (current : List String) :
    (removeStale base current).IsProgram :=
  (ledgered_isProgram _).bind removeFiles_isProgram

theorem prune_isProgram (disk : Disk) (options : IndexerOptions) (root : String) :
    (prune disk options root).IsProgram :=
  (ledgered_isProgram _).bind removeFiles_isProgram

theorem sync_isProgram (disk : Disk) (options : IndexerOptions) (extractor : Extractor)
    (root : String) : (sync disk options extractor root).IsProgram :=
  (IsProgram.mapM (fun p : Path => indexFile_isProgram disk options extractor p.text) _).bind
    fun _ => (ledgered_isProgram _).bind fun paths => (removeFiles_isProgram paths).bind fun _ =>
      .pure _

end Indexer

namespace Migrations

theorem applied_isProgram : applied.IsProgram := (IsProgram.execute _).bind fun _ => .query _

theorem step_isProgram (m : Migration) (statements : List (Tables → Except StorageFault Tables)) :
    (step m statements).IsProgram :=
  .mapError _ (.transaction (.forM (fun _ => .execute _) statements))

theorem run_isProgram (ms : Migrations) : ms.run.IsProgram :=
  (IsProgram.lift _).bind fun _ => (applied_isProgram.bind fun _ => .pure _).bind fun waiting =>
    (IsProgram.forM (fun m => step_isProgram m _) waiting).bind fun _ => .pure _

theorem rollback_isProgram (ms : Migrations) : ms.rollback.IsProgram := by
  refine applied_isProgram.bind fun rows => ?_
  cases rows.getLast? with
  | none => exact .pure _
  | some latest =>
    dsimp only
    cases ms.defined.find? (·.version == latest.version) with
    | none => exact .lift _
    | some m => exact (step_isProgram m _).bind fun _ => .pure _

end Migrations

/-- Every call of the library is what some program does. -/
theorem Operation.run_isProgram (op : Operation) : op.run.IsProgram := by
  cases op with
  | createEntity new => exact (Entities.create_isProgram new).discard
  | createEntities new => exact (Entities.createBatch_isProgram new).discard
  | deleteEntity id => exact (Entities.delete_isProgram id).discard
  | deleteFileEntities filePath => exact (Entities.deleteWhere_isProgram _).discard
  | createRelationship new => exact (Relationships.create_isProgram new).discard
  | createRelationships new => exact (Relationships.createBatch_isProgram new).discard
  | deleteRelationship id => exact (Relationships.delete_isProgram id).discard
  | deleteRelationshipsAt entityId => exact (Relationships.deleteWhere_isProgram _).discard
  | recordFile filePath contentHash language =>
    exact (FileLedger.upsert_isProgram filePath contentHash language).discard
  | forgetFile filePath => exact (FileLedger.delete_isProgram filePath).discard
  | resolve entities relationships =>
    exact (Resolver.resolve_isProgram entities relationships).discard
  | indexContent base options extractor path content =>
    exact (Indexer.indexContent_isProgram base options extractor path content).discard
  | indexFile disk options extractor path =>
    exact (Indexer.indexFile_isProgram disk options extractor path).discard
  | removeStale base current => exact (Indexer.removeStale_isProgram base current).discard
  | prune disk options root => exact (Indexer.prune_isProgram disk options root).discard
  | sync disk options extractor root =>
    exact (Indexer.sync_isProgram disk options extractor root).discard
  | migrate => exact (Migrations.run_isProgram _).discard
  | rollBack => exact (Migrations.rollback_isProgram _).discard

end CodeAtlas
