import CodeAtlas.Index.Indexer
import CodeAtlas.Store.Migrations

/-!
# The writing operations of the library

Every call that can change what a database holds, as data, so that statements about all of them
and about sequences of them can be made. Only the effect on the store counts here: the value that
a call gives back is left out, its error is not.
-/

namespace CodeAtlas

/-- A call of the library that may write to the store. -/
inductive Operation where
  | createEntity (new : NewEntity)
  | createEntities (new : List NewEntity)
  | deleteEntity (id : String)
  | deleteFileEntities (filePath : String)
  | createRelationship (new : NewRelationship)
  | createRelationships (new : List NewRelationship)
  | deleteRelationship (id : String)
  | deleteRelationshipsAt (entityId : String)
  | recordFile (filePath contentHash language : String)
  | forgetFile (filePath : String)
  | resolve (entities : List NewEntity) (relationships : List ExtractedRelationship)
  | indexContent (base : Path) (options : IndexerOptions) (extractor : Extractor)
      (path content : String)
  | indexFile (disk : Disk) (options : IndexerOptions) (extractor : Extractor) (path : String)
  | removeStale (base : Path) (current : List String)
  | prune (disk : Disk) (options : IndexerOptions) (root : String)
  | sync (disk : Disk) (options : IndexerOptions) (extractor : Extractor) (root : String)
  | migrate
  | rollBack

namespace Operation

/-- the effect of a call on a store, and its error -/
def run : Operation → StoreM Unit
  | .createEntity new => discard (Entities.create new)
  | .createEntities new => discard (Entities.createBatch new)
  | .deleteEntity id => discard (Entities.delete id)
  | .deleteFileEntities filePath => discard (Entities.deleteByFile filePath)
  | .createRelationship new => discard (Relationships.create new)
  | .createRelationships new => discard (Relationships.createBatch new)
  | .deleteRelationship id => discard (Relationships.delete id)
  | .deleteRelationshipsAt entityId => discard (Relationships.deleteByEntity entityId)
  | .recordFile filePath contentHash language =>
    discard (FileLedger.upsert filePath contentHash language)
  | .forgetFile filePath => discard (FileLedger.delete filePath)
  | .resolve entities relationships => discard (Resolver.resolve entities relationships)
  | .indexContent base options extractor path content =>
    discard (Indexer.indexContent base options extractor path content)
  | .indexFile disk options extractor path =>
    discard (Indexer.indexFile disk options extractor path)
  | .removeStale base current => discard (Indexer.removeStale base current)
  | .prune disk options root => discard (Indexer.prune disk options root)
  | .sync disk options extractor root => discard (Indexer.sync disk options extractor root)
  | .migrate => discard Migrations.builtIn.run
  | .rollBack => discard Migrations.builtIn.rollback

/-- Whether a call takes effect as a whole. The others commit step by step: a sweep file by file,
and the migrations one by one. -/
def isWhole : Operation → Bool
  | .sync .. | .migrate | .rollBack => false
  | _ => true

end Operation

end CodeAtlas
