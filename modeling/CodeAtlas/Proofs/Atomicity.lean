import CodeAtlas.Proofs.Operation
import CodeAtlas.Proofs.Store.Ledger
import CodeAtlas.Proofs.Store.Scopes

/-!
# Failing calls leave no trace

A call that fails leaves the content of the database and its open blocks exactly as they were,
whatever the tables hold, whichever of them exist, and however many blocks are open.

* `Atomic`                    an error leaves the state as it was; `Reading`: nothing is written
                              in any case;
* `Atomic.transaction`        a block around a balanced computation is atomic, at any depth;
* `Operation.run_atomic`      so is every operation but a sweep and the migrations;
* `error_leaves_no_trace`     the same as one statement, and for a sweep: it stops after some of
                              its files, each of them indexed completely.
-/

namespace CodeAtlas

/-- the same content and the same open blocks; only the count of ids may differ -/
structure Database.SameState (a b : Database) : Prop extends Database.SameScopes a b where
  tables : b.tables = a.tables

namespace Database.SameState

theorem refl (a : Database) : SameState a a := ⟨.refl a, rfl⟩

theorem trans {a b c : Database} (h : SameState a b) (h' : SameState b c) : SameState a c :=
  ⟨h.toSameScopes.trans h'.toSameScopes, h'.tables.trans h.tables⟩

end Database.SameState

namespace StoreM

variable {α β γ : Type} {x : StoreM α}

/-- writes nothing -/
def Reading (x : StoreM α) : Prop := ∀ db : Database, db.SameState (x.runOn db).2

/-- leaves the state as it was when it fails -/
def Atomic (x : StoreM α) : Prop :=
  ∀ (db after : Database) (e : Error), x.runOn db = (.error e, after) → db.SameState after

namespace Reading

theorem sequential : Sequential fun _ x => Reading x := .of_relation .refl .trans

theorem pure (a : α) : Reading (pure a : StoreM α) := sequential.pure a

theorem lift (r : Except Error α) : Reading (lift r) := fun db => .refl db

theorem query (f : Tables → Except Error α) : Reading (query f) := fun db => .refl db

theorem freshId : Reading freshId := fun _ => ⟨⟨rfl, rfl, rfl⟩, rfl⟩

theorem bind {f : α → StoreM β} (hx : Reading x) (hf : ∀ a, Reading (f a)) :
    Reading (x >>= f) := sequential.bind hx hf

theorem atomic (hx : Reading x) : Atomic x := by
  intro db after e h
  have hs := hx db
  rwa [h] at hs

end Reading

namespace Atomic

theorem pure (a : α) : Atomic (pure a : StoreM α) := (Reading.pure a).atomic

theorem execute (f : Tables → Except Error (α × Tables)) : Atomic (execute f) := by
  intro db after e h
  rw [runOn_execute] at h
  split at h
  · cases h
  · cases h
    exact .refl db

/-- what was only read before does not matter -/
theorem bind_reading {f : α → StoreM β} (hx : Reading x) (hf : ∀ a, Atomic (f a)) :
    Atomic (x >>= f) := by
  intro db after e h
  have hs := hx db
  rw [runOn_bind] at h
  rcases hr : x.runOn db with ⟨r, mid⟩
  rw [hr] at hs h
  cases r with
  | ok a => exact hs.trans (hf a mid after e h)
  | error _ =>
    cases h
    exact hs

/-- Only whether a computation fails matters, and what it leaves behind. -/
theorem congr {y : StoreM β} (hx : Atomic x)
    (h : ∀ db, (y.runOn db).1.isOk = (x.runOn db).1.isOk ∧ (y.runOn db).2 = (x.runOn db).2) :
    Atomic y := by
  intro db after e hy
  obtain ⟨hok, hafter⟩ := h db
  rw [hy] at hok hafter
  rcases hr : x.runOn db with ⟨r, mid⟩
  rw [hr] at hok hafter
  cases r with
  | ok a => cases hok
  | error e' =>
    obtain rfl : after = mid := hafter
    exact hx db after e' hr

theorem map (g : α → β) (hx : Atomic x) : Atomic (g <$> x) := by
  refine hx.congr fun db => ?_
  rw [runOn_map]
  cases (x.runOn db).1 <;> exact ⟨rfl, rfl⟩

theorem discard (hx : Atomic x) : Atomic (discard x) := hx.map _

theorem bind_pure (hx : Atomic x) (g : α → β) : Atomic (do let a ← x; return g a) := by
  have h := hx.map g
  rwa [map_eq_pure_bind] at h

theorem mapError (f : Error → Error) (hx : Atomic x) : Atomic (mapError f x) := by
  refine hx.congr fun db => ?_
  rw [runOn_mapError]
  cases (x.runOn db).1 <;> exact ⟨rfl, rfl⟩

/-- A failing block takes everything back that its body wrote. -/
theorem transaction (hx : Balanced x) : Atomic (transaction x) := by
  intro db after e h
  rw [hx.runOn_transaction, Prod.mk.injEq] at h
  obtain ⟨hr, rfl⟩ := h
  exact ⟨⟨rfl, rfl, rfl⟩, by simp [hr, Except.isOk, Except.toBool]⟩

end Atomic

/-- A sequence of atomic steps that fails has done some of the steps completely, and of the one
that failed nothing. -/
theorem mapM_error {f : γ → StoreM α} (hf : ∀ c, Atomic (f c)) (cs : List γ) {db after : Database}
    {e : Error} (h : (cs.mapM f).runOn db = (.error e, after)) :
    ∃ k done mid, k < cs.length ∧ ((cs.take k).mapM f).runOn db = (.ok done, mid) ∧
      mid.SameState after := by
  induction cs generalizing db with
  | nil => cases h
  | cons c cs ih =>
    rw [List.mapM_cons, runOn_bind] at h
    rcases hr : (f c).runOn db with ⟨r, mid⟩
    rw [hr] at h
    cases r with
    | error _ =>
      cases h
      exact ⟨0, [], db, Nat.succ_pos _, rfl, hf c db _ _ hr⟩
    | ok a =>
      change (cs.mapM f >>= fun as => Pure.pure (a :: as)).runOn mid = _ at h
      rw [runOn_bind] at h
      rcases hs : (cs.mapM f).runOn mid with ⟨s, last⟩
      rw [hs] at h
      cases s with
      | ok as => cases h
      | error _ =>
        cases h
        obtain ⟨k, done, stop, hk, hdone, hsame⟩ := ih hs
        exact ⟨k + 1, a :: done, stop, Nat.succ_lt_succ hk, runOn_mapM_cons_ok hr hdone, hsame⟩

end StoreM

/-! ### The operations of the library -/

open StoreM

namespace Entities

theorem insert_atomic (new : NewEntity) : (insert new).Atomic :=
  Atomic.bind_reading .freshId fun _ => .execute _

theorem create_atomic (new : NewEntity) : (create new).Atomic :=
  Atomic.bind_reading (.lift _) fun _ => insert_atomic new

theorem createBatch_atomic (es : List NewEntity) : (createBatch es).Atomic :=
  Atomic.bind_reading (.lift _) fun _ => .mapError _ (.transaction (.mapM insert_balanced es))

theorem deleteWhere_atomic (doomed : EntityRow → Bool) : (deleteWhere doomed).Atomic :=
  .execute _

theorem delete_atomic (id : String) : (delete id).Atomic :=
  Atomic.bind_pure (deleteWhere_atomic _) _

end Entities

namespace Relationships

theorem insert_atomic (onDuplicate : Tables.OnDuplicate) (new : NewRelationship) :
    (insert onDuplicate new).Atomic :=
  Atomic.bind_reading .freshId fun _ => .execute _

/-- Where a duplicate is an error, an insertion that succeeds gives the edge. -/
theorem insert_fail_isSome {new : NewRelationship} {db after : Database}
    {r : Option Relationship} (h : (insert .fail new).runOn db = (.ok r, after)) :
    r.isSome = true := by
  rw [insert_runOn] at h
  split at h
  · rename_i isNew tables hins
    obtain ⟨_, _, _, _, ⟨_, hskip, _⟩ | ⟨rfl, _⟩⟩ := Tables.insertRelationship_eq_ok.mp hins
    · cases hskip
    · cases h
      rfl
  · cases h

theorem create_atomic (new : NewRelationship) : (create new).Atomic := by
  refine Atomic.bind_reading (.lift _) fun _ => ?_
  intro db after e h
  rw [runOn_bind] at h
  rcases hr : (insert .fail new).runOn db with ⟨r, mid⟩
  rw [hr] at h
  cases r with
  | error _ =>
    cases h
    exact insert_atomic .fail new db _ _ hr
  | ok r =>
    obtain ⟨relationship, rfl⟩ := Option.isSome_iff_exists.mp (insert_fail_isSome hr)
    cases h

theorem createBatch_atomic (rs : List NewRelationship) : (createBatch rs).Atomic :=
  Atomic.bind_reading (.lift _) fun _ => .mapError _ (.transaction
    ((Balanced.mapM (insert_balanced .skip) rs).bind fun _ => .pure _))

theorem deleteWhere_atomic (doomed : RelationshipRow → Bool) : (deleteWhere doomed).Atomic :=
  .execute _

theorem delete_atomic (id : String) : (delete id).Atomic :=
  Atomic.bind_pure (deleteWhere_atomic _) _

end Relationships

namespace FileLedger

theorem delete_atomic (filePath : String) : (delete filePath).Atomic := .execute _

theorem upsert_atomic (filePath contentHash language : String) :
    (upsert filePath contentHash language).Atomic := by
  intro db after e h
  rw [upsert_runOn] at h
  split at h
  · rename_i tables hup
    obtain ⟨record, hrecord⟩ := find?_of_upsertFile hup
    rw [hrecord] at h
    cases h
  · cases h
    exact .refl db

end FileLedger

theorem Resolver.resolve_atomic (es : List NewEntity) (rs : List ExtractedRelationship) :
    (resolve es rs).Atomic :=
  .mapError _ (.transaction (resolveWithin_balanced es rs))

namespace Indexer

theorem replace_atomic (filePath hash language : String) (known : Bool) (x : Extraction) :
    (replace filePath hash language known x).Atomic :=
  .mapError _ (.transaction (replaceBody_balanced filePath hash language known x))

theorem carries_atomic : Carries Atomic where
  outcome _ := .pure _
  read _ _ hnext := .bind_reading (.query _) hnext
  replaced _ _ _ _ _ outcome := (replace_atomic _ _ _ _ _).bind_pure outcome

theorem indexContent_atomic (base : Path) (options : IndexerOptions) (extractor : Extractor)
    (path content : String) : (indexContent base options extractor path content).Atomic :=
  carries_atomic.indexContent base options extractor path content

theorem indexFile_atomic (disk : Disk) (options : IndexerOptions) (extractor : Extractor)
    (path : String) : (indexFile disk options extractor path).Atomic :=
  carries_atomic.indexFile disk options extractor path

theorem removeFiles_atomic (paths : List String) : (removeFiles paths).Atomic := by
  unfold removeFiles
  split
  · exact .pure _
  · exact .mapError _ (.transaction (.mapM removeFile_balanced paths))

theorem ledgered_reading (test : String → Bool) : (ledgered test).Reading :=
  (Reading.query _).bind fun _ => .pure _

/-- A sweep that fails stops after some of its files, all of them indexed completely. -/
theorem sync_error {disk : Disk} {options : IndexerOptions} {extractor : Extractor}
    {root : String} {db after : Database} {e : Error}
    (h : (sync disk options extractor root).runOn db = (.error e, after)) :
    ∃ k outcomes mid,
      (((discover disk (disk.base.resolve root) options.exclude).take k).mapM fun p =>
        indexFile disk options extractor p.text).runOn db = (.ok outcomes, mid) ∧
      mid.SameState after := by
  rw [sync, runOn_bind] at h
  generalize discover disk (disk.base.resolve root) options.exclude = files at h ⊢
  rcases hr : (files.mapM fun p => indexFile disk options extractor p.text).runOn db with ⟨r, mid⟩
  rw [hr] at h
  cases r with
  | error _ =>
    cases h
    obtain ⟨k, outcomes, stop, _, hdone, hsame⟩ :=
      mapM_error (fun p : Path => indexFile_atomic disk options extractor p.text) files hr
    exact ⟨k, outcomes, stop, hdone, hsame⟩
  | ok outcomes =>
    refine ⟨files.length, outcomes, mid, by rw [List.take_length]; exact hr, ?_⟩
    exact Atomic.bind_reading (ledgered_reading _)
      (fun paths => Atomic.bind_pure (removeFiles_atomic paths) _) mid after e h

end Indexer

theorem Operation.run_atomic {op : Operation} (h : op.isWhole = true) : op.run.Atomic := by
  cases op with
  | createEntity new => exact (Entities.create_atomic new).discard
  | createEntities new => exact (Entities.createBatch_atomic new).discard
  | deleteEntity id => exact (Entities.delete_atomic id).discard
  | deleteFileEntities filePath => exact (Entities.deleteWhere_atomic _).discard
  | createRelationship new => exact (Relationships.create_atomic new).discard
  | createRelationships new => exact (Relationships.createBatch_atomic new).discard
  | deleteRelationship id => exact (Relationships.delete_atomic id).discard
  | deleteRelationshipsAt entityId => exact (Relationships.deleteWhere_atomic _).discard
  | recordFile filePath contentHash language =>
    exact (FileLedger.upsert_atomic filePath contentHash language).discard
  | forgetFile filePath => exact (FileLedger.delete_atomic filePath).discard
  | resolve entities relationships =>
    exact (Resolver.resolve_atomic entities relationships).discard
  | indexContent base options extractor path content =>
    exact (Indexer.indexContent_atomic base options extractor path content).discard
  | indexFile disk options extractor path =>
    exact (Indexer.indexFile_atomic disk options extractor path).discard
  | removeStale base current =>
    exact (Atomic.bind_reading (Indexer.ledgered_reading _) Indexer.removeFiles_atomic).discard
  | prune disk options root =>
    exact (Atomic.bind_reading (Indexer.ledgered_reading _) Indexer.removeFiles_atomic).discard
  | sync => cases h
  | migrate => cases h
  | rollBack => cases h

/-! ### Errors -/

/-- A failing call leaves the content and the open blocks as they were, on any database and at any
depth of blocks; a failing sweep is one that ended after some of its files, with nothing of the
next step left. -/
theorem error_leaves_no_trace :
    (∀ (op : Operation) (db after : Database) (e : Error), op.isWhole = true →
      op.run.runOn db = (.error e, after) → db.SameState after) ∧
    (∀ (disk : Disk) (options : IndexerOptions) (extractor : Extractor) (root : String)
      (db after : Database) (e : Error),
      (Operation.sync disk options extractor root).run.runOn db = (.error e, after) →
      ∃ k outcomes mid,
        (((discover disk (disk.base.resolve root) options.exclude).take k).mapM fun p =>
          Indexer.indexFile disk options extractor p.text).runOn db = (.ok outcomes, mid) ∧
        mid.SameState after) := by
  refine ⟨fun op db after e h hrun => Operation.run_atomic h db after e hrun, ?_⟩
  intro disk options extractor root db after e h
  rw [Operation.run, runOn_discard] at h
  rcases hr : (Indexer.sync disk options extractor root).runOn db with ⟨r, last⟩
  rw [hr] at h
  cases r with
  | ok report => cases h
  | error _ =>
    cases h
    exact Indexer.sync_error hr

/-- finds a function that calls itself -/
def loopExtractor : Extractor := fun _ _ language =>
  .ok {
    entities := [⟨.function, "loop", "", 1, 1, language, none⟩]
    relationships := [{ kind := .calls, sourceName := "loop", targetName := "loop" }] }

/-- a database with two blocks open and without a table of relationships -/
def withinBlocks : Database :=
  Database.entered (Database.entered { tables := { entities := some {}, files := some {} } })

def oneFile : Disk := ⟨.directory [("a.ts", .file ⟨#[]⟩)], ⟨[]⟩⟩

/-- Without a table of relationships, indexing fails in the middle of three blocks, after it has
stored an entity; without a ledger of files, a sweep fails at its first file. -/
theorem error_leaves_no_trace_midway :
    (∃ (db after : Database) (e : Error), db.savepointDepth = 1 ∧
      (Operation.indexContent ⟨[]⟩ {} loopExtractor "/a.ts" "").run.runOn db = (.error e, after) ∧
      after.idsUsed = 2 ∧ db.SameState after) ∧
    (∃ (disk : Disk) (after : Database) (e : Error),
      (Operation.sync disk {} loopExtractor "/").run.runOn {} = (.error e, after) ∧
      ∃ k outcomes mid,
        (((discover disk (disk.base.resolve "/") []).take k).mapM fun p =>
          Indexer.indexFile disk {} loopExtractor p.text).runOn {} = (.ok outcomes, mid) ∧
        mid.SameState after) := by
  constructor
  · obtain ⟨e, h⟩ := exists_error_of_isOk
      (Operation.indexContent ⟨[]⟩ {} loopExtractor "/a.ts" "").run withinBlocks (by decide +kernel)
    have hids : ((Operation.indexContent ⟨[]⟩ {} loopExtractor "/a.ts" "").run.runOn
        withinBlocks).2.idsUsed = 2 := by
      decide +kernel
    exact ⟨withinBlocks, _, e, rfl, h, hids, error_leaves_no_trace.1 _ _ _ _ rfl h⟩
  · obtain ⟨e, h⟩ := exists_error_of_isOk
      (Operation.sync oneFile {} loopExtractor "/").run {} (by decide +kernel)
    exact ⟨oneFile, _, e, h, error_leaves_no_trace.2 _ _ _ _ _ _ _ h⟩

end CodeAtlas
