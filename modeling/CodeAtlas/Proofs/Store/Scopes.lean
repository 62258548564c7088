import CodeAtlas.Proofs.Store.Programs

/-!
# Computations that close what they open

A computation is balanced when it leaves the open transaction and the open savepoints as it found
them, whether it fails or not. A block around a balanced computation finds its own savepoint
innermost again, so closing it means what it says.

* `Database.left_eq`       closing a block: what was written stays if the body succeeded, and is
                           taken back to the state before the block if it failed;
* `Balanced.runOn_transaction`   a block around a balanced computation, in one equation;
* `Balanced.runOn_snapshot`      a snapshot around one;
* `StoreProgram.run_balanced`    every program is balanced, and so is every operation.
-/

namespace CodeAtlas

/-- the same transaction and the same savepoints are open -/
structure Database.SameScopes (a b : Database) : Prop where
  begun : b.begun = a.begun
  savepoints : b.savepoints = a.savepoints
  depth : b.savepointDepth = a.savepointDepth

namespace Database

theorem SameScopes.refl (a : Database) : SameScopes a a := ⟨rfl, rfl, rfl⟩

theorem SameScopes.trans {a b c : Database} (h : SameScopes a b) (h' : SameScopes b c) :
    SameScopes a c :=
  ⟨h'.begun.trans h.begun, h'.savepoints.trans h.savepoints, h'.depth.trans h.depth⟩

/-- Closing a block whose body was balanced. -/
theorem left_eq {db after : Database} (h : SameScopes db.entered after) (kept : Bool) :
    db.left kept after =
      { db with
        tables := if kept then after.tables else db.tables
        idsUsed := after.idsUsed } := by
  obtain ⟨tables, begun, savepoints, depth, idsUsed⟩ := after
  obtain ⟨hb, hs, hd⟩ := h
  cases hin : db.inTransaction with
  | true =>
    simp only [entered, hin, if_true, savepoint] at hb hs hd
    subst hb hs hd
    cases kept <;> simp [left, hin, release, rollbackTo, from?]
  | false =>
    simp only [entered, hin, Bool.false_eq_true, if_false, Database.begin] at hb hs hd
    subst hb hs hd
    obtain ⟨t, b, s, d, n⟩ := db
    simp only [inTransaction, Bool.or_eq_false_iff, Bool.not_eq_false', List.isEmpty_iff,
      Option.isSome_eq_false_iff, Option.isNone_iff_eq_none] at hin
    obtain ⟨rfl, rfl⟩ := hin
    cases kept <;> rfl

end Database

namespace StoreM

variable {α β γ : Type}

/-- leaves the open transaction and the open savepoints as they were -/
def Balanced (x : StoreM α) : Prop := ∀ db : Database, db.SameScopes (x.runOn db).2

namespace Balanced

variable {x : StoreM α}

theorem sequential : Sequential fun _ x => Balanced x := .of_relation .refl .trans

theorem pure (a : α) : Balanced (pure a : StoreM α) := sequential.pure a

theorem lift (r : Except Error α) : Balanced (lift r) := fun db => .refl db

theorem query (f : Tables → Except Error α) : Balanced (query f) := fun db => .refl db

theorem freshId : Balanced freshId := fun _ => ⟨rfl, rfl, rfl⟩

theorem inTransaction : Balanced inTransaction := fun db => .refl db

theorem execute (f : Tables → Except Error (α × Tables)) : Balanced (execute f) := by
  intro db
  rw [runOn_execute]
  split
  · exact ⟨rfl, rfl, rfl⟩
  · exact .refl db

theorem bind {f : α → StoreM β} (hx : Balanced x) (hf : ∀ a, Balanced (f a)) :
    Balanced (x >>= f) := sequential.bind hx hf

theorem mapError (f : Error → Error) (hx : Balanced x) : Balanced (mapError f x) := by
  intro db
  rw [runOn_mapError]
  exact hx db

theorem attempt (hx : Balanced x) : Balanced (attempt x) := hx

theorem mapM {f : γ → StoreM α} (hf : ∀ c, Balanced (f c)) (cs : List γ) :
    Balanced (cs.mapM f) := sequential.mapM cs fun c _ => hf c

theorem forM {f : γ → StoreM PUnit} (hf : ∀ c, Balanced (f c)) (cs : List γ) :
    Balanced (cs.forM f) := sequential.forM cs fun c _ => hf c

/-- A block around a balanced computation keeps all of it or, if it fails, nothing. -/
theorem runOn_transaction (hx : Balanced x) (db : Database) :
    (StoreM.transaction x).runOn db =
      ((x.runOn db.entered).1,
        { db with
          tables := if (x.runOn db.entered).1.isOk then (x.runOn db.entered).2.tables
            else db.tables
          idsUsed := (x.runOn db.entered).2.idsUsed }) := by
  rw [transaction_eq, Database.left_eq (hx db.entered)]

theorem transaction (hx : Balanced x) : Balanced (transaction x) := by
  intro db
  rw [hx.runOn_transaction]
  exact ⟨rfl, rfl, rfl⟩

/-- A snapshot with nothing around it keeps nothing: it ends as a block does whose body failed. -/
theorem runOn_snapshot (hx : Balanced x) {db : Database} (h : db.inTransaction = false) :
    (StoreM.snapshot x).runOn db =
      ((x.runOn db.entered).1, { db with idsUsed := (x.runOn db.entered).2.idsUsed }) := by
  have hentered : db.entered = db.begin := if_neg (by rw [h]; exact Bool.false_ne_true)
  have hend := Database.left_eq (hx db.entered) false
  rw [Database.left, h, if_neg Bool.false_ne_true, if_neg Bool.false_ne_true] at hend
  rw [snapshot_eq x h, ← hentered, hend]
  rfl

theorem snapshot (hx : Balanced x) : Balanced (snapshot x) := by
  intro db
  cases hin : db.inTransaction with
  | true =>
    rw [snapshot_eq_of_inTransaction x hin]
    exact hx db
  | false =>
    rw [hx.runOn_snapshot hin]
    exact ⟨rfl, rfl, rfl⟩

end Balanced

end StoreM

open StoreM

/-- Every program is balanced. -/
theorem StoreProgram.run_balanced {α : Type} (p : StoreProgram α) : p.run.Balanced := by
  induction p with
  | done r => exact .lift r
  | read f => exact .query f
  | write f => exact .execute f
  | newId => exact .freshId
  | isInside => exact .inTransaction
  | andThen p next ihp ihnext => exact ihp.bind ihnext
  | relabel f p ih => exact ih.mapError f
  | recover p ih => exact ih.attempt
  | block p ih => exact ih.transaction
  | snapshot p ih => exact ih.snapshot

theorem StoreM.IsProgram.balanced {α : Type} {x : StoreM α} (h : x.IsProgram) : x.Balanced := by
  obtain ⟨p, rfl⟩ := h
  exact p.run_balanced

/-! ### The operations of the library -/

theorem Entities.insert_balanced (new : NewEntity) : (insert new).Balanced :=
  (insert_isProgram new).balanced

theorem Relationships.insert_balanced (onDuplicate : Tables.OnDuplicate) (new : NewRelationship) :
    (insert onDuplicate new).Balanced :=
  (insert_isProgram onDuplicate new).balanced

theorem Resolver.resolveWithin_balanced (es : List NewEntity) (rs : List ExtractedRelationship) :
    (resolveWithin es rs).Balanced :=
  (resolveWithin_isProgram es rs).balanced

namespace Indexer

theorem replaceBody_balanced (filePath hash language : String) (known : Bool) (x : Extraction) :
    (replaceBody filePath hash language known x).Balanced :=
  (replaceBody_isProgram filePath hash language known x).balanced

theorem removeFile_balanced (filePath : String) : (removeFile filePath).Balanced :=
  (removeFile_isProgram filePath).balanced

end Indexer

end CodeAtlas
