import CodeAtlas.Proofs.Operation
import CodeAtlas.Proofs.Store.Runs

/-!
# Scripts over a store

Sequences of calls, grouped into blocks to any depth. A failing call ends the blocks around it up to
the one that recovers from the error.

* `Script.run`       what a script does;
* `Script.visited`   the states that it goes through, those inside of open blocks included.
-/

namespace CodeAtlas

/-- What a caller of the library does with one handle on a database. -/
inductive Script where
  | call (op : Operation)
  /-- an error of the caller's own -/
  | fail (e : Error)
  /-- the second part runs if the first one did not fail -/
  | andThen (p q : Script)
  /-- an error of the part is seen and not passed on -/
  | recover (p : Script)
  | block (p : Script)
  | snapshot (p : Script)

namespace Script

def run : Script → StoreM Unit
  | .call op => op.run
  | .fail e => StoreM.lift (.error e)
  | .andThen p q => do p.run; q.run
  | .recover p => discard (StoreM.attempt p.run)
  | .block p => StoreM.transaction p.run
  | .snapshot p => StoreM.snapshot p.run

/-- the databases before and after each step of a run -/
def visited : Script → Database → List Database
  | .call op, db => [db, (op.run.runOn db).2]
  | .fail _, db => [db]
  | .andThen p q, db =>
    p.visited db ++
      match p.run.runOn db with
      | (.ok _, mid) => q.visited mid
      | (.error _, _) => []
  | .recover p, db => p.visited db
  | .block p, db => db :: p.visited db.entered ++ [((StoreM.transaction p.run).runOn db).2]
  | .snapshot p, db =>
    db :: p.visited (if db.inTransaction then db else db.begin)
      ++ [((StoreM.snapshot p.run).runOn db).2]

/-- A run ends in a state that it visits. -/
theorem final_mem_visited (p : Script) (db : Database) : (p.run.runOn db).2 ∈ p.visited db := by
  induction p generalizing db with
  | call op => exact List.mem_cons_of_mem _ (List.mem_singleton_self _)
  | fail e => exact List.mem_singleton_self _
  | andThen p q ihp ihq =>
    rw [run, StoreM.runOn_bind, visited, List.mem_append]
    have hp := ihp db
    revert hp
    rcases p.run.runOn db with ⟨r, mid⟩
    intro hp
    cases r with
    | ok _ => exact .inr (ihq mid)
    | error e => exact .inl hp
  | recover p ih =>
    rw [run, StoreM.runOn_discard, StoreM.runOn_attempt]
    exact ih db
  | block p _ => exact List.mem_append_right _ (List.mem_singleton_self _)
  | snapshot p _ => exact List.mem_append_right _ (List.mem_singleton_self _)

end Script

end CodeAtlas
