import CodeAtlas.Proofs.Store.Runs
import CodeAtlas.Store.Migrations

/-!
# The migrated database

What the built-in migrations make of a database without tables: the three tables of the graph, all
of them empty, and the note of each migration.
-/

namespace CodeAtlas

/-- the content of a database that was just migrated -/
def Tables.migrated : Tables where
  entities := some {}
  relationships := some {}
  files := some {}
  ledger := some [⟨1, "create_entities"⟩, ⟨2, "create_relationships"⟩, ⟨3, "create_files"⟩]

namespace Migrations

open StoreM

/-- The built-in migrations are listed in their order. -/
theorem builtIn_eq : builtIn = ⟨Migration.builtIn⟩ := by
  unfold builtIn ofList
  rw [List.mergeSort_of_pairwise]
  decide

theorem applied_runOn_empty :
    applied.runOn {} = (.ok [], { tables := { ledger := some [] } }) := by
  rw [applied, runOn_bind_ok (runOn_execute_ok rfl), runOn_query]
  show (Except.ok (List.mergeSort [] _), _) = _
  rw [List.mergeSort_nil]
  rfl

theorem run_runOn_empty : builtIn.run.runOn {} = (.ok 3, { tables := .migrated }) := by
  have hcheck : (lift builtIn.checkDefinitions).runOn {} = (.ok (), {}) := by
    rw [builtIn_eq]
    rfl
  have hpending : builtIn.pending.runOn {} =
      (.ok Migration.builtIn, { tables := { ledger := some [] } }) := by
    rw [pending, runOn_bind_ok applied_runOn_empty, builtIn_eq]
    rfl
  rw [run, runOn_bind_ok hcheck, runOn_bind_ok hpending]
  rfl

end Migrations

end CodeAtlas
