import CodeAtlas.Proofs.Store.Runs
import CodeAtlas.Proofs.Store.Statements

/-!
# The ledger of files as a map

Recording a path gives it a hash and a language, and leaves the records of the other paths alone.

* `Tables.refreshed_paths`     a path that was recorded is in the ledger once;
* `Tables.refreshed_entries`   the records after a path was recorded, up to their order;
* `FileLedger.upsert_runOn`    recording is one statement, and its record is found after it.
-/

namespace CodeAtlas

/-- What is sorted by a key is in the order of the keys. -/
theorem pairwise_mergeSort_key {α κ : Type} [LE κ] [DecidableLE κ] (key : α → κ)
    (htrans : ∀ {a b c : κ}, a ≤ b → b ≤ c → a ≤ c) (htotal : ∀ a b : κ, a ≤ b ∨ b ≤ a)
    (xs : List α) :
    (xs.mergeSort fun a b => key a ≤ key b).Pairwise fun a b => key a ≤ key b := by
  let le : α → α → Bool := fun a b => key a ≤ key b
  have hle : ∀ a b c, le a b = true → le b c = true → le a c = true := fun _ _ _ hab hbc =>
    decide_eq_true (htrans (of_decide_eq_true hab) (of_decide_eq_true hbc))
  have htotal' : ∀ a b, (le a b || le b a) = true := fun a b => Bool.or_eq_true_iff.mpr <|
    (htotal (key a) (key b)).imp decide_eq_true decide_eq_true
  exact (List.pairwise_mergeSort hle htotal' xs).imp fun h => of_decide_eq_true h

/-- what the ledger says about a file -/
def FileRecord.entry (r : FileRecord) : String × String × String :=
  (r.filePath, r.contentHash, r.language)

namespace Tables

/-- A path that was recorded is in the ledger once, as before. -/
theorem refreshed_paths (filePath contentHash language : String) (table : FileTable) :
    (refreshed filePath contentHash language table).map (·.filePath) =
      if filePath ∈ table.rows.map (·.filePath) then table.rows.map (·.filePath)
      else table.rows.map (·.filePath) ++ [filePath] := by
  have hany : table.rows.any (·.filePath == filePath) = true ↔
      filePath ∈ table.rows.map (·.filePath) := by
    simp [List.any_eq_true, List.mem_map]
  unfold refreshed
  by_cases h : table.rows.any (·.filePath == filePath) = true
  · rw [if_pos h, if_pos (hany.mp h), List.map_map]
    refine List.map_congr_left fun r _ => ?_
    show (if r.filePath = filePath then _ else _ : FileRecord).filePath = r.filePath
    split <;> rfl
  · rw [if_neg h, if_neg fun h' => h (hany.mpr h'), List.map_append]
    rfl

/-- Refreshing the one record of a path replaces its entry. -/
theorem entries_map_refresh {filePath : String} (contentHash language : String)
    {rows : List FileRecord} (hnodup : (rows.map (·.filePath)).Nodup)
    (hmem : filePath ∈ rows.map (·.filePath)) :
    ((rows.map fun r =>
        if r.filePath = filePath then { r with contentHash, language } else r).map
          FileRecord.entry).Perm
      ((rows.filter (·.filePath != filePath)).map FileRecord.entry ++
        [(filePath, contentHash, language)]) := by
  induction rows with
  | nil => cases hmem
  | cons r rest ih =>
    rw [List.map_cons, List.nodup_cons] at hnodup
    by_cases hr : r.filePath = filePath
    · -- the record is this one, so no other has the path
      have hne : ∀ r' ∈ rest, r'.filePath ≠ filePath := by
        intro r' hr' heq
        exact hnodup.1 (hr ▸ heq ▸ List.mem_map_of_mem hr')
      have hmap : rest.map (fun r =>
          if r.filePath = filePath then { r with contentHash, language } else r) = rest := by
        rw [List.map_congr_left fun r' hr' => if_neg (hne r' hr'), List.map_id']
      have hfilter : (r :: rest).filter (·.filePath != filePath) = rest := by
        rw [List.filter_cons_of_neg (by simp [hr])]
        exact List.filter_eq_self.mpr fun r' hr' => by simpa using hne r' hr'
      rw [List.map_cons, List.map_cons, if_pos hr, hmap, hfilter]
      show ((r.filePath, contentHash, language) :: _).Perm _
      rw [hr]
      exact (List.perm_append_singleton _ _).symm
    · have hmem' : filePath ∈ rest.map (·.filePath) := by
        rcases List.mem_cons.mp hmem with h | h
        · exact absurd h.symm hr
        · exact h
      rw [List.map_cons, List.map_cons, if_neg hr, List.filter_cons_of_pos (by simpa using hr)]
      exact (ih hnodup.2 hmem').cons _

/-- Recording a path gives it a hash and a language, and nothing else changes. -/
theorem refreshed_entries (filePath contentHash language : String) {table : FileTable}
    (hnodup : (table.rows.map (·.filePath)).Nodup) :
    ((refreshed filePath contentHash language table).map FileRecord.entry).Perm
      ((table.rows.filter (·.filePath != filePath)).map FileRecord.entry ++
        [(filePath, contentHash, language)]) := by
  unfold refreshed
  by_cases h : table.rows.any (·.filePath == filePath) = true
  · rw [if_pos h]
    refine entries_map_refresh contentHash language hnodup ?_
    obtain ⟨r, hr, hpath⟩ := List.any_eq_true.mp h
    exact List.mem_map.mpr ⟨r, hr, by simpa using hpath⟩
  · have hfilter : table.rows.filter (·.filePath != filePath) = table.rows := by
      refine List.filter_eq_self.mpr fun r hr => ?_
      have hr' := List.any_eq_false.mp (Bool.eq_false_iff.mpr h) r hr
      simpa using hr'
    rw [if_neg h, hfilter, List.map_append]
    exact .refl _

end Tables

namespace FileLedger

open StoreM

theorem find?_refreshed (filePath contentHash language : String) (table : FileTable) :
    ((Tables.refreshed filePath contentHash language table).find?
      (·.filePath == filePath)).isSome = true := by
  unfold Tables.refreshed
  rw [List.find?_isSome]
  split
  · rename_i h
    obtain ⟨r, hr, hp⟩ := List.any_eq_true.mp h
    have hp : r.filePath = filePath := by simpa using hp
    exact ⟨_, List.mem_map_of_mem hr, by simp [hp]⟩
  · exact ⟨_, List.mem_append_right _ (List.mem_singleton_self _), by simp⟩

theorem upsert_runOn (filePath contentHash language : String) (db : Database) :
    (upsert filePath contentHash language).runOn db =
      match db.tables.upsertFile filePath contentHash language with
      | .ok tables =>
        (match find? filePath tables with
          | .ok (some record) => .ok record
          | .ok none => .error (.storage .noRows)
          | .error e => .error e, { db with tables })
      | .error fault => (.error (.storage fault), db) := by
  rw [upsert, runOn_bind, runOn_execute]
  cases db.tables.upsertFile filePath contentHash language with
  | error fault => rfl
  | ok tables =>
    dsimp only
    rw [runOn_bind, runOn_query]
    rcases find? filePath tables with e | _ | record <;> rfl

/-- After a path was recorded, its record is found. -/
theorem find?_of_upsertFile {filePath contentHash language : String} {t t' : Tables}
    (h : t.upsertFile filePath contentHash language = .ok t') :
    ∃ record, find? filePath t' = .ok (some record) := by
  obtain ⟨table, _, _, rfl⟩ := Tables.upsertFile_eq_ok.mp h
  obtain ⟨record, hrecord⟩ := Option.isSome_iff_exists.mp
    (find?_refreshed filePath contentHash language table)
  exact ⟨record, congrArg Except.ok hrecord⟩

end FileLedger

end CodeAtlas
