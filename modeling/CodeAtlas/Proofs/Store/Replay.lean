import CodeAtlas.Proofs.Store.Ledger
import Mathlib.Data.List.Induction
import Mathlib.Data.List.Nodup

/-!
# What writes make of the ledger

The ledger of files after some writes, read off the writes: a path is there with the hash and the
language that it was last recorded with, and a record keeps its number as long as its path stays.

* `LedgerWrite`, `FileTable.replay`   writes as data, and what they make of a table;
* `Recorded`, `Present`, `Stays`      what a history of writes says about a path;
* `FileTable.Sound`                   what every write preserves;
* `FileTable.mem_entries_replay`      a table that was empty holds what was recorded since;
* `FileTable.exists_mem_replay`       a record keeps its number as long as its path stays;
* `FileTable.stays_of_id_eq`          a number stands for one path, which has stayed.
-/

namespace CodeAtlas

/-- a write to the ledger of files -/
inductive LedgerWrite where
  | record (filePath contentHash language : String)
  | forget (filePath : String)
  deriving DecidableEq

def LedgerWrite.filePath : LedgerWrite → String
  | .record filePath _ _ => filePath
  | .forget filePath => filePath

/-! ### What a history says -/

/-- the last write about a path records it with this hash and this language -/
def Recorded (log : List LedgerWrite) (filePath contentHash language : String) : Prop :=
  ∃ before after, log = before ++ .record filePath contentHash language :: after ∧
    ∀ w ∈ after, w.filePath ≠ filePath

def Present (log : List LedgerWrite) (filePath : String) : Prop :=
  ∃ contentHash language, Recorded log filePath contentHash language

/-- a path is present in a history and in all that follow up to another one -/
def Stays (log log' : List LedgerWrite) (filePath : String) : Prop :=
  ∀ between, log <+: between → between <+: log' → Present between filePath

theorem not_recorded_nil {filePath contentHash language : String} :
    ¬ Recorded [] filePath contentHash language := by
  rintro ⟨before, after, h, -⟩
  exact List.append_ne_nil_of_right_ne_nil before (List.cons_ne_nil _ after) h.symm

/-- A write is the last one about its own path, and leaves the others alone. -/
theorem recorded_concat {log : List LedgerWrite} {w : LedgerWrite}
    {filePath contentHash language : String} :
    Recorded (log ++ [w]) filePath contentHash language ↔
      w = .record filePath contentHash language ∨
        w.filePath ≠ filePath ∧ Recorded log filePath contentHash language := by
  constructor
  · rintro ⟨before, after, h, hafter⟩
    rcases List.eq_nil_or_concat after with rfl | ⟨after, last, rfl⟩
    · exact .inl (List.append_inj_right' h rfl |> List.singleton_inj.mp)
    · rw [List.concat_eq_append] at h hafter
      have h : log ++ [w] =
          (before ++ .record filePath contentHash language :: after) ++ [last] := by
        rw [h, List.append_assoc, List.cons_append]
      obtain ⟨rfl, hlast⟩ := List.append_inj' h rfl
      obtain rfl := List.singleton_inj.mp hlast
      have hw := hafter w (List.mem_append_right _ (List.mem_singleton_self w))
      exact .inr ⟨hw, before, after, rfl, fun w' hw' => hafter w' (List.mem_append_left _ hw')⟩
  · rintro (rfl | ⟨hne, before, after, rfl, hafter⟩)
    · exact ⟨log, [], rfl, nofun⟩
    · refine ⟨before, after ++ [w], by rw [List.append_assoc, List.cons_append], fun w' hw' => ?_⟩
      rcases List.mem_append.mp hw' with hw' | hw'
      · exact hafter w' hw'
      · exact List.mem_singleton.mp hw' ▸ hne

theorem Stays.refl {log : List LedgerWrite} {filePath : String} (h : Present log filePath) :
    Stays log log filePath := fun _ hlog hlog' => (hlog'.eq_of_length_le hlog.length_le) ▸ h

theorem Stays.concat {log log' : List LedgerWrite} {w : LedgerWrite} {filePath : String}
    (h : Stays log log' filePath) (hw : Present (log' ++ [w]) filePath) :
    Stays log (log' ++ [w]) filePath := by
  intro between hlog hlog'
  rcases List.prefix_concat_iff.mp hlog' with rfl | hlog'
  · exact hw
  · exact h between hlog hlog'

/-! ### What the writes of a history make of a table -/

namespace FileTable

def write (table : FileTable) : LedgerWrite → FileTable
  | .record filePath contentHash language =>
    { table with
      rows := Tables.refreshed filePath contentHash language table
      lastId := table.lastId + 1 }
  | .forget filePath => { table with rows := table.rows.filter (·.filePath != filePath) }

def replay (table : FileTable) (log : List LedgerWrite) : FileTable := log.foldl write table

theorem replay_append (table : FileTable) (log log' : List LedgerWrite) :
    table.replay (log ++ log') = (table.replay log).replay log' :=
  List.foldl_append

theorem replay_concat (table : FileTable) (log : List LedgerWrite) (w : LedgerWrite) :
    table.replay (log ++ [w]) = (table.replay log).write w :=
  replay_append table log [w]

/-- a table has nothing against a write -/
def Accepts (table : FileTable) : LedgerWrite → Prop
  | .record _ _ language => language ∉ table.rejects
  | .forget _ => True

theorem rejects_replay (table : FileTable) (log : List LedgerWrite) :
    (table.replay log).rejects = table.rejects := by
  induction log generalizing table with
  | nil => rfl
  | cons w log ih =>
    rw [replay, List.foldl_cons]
    cases w <;> exact ih _

theorem accepts_replay {table : FileTable} {log : List LedgerWrite} {w : LedgerWrite} :
    (table.replay log).Accepts w ↔ table.Accepts w := by
  cases w with
  | record filePath contentHash language => rw [Accepts, Accepts, rejects_replay]
  | forget filePath => exact Iff.rfl

/-- Each path has one record, each record its own number, and the last number is known. -/
structure Sound (table : FileTable) : Prop where
  paths : (table.rows.map (·.filePath)).Nodup
  ids : (table.rows.map (·.id)).Nodup
  lastId : ∀ r ∈ table.rows, r.id ≤ table.lastId

variable {table : FileTable}

theorem Sound.of_rows_eq_nil (h : table.rows = []) : table.Sound := by
  refine ⟨?_, ?_, ?_⟩ <;> rw [h]
  · exact List.nodup_nil
  · exact List.nodup_nil
  · exact nofun

/-- A record after a write is one from before, with its number and path, or has a new number. -/
theorem mem_write {w : LedgerWrite} {r : FileRecord} (hr : r ∈ (table.write w).rows) :
    (∃ r₀ ∈ table.rows, r₀.id = r.id ∧ r₀.filePath = r.filePath) ∨
      r.id = table.lastId + 1 ∧ r.id ≤ (table.write w).lastId := by
  cases w with
  | record filePath contentHash language =>
    change r ∈ Tables.refreshed filePath contentHash language table at hr
    rw [Tables.refreshed] at hr
    split at hr
    · obtain ⟨r₀, hr₀, rfl⟩ := List.mem_map.mp hr
      refine .inl ⟨r₀, hr₀, ?_⟩
      split <;> exact ⟨rfl, rfl⟩
    · rcases List.mem_append.mp hr with hr | hr
      · exact .inl ⟨r, hr, rfl, rfl⟩
      · obtain rfl := List.mem_singleton.mp hr
        exact .inr ⟨rfl, Nat.le_refl _⟩
  | forget filePath => exact .inl ⟨r, List.mem_of_mem_filter hr, rfl, rfl⟩

theorem lastId_le_write (table : FileTable) (w : LedgerWrite) :
    table.lastId ≤ (table.write w).lastId := by
  cases w with
  | record filePath contentHash language => exact Nat.le_succ _
  | forget filePath => exact Nat.le_refl _

/-- A record keeps its number in a write after which its path is still there. -/
theorem exists_mem_write {w : LedgerWrite} {r : FileRecord} (hr : r ∈ table.rows)
    (hpath : r.filePath ∈ (table.write w).rows.map (·.filePath)) :
    ∃ r' ∈ (table.write w).rows, r'.id = r.id ∧ r'.filePath = r.filePath := by
  cases w with
  | record filePath contentHash language =>
    show ∃ r' ∈ Tables.refreshed filePath contentHash language table, _
    rw [Tables.refreshed]
    split
    · refine ⟨_, List.mem_map_of_mem hr, ?_⟩
      split <;> exact ⟨rfl, rfl⟩
    · exact ⟨r, List.mem_append_left _ hr, rfl, rfl⟩
  | forget filePath =>
    obtain ⟨r', hr', heq⟩ := List.mem_map.mp hpath
    have hne := (List.mem_filter.mp hr').2
    rw [heq] at hne
    exact ⟨r, List.mem_filter.mpr ⟨hr, hne⟩, rfl, rfl⟩

/-- Records keep their numbers apart: a refreshed one has the number that it had. -/
theorem ids_refreshed (filePath contentHash language : String) (table : FileTable) :
    (Tables.refreshed filePath contentHash language table).map (·.id) =
      table.rows.map (·.id) ∨
    (Tables.refreshed filePath contentHash language table).map (·.id) =
      table.rows.map (·.id) ++ [table.lastId + 1] := by
  unfold Tables.refreshed
  split
  · refine .inl ?_
    rw [List.map_map]
    refine List.map_congr_left fun r _ => ?_
    show (if r.filePath = filePath then _ else _ : FileRecord).id = r.id
    split <;> rfl
  · exact .inr List.map_append

theorem Sound.write (h : table.Sound) (w : LedgerWrite) : (table.write w).Sound where
  paths := by
    cases w with
    | record filePath contentHash language =>
      show ((Tables.refreshed filePath contentHash language table).map _).Nodup
      rw [Tables.refreshed_paths]
      split
      · exact h.paths
      · rename_i hnew
        refine List.nodup_append.mpr ⟨h.paths, List.nodup_singleton _, ?_⟩
        exact fun path hpath path' hpath' heq =>
          hnew (List.mem_singleton.mp hpath' ▸ heq ▸ hpath)
    | forget filePath => exact h.paths.sublist (List.filter_sublist.map _)
  ids := by
    cases w with
    | record filePath contentHash language =>
      show ((Tables.refreshed filePath contentHash language table).map _).Nodup
      rcases ids_refreshed filePath contentHash language table with heq | heq
      · rw [heq]
        exact h.ids
      · rw [heq]
        refine List.nodup_append.mpr ⟨h.ids, List.nodup_singleton _, ?_⟩
        rintro id hid id' hid' rfl
        obtain ⟨r, hr, hrid⟩ := List.mem_map.mp hid
        have hle := h.lastId r hr
        rw [hrid, List.mem_singleton.mp hid'] at hle
        exact absurd hle (Nat.not_succ_le_self _)
    | forget filePath => exact h.ids.sublist (List.filter_sublist.map _)
  lastId r hr := by
    rcases mem_write hr with ⟨r₀, hr₀, hid, -⟩ | ⟨-, hle⟩
    · exact hid ▸ Nat.le_trans (h.lastId r₀ hr₀) (lastId_le_write table w)
    · exact hle

theorem Sound.replay (h : table.Sound) (log : List LedgerWrite) : (table.replay log).Sound := by
  induction log generalizing table with
  | nil => exact h
  | cons w log ih => exact ih (h.write w)

theorem lastId_le_replay (table : FileTable) (log : List LedgerWrite) :
    table.lastId ≤ (table.replay log).lastId := by
  induction log generalizing table with
  | nil => exact Nat.le_refl _
  | cons w log ih => exact Nat.le_trans (lastId_le_write table w) (ih (table.write w))

/-! ### What is recorded -/

/-- A write gives its path an entry or takes the entry away, and leaves the others alone. -/
theorem mem_entries_write (h : table.Sound) {w : LedgerWrite}
    {filePath contentHash language : String} :
    (filePath, contentHash, language) ∈ (table.write w).rows.map FileRecord.entry ↔
      w = .record filePath contentHash language ∨
        w.filePath ≠ filePath ∧
          (filePath, contentHash, language) ∈ table.rows.map FileRecord.entry := by
  have hothers : ∀ path : String, (filePath, contentHash, language) ∈
      (table.rows.filter (·.filePath != path)).map FileRecord.entry ↔
        path ≠ filePath ∧ (filePath, contentHash, language) ∈ table.rows.map FileRecord.entry := by
    intro path
    simp only [List.mem_map, List.mem_filter, bne_iff_ne]
    constructor
    · rintro ⟨r, ⟨hr, hne⟩, heq⟩
      have hpath : r.filePath = filePath := congrArg Prod.fst heq
      exact ⟨fun h => hne (hpath.trans h.symm), r, hr, heq⟩
    · rintro ⟨hne, r, hr, heq⟩
      have hpath : r.filePath = filePath := congrArg Prod.fst heq
      exact ⟨r, ⟨hr, fun h => hne (h.symm.trans hpath)⟩, heq⟩
  cases w with
  | record path hash lang =>
    show _ ∈ (Tables.refreshed path hash lang table).map FileRecord.entry ↔ _
    rw [(Tables.refreshed_entries path hash lang h.paths).mem_iff, List.mem_append, hothers,
      List.mem_singleton, Or.comm]
    simp only [LedgerWrite.record.injEq, Prod.mk.injEq, LedgerWrite.filePath, @eq_comm _ path,
      @eq_comm _ hash, @eq_comm _ lang]
  | forget path =>
    show _ ∈ (table.rows.filter (·.filePath != path)).map FileRecord.entry ↔ _
    rw [hothers]
    exact (or_iff_right LedgerWrite.noConfusion).symm

variable {fresh : FileTable}

/-- A table that was empty holds what was recorded since. -/
theorem mem_entries_replay (hfresh : fresh.rows = []) (log : List LedgerWrite)
    {filePath contentHash language : String} :
    (filePath, contentHash, language) ∈ (fresh.replay log).rows.map FileRecord.entry ↔
      Recorded log filePath contentHash language := by
  induction log using List.reverseRecOn with
  | nil =>
    refine iff_of_false ?_ not_recorded_nil
    show _ ∉ fresh.rows.map _
    rw [hfresh]
    exact List.not_mem_nil
  | append_singleton log w ih =>
    rw [replay_concat, mem_entries_write ((Sound.of_rows_eq_nil hfresh).replay log), ih,
      recorded_concat]

theorem mem_paths_replay (hfresh : fresh.rows = []) (log : List LedgerWrite) {filePath : String} :
    filePath ∈ (fresh.replay log).rows.map (·.filePath) ↔ Present log filePath := by
  simp only [Present, ← mem_entries_replay hfresh log, List.mem_map]
  constructor
  · rintro ⟨r, hr, rfl⟩
    exact ⟨r.contentHash, r.language, r, hr, rfl⟩
  · rintro ⟨contentHash, language, r, hr, heq⟩
    exact ⟨r, hr, congrArg Prod.fst heq⟩

/-! ### Numbers -/

/-- A record keeps its number as long as its path stays. -/
theorem exists_mem_replay (hfresh : fresh.rows = []) {log log' : List LedgerWrite}
    (hlog : log <+: log') {r : FileRecord} (hr : r ∈ (fresh.replay log).rows)
    (hstays : Stays log log' r.filePath) :
    ∃ r' ∈ (fresh.replay log').rows, r'.id = r.id ∧ r'.filePath = r.filePath := by
  obtain ⟨more, rfl⟩ := hlog
  induction more using List.reverseRecOn with
  | nil =>
    rw [List.append_nil]
    exact ⟨r, hr, rfl, rfl⟩
  | append_singleton more w ih =>
    rw [← List.append_assoc] at hstays ⊢
    obtain ⟨r₀, hr₀, hid, hpath⟩ := ih fun between h h' =>
      hstays between h (h'.trans (List.prefix_append _ _))
    have hlast := hstays _ ((List.prefix_append log more).trans (List.prefix_append _ _))
      (List.prefix_refl _)
    rw [← hpath, ← mem_paths_replay hfresh, replay_concat] at hlast
    obtain ⟨r', hr', hid', hpath'⟩ := exists_mem_write hr₀ hlast
    rw [replay_concat]
    exact ⟨r', hr', hid'.trans hid, hpath'.trans hpath⟩

/-- A number stands for one path, which has stayed ever since. -/
theorem stays_of_id_eq (hfresh : fresh.rows = []) {log log' : List LedgerWrite}
    (hlog : log <+: log') {r r' : FileRecord} (hr : r ∈ (fresh.replay log).rows)
    (hr' : r' ∈ (fresh.replay log').rows) (hid : r.id = r'.id) :
    r.filePath = r'.filePath ∧ Stays log log' r.filePath := by
  have hsound := (Sound.of_rows_eq_nil hfresh).replay log
  obtain ⟨more, rfl⟩ := hlog
  induction more using List.reverseRecOn generalizing r' with
  | nil =>
    rw [List.append_nil] at hr' ⊢
    obtain rfl := List.inj_on_of_nodup_map hsound.ids hr hr' hid
    exact ⟨rfl, .refl ((mem_paths_replay hfresh log).mp (List.mem_map_of_mem hr))⟩
  | append_singleton more w ih =>
    rw [← List.append_assoc] at hr' ⊢
    have hpresent := (mem_paths_replay hfresh _).mp (List.mem_map_of_mem (f := (·.filePath)) hr')
    rw [replay_concat] at hr'
    rcases mem_write hr' with ⟨r₀, hr₀, hid₀, hpath₀⟩ | ⟨hnew, -⟩
    · obtain ⟨hpath, hstays⟩ := ih (hid.trans hid₀.symm) hr₀
      have hsame := hpath.trans hpath₀
      exact ⟨hsame, hstays.concat (hsame ▸ hpresent)⟩
    · -- the number is beyond all that were given out before
      have hle := Nat.le_trans (hsound.lastId r hr) (lastId_le_replay _ more)
      rw [← replay_append, hid, hnew] at hle
      exact absurd hle (Nat.not_succ_le_self _)

end FileTable

end CodeAtlas
