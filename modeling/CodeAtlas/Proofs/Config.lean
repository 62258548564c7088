import CodeAtlas.CommandLine.Run
import CodeAtlas.Proofs.Disk
import CodeAtlas.Proofs.Toml.Lines

/-!
# Settings are read as they were written

The text of settings is read line by line as a document, the document as a record, and the record is
the settings. On a disk, what was written to a file is what is read from it.

* `Config.lines_tomlLines`     the document of the text;
* `Config.ofJson?_entries`     the settings of the document;
* `Config.ofToml?_toToml?`     so the text is read as the settings;
* `Config.save_load`           writing settings to a file and reading them from it.
-/

namespace CodeAtlas.Config

open Toml (Value Entries Document)
open Toml.Reader

/-! ### The lines of settings -/

def indexerLines (o : IndexerOptions) : List Line :=
  [⟨"use_hash_check", .bool o.useHashCheck, (if o.useHashCheck then "true" else "false").toList⟩,
    ⟨"exclude", .array (o.exclude.map .string), tomlList o.exclude⟩]

def analysisLines (a : AnalysisConfig) : List Line :=
  [⟨"max_cycles", .integer a.maxCycles, (toString a.maxCycles).toList⟩,
    ⟨"blast_radius_depth", .integer a.blastRadiusDepth, (toString a.blastRadiusDepth).toList⟩,
    ⟨"entry_points", .array (a.entryPoints.map .string), tomlList a.entryPoints⟩,
    ⟨"lifecycle_methods", .array (a.lifecycleMethods.map .string), tomlList a.lifecycleMethods⟩,
    ⟨"test_patterns", .array (a.testPatterns.map .string), tomlList a.testPatterns⟩]

/-- what the text of settings says before its tables -/
def firstEntries (c : Config) : Entries :=
  match c.database with
  | some path => [("database", .string path)]
  | none => []

/-- what the text of settings says -/
def entries (c : Config) : Entries :=
  c.firstEntries ++ [("indexer", .table .header ((indexerLines c.indexer).map Line.entry)),
    ("analysis", .table .header ((analysisLines c.analysis).map Line.entry))]

theorem reads_indexerLines (o : IndexerOptions) : ∀ l ∈ indexerLines o, l.Reads := by
  simp only [indexerLines, List.forall_mem_cons]
  exact ⟨.of_bare (by decide) (stands_bool _), .of_bare (by decide) (stands_list _), nofun⟩

theorem reads_analysisLines {a : AnalysisConfig} (hcycles : a.maxCycles ≤ Toml.Scalar.maxInteger)
    (hdepth : a.blastRadiusDepth ≤ Toml.Scalar.maxInteger) : ∀ l ∈ analysisLines a, l.Reads := by
  simp only [analysisLines, List.forall_mem_cons]
  exact ⟨.of_bare (by decide) (stands_natural hcycles),
    .of_bare (by decide) (stands_natural hdepth),
    .of_bare (by decide) (stands_list _), .of_bare (by decide) (stands_list _),
    .of_bare (by decide) (stands_list _), nofun⟩

/-- the text of settings from the first table on -/
def tableLines (c : Config) : List Char :=
  '[' :: ("indexer".toList ++ ']' :: '\n' :: ((indexerLines c.indexer).flatMap Line.chars ++
    '\n' :: '[' :: ("analysis".toList ++ ']' :: '\n' ::
      ((analysisLines c.analysis).flatMap Line.chars ++ []))))

theorem tomlLines_eq (c : Config) :
    c.tomlLines = (match c.database with
      | some path => tomlLine "database" (Toml.Text.write path) ++ ['\n']
      | none => []) ++ c.tableLines := by
  simp only [tomlLines, tableLines, indexerLines, analysisLines, List.flatMap_cons,
    List.flatMap_nil, Line.chars, List.append_assoc, List.append_nil]
  rfl

variable {c : Config}

theorem lines_tableLines (hcycles : c.analysis.maxCycles ≤ Toml.Scalar.maxInteger)
    (hdepth : c.analysis.blastRadiusDepth ≤ Toml.Scalar.maxInteger) (fuel : Nat) :
    lines (fuel + 10) ⟨c.firstEntries, []⟩ c.tableLines = some ⟨c.entries, ["analysis"]⟩ := by
  have hfirst : ∀ e ∈ c.firstEntries, e.1 = "database" := by
    intro e he
    unfold firstEntries at he
    split at he
    · rw [List.mem_singleton.mp he]
    · cases he
  have hindexer : ∀ e ∈ c.firstEntries, e.1 ≠ "indexer" := fun e he =>
    hfirst e he ▸ by decide
  have hanalysis : ∀ e ∈ c.firstEntries ++ [("indexer",
      Value.table .header ((indexerLines c.indexer).map Line.entry))], e.1 ≠ "analysis" :=
    List.forall_mem_append.mpr ⟨fun e he => hfirst e he ▸ by decide,
      List.forall_mem_singleton.mpr (show "indexer" ≠ "analysis" by decide)⟩
  have hindexerKeys : ((indexerLines c.indexer).map Line.key).Nodup :=
    show ["use_hash_check", "exclude"].Nodup by decide
  have hanalysisKeys : ((analysisLines c.analysis).map Line.key).Nodup :=
    show ["max_cycles", "blast_radius_depth", "entry_points", "lifecycle_methods",
      "test_patterns"].Nodup by decide
  show lines ((fuel + (analysisLines c.analysis).length + 1 + 1) +
    (indexerLines c.indexer).length + 1) _ _ = _
  rw [tableLines, lines_table (reads_indexerLines c.indexer) hindexerKeys (by decide) hindexer,
    lines_blank,
    lines_table (reads_analysisLines hcycles hdepth) hanalysisKeys (by decide) hanalysis,
    lines_nil, List.append_assoc]
  rfl

theorem lines_tomlLines (hcycles : c.analysis.maxCycles ≤ Toml.Scalar.maxInteger)
    (hdepth : c.analysis.blastRadiusDepth ≤ Toml.Scalar.maxInteger) (fuel : Nat) :
    lines (fuel + 12) .empty c.tomlLines = some ⟨c.entries, ["analysis"]⟩ := by
  have htables := fun fuel => lines_tableLines hcycles hdepth fuel
  rw [tomlLines_eq]
  unfold firstEntries at htables
  cases hdatabase : c.database with
  | none =>
    rw [hdatabase] at htables
    exact htables (fuel + 2)
  | some path =>
    rw [hdatabase] at htables
    have hassign : Document.empty.assign ["database"] (.string path) =
        some ⟨[("database", .string path)], []⟩ := rfl
    dsimp only
    rw [List.append_assoc, lines_entry (by decide) (stands_string path) hassign,
      List.singleton_append, lines_blank]
    exact htables fuel

theorem length_tomlLines (c : Config) : 12 ≤ c.tomlLines.length := by
  have hname : "indexer".toList.length = 7 := rfl
  rw [tomlLines_eq, List.length_append, tableLines]
  simp only [List.length_cons, List.length_append, hname]
  omega

/-- The text of settings has no byte order mark. -/
theorem parse?_tomlLines (hcycles : c.analysis.maxCycles ≤ Toml.Scalar.maxInteger)
    (hdepth : c.analysis.blastRadiusDepth ≤ Toml.Scalar.maxInteger) :
    Toml.parse? (String.ofList c.tomlLines) = some c.entries := by
  obtain ⟨fuel, hfuel⟩ := Nat.exists_eq_add_of_le' (length_tomlLines c)
  have hmark : ∀ rest, c.tomlLines ≠ '\ufeff' :: rest := by
    intro rest heq
    rw [tomlLines_eq] at heq
    cases hdatabase : c.database with
    | none =>
      rw [hdatabase] at heq
      exact absurd (List.cons.inj heq).1 (by decide)
    | some path =>
      rw [hdatabase] at heq
      exact absurd (List.cons.inj heq).1 (by decide)
  dsimp only [Toml.parse?]
  rw [String.toList_ofList]
  split
  · rename_i heq
    exact absurd heq (hmark _)
  · rw [hfuel, lines_tomlLines hcycles hdepth]
    rfl

/-! ### The record of settings -/

theorem itemsToJson_strings (ss : List String) :
    Toml.itemsToJson (ss.map .string) = ss.map .string := by
  induction ss with
  | nil => rfl
  | cons s ss ih =>
    rw [List.map_cons, List.map_cons, Toml.itemsToJson, ih]
    rfl

theorem toList?_strings (ss : List String) :
    Json.toList? Json.toString? (Value.array (ss.map .string)).toJson = some ss := by
  have hmap : (ss.map Json.string).mapM Json.toString? = some ss := by
    induction ss with
    | nil => rfl
    | cons s ss ih =>
      rw [List.map_cons, List.mapM_cons, ih]
      rfl
  rw [Value.toJson, itemsToJson_strings]
  exact hmap

theorem toNat?_natural {n bound : Nat} (h : n ≤ bound) :
    Json.toNat? bound (Value.integer n).toJson = some n :=
  if_pos h

theorem indexerOfJson?_lines (o : IndexerOptions) :
    indexerOfJson? .ignored (Value.table .header ((indexerLines o).map Line.entry)).toJson =
      some o := by
  have hrecord : (Value.table .header ((indexerLines o).map Line.entry)).toJson.record? .ignored
      ["use_hash_check", "exclude"] = some [some (Value.bool o.useHashCheck).toJson,
        some (Value.array (o.exclude.map .string)).toJson] := rfl
  simp only [indexerOfJson?, hrecord, Option.bind_eq_bind, Option.bind_some, Json.withDefault,
    toList?_strings]
  rfl

theorem analysisOfJson?_lines {a : AnalysisConfig} (hcycles : a.maxCycles ≤ maxCount)
    (hdepth : a.blastRadiusDepth ≤ maxDepth) :
    analysisOfJson? .ignored (Value.table .header ((analysisLines a).map Line.entry)).toJson =
      some a := by
  have hrecord : (Value.table .header ((analysisLines a).map Line.entry)).toJson.record? .ignored
      ["max_cycles", "blast_radius_depth", "entry_points", "lifecycle_methods", "test_patterns"] =
        some [some (Value.integer a.maxCycles).toJson,
          some (Value.integer a.blastRadiusDepth).toJson,
          some (Value.array (a.entryPoints.map .string)).toJson,
          some (Value.array (a.lifecycleMethods.map .string)).toJson,
          some (Value.array (a.testPatterns.map .string)).toJson] := rfl
  simp only [analysisOfJson?, hrecord, Option.bind_eq_bind, Option.bind_some, Json.withDefault,
    toNat?_natural hcycles, toNat?_natural hdepth, toList?_strings]
  rfl

theorem ofJson?_entries (hcycles : c.analysis.maxCycles ≤ maxCount)
    (hdepth : c.analysis.blastRadiusDepth ≤ maxDepth) :
    ofJson? .ignored (Value.table .header c.entries).toJson = some c := by
  have hindexer := indexerOfJson?_lines c.indexer
  have hanalysis := analysisOfJson?_lines hcycles hdepth
  obtain ⟨database, indexer, analysis⟩ := c
  cases database <;>
  · show (indexerOfJson? .ignored
      (Value.table .header ((indexerLines indexer).map Line.entry)).toJson).bind _ = _
    rw [hindexer]
    show (analysisOfJson? .ignored
      (Value.table .header ((analysisLines analysis).map Line.entry)).toJson).bind _ = _
    rw [hanalysis]
    rfl

/-- The text of settings is read as the settings. -/
theorem ofToml?_toToml? {text : String} (hdepth : c.analysis.blastRadiusDepth ≤ maxDepth)
    (h : c.toToml? = some text) : ofToml? text = some c := by
  unfold toToml? at h
  split at h
  · rename_i hcycles
    obtain rfl := Option.some.inj h
    have hcount : Toml.Scalar.maxInteger ≤ maxCount := by decide
    have hmax : maxDepth ≤ Toml.Scalar.maxInteger := by decide
    rw [ofToml?, parse?_tomlLines hcycles (Nat.le_trans hdepth hmax)]
    exact ofJson?_entries (Nat.le_trans hcycles hcount) hdepth
  · cases h

/-! ### Files of settings -/

/-- Writes settings to a file of the disk that a command works on. -/
def saving (path : String) (c : Config) (force : Bool) : CommandLine.CommandM Unit :=
  CommandLine.CommandM.update fun disk => (save disk path c force).mapError .config

variable {disk disk' : Disk} {path : String} {force : Bool}

/-- Settings that were saved are loaded. -/
theorem load_of_save (hdepth : c.analysis.blastRadiusDepth ≤ maxDepth)
    (h : save disk path c force = .ok disk') : load disk' path = .ok (some c) := by
  unfold save at h
  split at h
  · cases h
  · split at h
    · cases h
    · rename_i text htext
      split at h
      · rename_i written hwrite
        obtain rfl := Except.ok.inj h
        obtain ⟨hpresent, hread⟩ := Disk.readText_of_write? hwrite
        rw [load, if_pos hpresent, hread]
        dsimp only
        rw [ofToml?_toToml? hdepth htext]
      · cases h

theorem save_of_present (hpresent : disk.isPresent path = true) :
    save disk path c false = .error (.alreadyThere path) := by
  rw [save, hpresent]
  rfl

theorem toToml?_eq_none (h : Toml.Scalar.maxInteger < c.analysis.maxCycles) : c.toToml? = none :=
  if_neg (Nat.not_le.mpr h)

theorem isPresent_of_load (h : load disk path = .ok (some c)) : disk.isPresent path = true := by
  unfold load at h
  split at h
  · assumption
  · cases h

/-- A number without room in the text makes saving fail, whatever is at the path. -/
theorem exists_fault_of_lt (h : Toml.Scalar.maxInteger < c.analysis.maxCycles) :
    ∃ fault, save disk path c force = .error fault := by
  unfold save
  rw [toToml?_eq_none h]
  split
  · exact ⟨_, rfl⟩
  · exact ⟨_, rfl⟩

theorem exists_save (hwritable : disk.Writable path)
    (hfree : disk.isPresent path = false ∨ force = true)
    (hcycles : c.analysis.maxCycles ≤ Toml.Scalar.maxInteger) :
    ∃ disk', save disk path c force = .ok disk' := by
  have hguard : (disk.isPresent path && !force) = false := by
    rcases hfree with hfree | rfl
    · rw [hfree, Bool.false_and]
    · rw [Bool.not_true, Bool.and_false]
  have htext : c.toToml? = some (String.ofList c.tomlLines) := if_pos hcycles
  obtain ⟨disk', hwrite⟩ :=
    Disk.write?_of_writable hwritable (String.ofList c.tomlLines).toUTF8
  refine ⟨disk', ?_⟩
  rw [save, hguard, if_neg Bool.false_ne_true, htext]
  dsimp only
  rw [hwrite]

theorem saving_of_fault {fault : Fault} (h : save disk path c force = .error fault) :
    (saving path c force).run.run disk = (.error (.config fault), disk) := by
  unfold saving CommandLine.CommandM.update
  simp only [ExceptT.run, ExceptT.mk, StateT.run, h, Except.mapError]

/-- **Settings are read as they were written**, whatever characters their texts have and however
long their lists are. Where a file can be written, and nothing is at the path or force is used,
saving succeeds if and only if the number of cycles fits in 64 bits with a sign. What was saved is
loaded. Saving over what is there without force fails, and so does saving a number that is too
large: the disk is then as it was. -/
theorem save_load (hdepth : c.analysis.blastRadiusDepth ≤ maxDepth) :
    (disk.Writable path → (disk.isPresent path = false ∨ force = true) →
      ((∃ disk', save disk path c force = .ok disk') ↔ c.analysis.maxCycles ≤ 2 ^ 63 - 1)) ∧
    (∀ disk', save disk path c force = .ok disk' → load disk' path = .ok (some c)) ∧
    (disk.isPresent path = true → force = false →
      (saving path c force).run.run disk = (.error (.config (.alreadyThere path)), disk)) ∧
    (2 ^ 63 - 1 < c.analysis.maxCycles →
      ∃ fault, (saving path c force).run.run disk = (.error (.config fault), disk)) := by
  have hmax : Toml.Scalar.maxInteger = 2 ^ 63 - 1 := rfl
  rw [← hmax]
  refine ⟨fun hwritable hfree => ⟨?_, exists_save hwritable hfree⟩,
    fun disk' => load_of_save hdepth, ?_, fun hlarge => ?_⟩
  · rintro ⟨disk', hsave⟩
    by_contra hlarge
    obtain ⟨fault, hfault⟩ := exists_fault_of_lt (Nat.not_le.mp hlarge)
    cases hsave.symm.trans hfault
  · rintro hpresent rfl
    exact saving_of_fault (save_of_present hpresent)
  · obtain ⟨fault, hfault⟩ := exists_fault_of_lt hlarge
    exact ⟨fault, saving_of_fault hfault⟩

/-- Settings in which texts have the characters that writing has to spell or quote. -/
def quotedSettings (maxCycles : Nat) : Config where
  database := some "it's \"C:\\graph.db\""
  indexer := { useHashCheck := false, exclude := ["'''\n\"\"\"\"\t\r\x00\x7f"] }
  analysis := {
    maxCycles
    blastRadiusDepth := 2 ^ 32 - 1
    entryPoints := []
    lifecycleMethods := ["a\\b", "\n", "c'd\"e"]
    testPatterns := [""] }

def emptyDirectory : Disk := ⟨.directory [("tmp", .directory [])], ⟨["tmp"]⟩⟩

theorem save_load_quotedSettings :
    (∃ disk', save emptyDirectory "codegraph.toml" (quotedSettings (2 ^ 63 - 1)) false = .ok disk' ∧
      load disk' "codegraph.toml" = .ok (some (quotedSettings (2 ^ 63 - 1))) ∧
      (saving "codegraph.toml" (quotedSettings 100) false).run.run disk' =
        (.error (.config (.alreadyThere "codegraph.toml")), disk')) ∧
    ∃ fault, (saving "codegraph.toml" (quotedSettings (2 ^ 63)) true).run.run emptyDirectory =
      (.error (.config fault), emptyDirectory) := by
  have hdepth : ∀ maxCycles, (quotedSettings maxCycles).analysis.blastRadiusDepth ≤ maxDepth :=
    fun _ => show 2 ^ 32 - 1 ≤ maxDepth by decide
  have hwritable : emptyDirectory.Writable "codegraph.toml" :=
    ⟨["tmp"], "codegraph.toml", by decide +kernel, nofun⟩
  have hfree : emptyDirectory.isPresent "codegraph.toml" = false := by decide +kernel
  constructor
  · obtain ⟨hsaves, hloads, -, -⟩ := save_load (hdepth (2 ^ 63 - 1))
    obtain ⟨disk', hsave⟩ := (hsaves hwritable (.inl hfree)).mpr (Nat.le_refl _)
    have hload := hloads disk' hsave
    obtain ⟨-, -, hpresent, -⟩ := save_load (hdepth 100)
    exact ⟨disk', hsave, hload, hpresent (isPresent_of_load hload) rfl⟩
  · obtain ⟨-, -, -, hlarge⟩ := save_load (hdepth (2 ^ 63))
    exact hlarge (by decide)

end CodeAtlas.Config
