import CodeAtlas.Proofs.Atomicity
import CodeAtlas.Proofs.Index.SyncExact
import CodeAtlas.Proofs.Pattern.Ignore

/-!
# What a sweep never finds

The built-in rules and those given from outside come after the rules of the root's own ignore files,
so nothing in a repository can bring back what they exclude. A walk asks the filter about every
directory that it enters, so neither can a rule about a file further down.

* `IgnoreFilter.Passes`            the filter lets a path and all directories on the way through;
* `Kept`                           nothing that is excluded lies on the way to a path;
* `passes_of_mem_discover`         what is discovered has passed;
* `Indexer.excludes_hold`          sweeps neither find, index nor keep what is excluded.
-/

namespace CodeAtlas

open StoreM

/-- the directories that no sweep enters -/
def builtInDirectories : List String :=
  ["target", "node_modules", "venv", ".venv", "vendor", "dist", "build", "out", "coverage",
    "__pycache__", ".git", ".codegraph", ".vscode", ".idea"]

/-- No built-in rule and no rule from outside matches what stands at some components below the root
of a sweep, or a directory on the way to it. -/
structure Kept (excludes : List String) (below : List String) : Prop where
  rules : ∀ line ∈ builtInExcludes ++ excludes, ∀ r, Ignore.Rule.ofString? line = some r →
    ¬ r.Covers below
  directories : ∀ name ∈ builtInDirectories, name ∉ below.dropLast

/-- none of the lines keeps what it matches -/
def NoneNegated (excludes : List String) : Prop :=
  ∀ line ∈ excludes, line.toList.head? ≠ some '!'

/-! ### Walks -/

namespace IgnoreFilter

/-- A filter lets through what stands at some components below a directory, and every directory on
the way to it. -/
def Passes (f : IgnoreFilter) (path below : List String) : Prop :=
  ∀ taken left, below = taken ++ left → taken ≠ [] →
    f.ignores ⟨path ++ taken⟩ (!left.isEmpty) = false

variable {f : IgnoreFilter} {path below : List String} {name : String}

theorem Passes.nil (f : IgnoreFilter) (path : List String) : f.Passes path [] := fun _ _ h hne =>
  absurd (List.append_eq_nil_iff.mp h.symm).1 hne

theorem Passes.cons (hname : f.ignores ⟨path ++ [name]⟩ (!below.isEmpty) = false)
    (hbelow : f.Passes (path ++ [name]) below) : f.Passes path (name :: below) := by
  intro taken left hsplit hne
  cases taken with
  | nil => exact absurd rfl hne
  | cons first taken =>
    obtain ⟨hfirst, hrest⟩ := List.cons.inj hsplit
    subst hfirst
    cases taken with
    | nil =>
      have hleft : below = left := hrest
      exact hleft ▸ hname
    | cons second taken =>
      have hpasses := hbelow (second :: taken) left hrest (List.cons_ne_nil _ _)
      rwa [List.append_assoc] at hpasses

end IgnoreFilter

theorem ignores_of_admits {filter : IgnoreFilter} {scopes : List Scope} {path : List String}
    {name : String} {isDirectory : Bool} (h : admits filter scopes path name isDirectory = true) :
    filter.ignores ⟨path ++ [name]⟩ isDirectory = false := by
  have hfilter := (Bool.and_eq_true_iff.mp h).2
  rwa [Bool.not_eq_true'] at hfilter

mutual

/-- A walk asks its filter about every directory before it enters it. -/
theorem passes_of_mem_walkEntry {filter : IgnoreFilter} : (node : Node) →
    ∀ {scopes : List Scope} {path : List String} {name : String},
      ∀ p ∈ walkEntry filter scopes path name node,
        ∃ below, below ≠ [] ∧ p.components = path ++ below ∧ filter.Passes path below
  | .file _, scopes, path, name, p, hp => by
    rw [walkEntry] at hp
    split at hp
    · rename_i hadmits
      rw [List.mem_singleton.mp hp]
      exact ⟨[name], List.cons_ne_nil _ _, rfl, .cons (ignores_of_admits hadmits) (.nil _ _)⟩
    · cases hp
  | .directory entries, scopes, path, name, p, hp => by
    rw [walkEntry] at hp
    split at hp
    · rename_i hadmits
      obtain ⟨below, hne, hcomponents, hpasses⟩ := passes_of_mem_walkEntries entries p hp
      have hdirectory : (!below.isEmpty) = true := by
        rw [Bool.not_eq_true', List.isEmpty_eq_false_iff]
        exact hne
      refine ⟨name :: below, List.cons_ne_nil _ _, ?_, .cons ?_ hpasses⟩
      · rw [hcomponents, List.append_assoc]
        rfl
      · rw [hdirectory]
        exact ignores_of_admits hadmits
    · cases hp

theorem passes_of_mem_walkEntries {filter : IgnoreFilter} : (entries : List (String × Node)) →
    ∀ {scopes : List Scope} {path : List String},
      ∀ p ∈ walkEntries filter scopes path entries,
        ∃ below, below ≠ [] ∧ p.components = path ++ below ∧ filter.Passes path below
  | [], scopes, path, p, hp => by
    rw [walkEntries] at hp
    cases hp
  | (name, node) :: rest, scopes, path, p, hp => by
    rw [walkEntries] at hp
    rcases List.mem_append.mp hp with hp | hp
    · exact passes_of_mem_walkEntry node p hp
    · exact passes_of_mem_walkEntries rest p hp

end

/-- A root that is a file is found as it is; there is nothing below it. -/
theorem passes_of_mem_discover {disk : Disk} {root p : Path} {excludes : List String}
    (hp : p ∈ discover disk root excludes) :
    ∃ below, p.components = root.components ++ below ∧
      (IgnoreFilter.make disk root excludes).Passes root.components below := by
  have hwalk := (List.mem_filter.mp hp).1
  rw [walk] at hwalk
  split at hwalk
  · cases hwalk
  · rw [List.mem_singleton.mp hwalk]
    exact ⟨[], (List.append_nil _).symm, .nil _ _⟩
  · rename_i entries _
    obtain ⟨below, -, hcomponents, hpasses⟩ := passes_of_mem_walkEntries entries p hwalk
    exact ⟨below, hcomponents, hpasses⟩

/-! ### The filter of a root -/

theorem builtInExcludes_noneNegated : NoneNegated builtInExcludes := by
  unfold NoneNegated builtInExcludes
  decide

/-- What a rule matches that comes after those of the ignore files is ignored. -/
theorem ignores_of_matches {disk : Disk} {root : Path} {excludes : List String}
    (hexcludes : NoneNegated excludes) {line : String} (hline : line ∈ builtInExcludes ++ excludes)
    {r : Ignore.Rule} (hr : Ignore.Rule.ofString? line = some r) {taken : List String}
    (hne : taken ≠ []) {isDirectory : Bool} (hmatches : r.Matches taken isDirectory) :
    (IgnoreFilter.make disk root excludes).ignores ⟨root.components ++ taken⟩ isDirectory =
      true := by
  have hkeeps : ∀ r ∈ (builtInExcludes ++ excludes).filterMap Ignore.Rule.ofString?,
      r.keeps = false := by
    intro r hr
    obtain ⟨line, hline, hr⟩ := List.mem_filterMap.mp hr
    refine Ignore.keeps_of_line ?_ hr
    rcases List.mem_append.mp hline with hline | hline
    · exact builtInExcludes_noneNegated line hline
    · exact hexcludes line hline
  have hverdict : Ignore.verdict (IgnoreFilter.make disk root excludes).rules (Ignore.pathOf taken)
      isDirectory = .ignore := by
    rw [IgnoreFilter.make, List.append_assoc, ← List.filterMap_append]
    exact Ignore.verdict_eq_ignore hkeeps ⟨r, List.mem_filterMap.mpr ⟨line, hline, hr⟩, hmatches⟩
  obtain ⟨name, above, hreverse⟩ := List.exists_cons_of_ne_nil (List.reverse_ne_nil_iff.mpr hne)
  have htaken : (name :: above).reverse = taken := by rw [← hreverse, List.reverse_reverse]
  show (Ignore.verdictUp (IgnoreFilter.make disk root excludes).rules isDirectory
    ((root.components ++ taken).drop root.components.length).reverse == .ignore) = true
  rw [List.drop_left, hreverse, Ignore.verdictUp, htaken, hverdict]
  rfl

/-- Each built-in directory has a rule of its own, which is its name. -/
theorem exists_rule_of_directory {name : String} (h : name ∈ builtInDirectories) :
    name ≠ "" ∧ name.toList.getLast? ≠ some '.' ∧ name ++ "/" ∈ builtInExcludes ∧
      Ignore.Rule.ofString? (name ++ "/") =
        some ⟨false, true, .leading :: Glob.literals name.toList⟩ := by
  simp only [builtInDirectories, List.mem_cons, List.not_mem_nil, or_false] at h
  rcases h with rfl | rfl | rfl | rfl | rfl | rfl | rfl | rfl | rfl | rfl | rfl | rfl | rfl | rfl <;>
    exact ⟨by decide, by decide, by decide, rfl⟩

theorem kept_of_passes {disk : Disk} {root : Path} {excludes below : List String}
    (hexcludes : NoneNegated excludes)
    (h : (IgnoreFilter.make disk root excludes).Passes root.components below) :
    Kept excludes below := by
  have hrules : ∀ line ∈ builtInExcludes ++ excludes, ∀ r,
      Ignore.Rule.ofString? line = some r → ¬ r.Covers below := by
    rintro line hline r hr ⟨taken, left, hsplit, hne, hmatches⟩
    have hpasses := h taken left hsplit hne
    rw [ignores_of_matches hexcludes hline hr hne hmatches] at hpasses
    cases hpasses
  refine ⟨hrules, fun name hname hmem => ?_⟩
  obtain ⟨hne, hdot, hline, hrule⟩ := exists_rule_of_directory hname
  exact hrules _ (List.mem_append_left _ hline) _ hrule (Ignore.covers_of_name hne hdot rfl hmem)

theorem kept_of_mem_discover {disk : Disk} {root p : Path} {excludes : List String}
    (hexcludes : NoneNegated excludes) (hp : p ∈ discover disk root excludes) :
    ∃ below, p.components = root.components ++ below ∧ Kept excludes below := by
  obtain ⟨below, hcomponents, hpasses⟩ := passes_of_mem_discover hp
  exact ⟨below, hcomponents, kept_of_passes hexcludes hpasses⟩

/-! ### Sweeps -/

namespace Indexer

variable {db after : Database} {disk : Disk} {options : IndexerOptions} {extractor : Extractor}
  {root : String}

/-- Indexing files adds no other ones to the ledger. -/
theorem ledgered_of_mapM_indexFile {ps : List Path} {os : List IndexOutcome}
    (hbase : disk.base.IsPlain) (hplain : ∀ p ∈ ps, p.IsPlain)
    (h : (ps.mapM fun p => indexFile disk options extractor p.text).runOn db = (.ok os, after)) :
    os.map (·.filePath) = ps.map Path.text ∧
      ∀ path, after.tables.Ledgered path → db.tables.Ledgered path ∨ path ∈ ps.map Path.text := by
  induction ps generalizing db os with
  | nil =>
    rw [List.mapM_nil, runOn_pure] at h
    cases h
    exact ⟨rfl, fun _ => .inl⟩
  | cons p ps ih =>
    obtain ⟨o, mid, rest, hfirst, hrest, rfl⟩ := runOn_mapM_cons_eq_ok h
    obtain ⟨hpath, hothers⟩ := indexFile_agreeOn hbase hfirst
    obtain ⟨hpaths, hledgered⟩ := ih (fun q hq => hplain q (List.mem_cons_of_mem _ hq)) hrest
    rw [Path.normalize_text (hplain p List.mem_cons_self)] at hpath hothers
    refine ⟨by rw [List.map_cons, List.map_cons, hpath, hpaths], fun path hmem => ?_⟩
    rw [List.map_cons, List.mem_cons]
    rcases hledgered path hmem with hmid | hmem
    · by_cases hne : path = p.text
      · exact .inr (.inl hne)
      · exact .inl ((hothers.on (bne_iff_ne.mpr hne)).ledgered_iff.mp hmid)
    · exact .inr (.inr hmem)

/-- what no sweep of a root finds, indexes or keeps, whatever the ignore files of the root say -/
structure ExcludesHold (disk : Disk) (options : IndexerOptions) (root : String) : Prop where
  found : ∀ p ∈ discover disk (disk.base.resolve root) options.exclude,
    ∃ below, p.components = (disk.base.resolve root).components ++ below ∧
      Kept options.exclude below
  /-- What `prune` leaves in the ledger below the root is not excluded. -/
  pruned : ∀ db after ds, (prune disk options root).runOn db = (.ok ds, after) →
    ∀ path, after.tables.Ledgered path → (disk.base.resolve root).isBelow path = true →
      ∃ below, Path.componentsOf path = (disk.base.resolve root).components ++ below ∧
        Kept options.exclude below
  /-- Nor is what `sync` puts into the ledger, even if it fails, -/
  indexed : ∀ extractor db result after,
    (sync disk options extractor root).runOn db = (result, after) →
    ∀ path, after.tables.Ledgered path → ¬ db.tables.Ledgered path →
      ∃ below, Path.componentsOf path = (disk.base.resolve root).components ++ below ∧
        Kept options.exclude below
  /-- what it gives an outcome for, -/
  outcomes : ∀ extractor db report after,
    (sync disk options extractor root).runOn db = (.ok report, after) →
    ∀ o ∈ report.outcomes,
      ∃ below, Path.componentsOf o.filePath = (disk.base.resolve root).components ++ below ∧
        Kept options.exclude below
  /-- and what it leaves in the ledger below the root. -/
  synced : ∀ extractor db report after,
    (sync disk options extractor root).runOn db = (.ok report, after) →
    ∀ path, after.tables.Ledgered path → (disk.base.resolve root).isBelow path = true →
      ∃ below, Path.componentsOf path = (disk.base.resolve root).components ++ below ∧
        Kept options.exclude below

/-- A file below the root is left in the ledger only if it is among the present ones. -/
theorem mem_of_ledgered_of_removed {directory : Path} {present stale : List String}
    {mid last : Database} {ds : List DeletionRecord}
    (hstale : (staleBelow directory present).runOn mid = (.ok stale, last))
    (hremove : (removeFiles stale).runOn last = (.ok ds, after)) {path : String}
    (h : after.tables.Ledgered path) (hbelow : directory.isBelow path = true) :
    path ∈ present := by
  obtain ⟨rfl, hmem, -⟩ := ledgered_eq_ok hstale
  obtain ⟨hmid, hnot⟩ := (ledgered_of_removed (removeFiles_eq_ok hremove).1).mp h
  by_contra hpresent
  refine hnot ((hmem path).mpr ⟨hmid, ?_⟩)
  rw [hbelow, Bool.true_and]
  exact not_contains hpresent

/-- What a sweep puts into the ledger, whether it fails or not, is among the files that it finds. -/
theorem mem_discover_of_ledgered_of_sync (hbase : disk.base.IsPlain)
    (hplain : ∀ p ∈ discover disk (disk.base.resolve root) options.exclude, p.IsPlain)
    {result : Except Error SyncReport}
    (hrun : (sync disk options extractor root).runOn db = (result, after)) {path : String}
    (h : after.tables.Ledgered path) (hnew : ¬ db.tables.Ledgered path) :
    path ∈ (discover disk (disk.base.resolve root) options.exclude).map Path.text := by
  cases result with
  | error e =>
    -- what was done before the failure are some of the files
    obtain ⟨k, os, mid, hindex, hsame⟩ := sync_error hrun
    obtain ⟨-, hledgered⟩ := ledgered_of_mapM_indexFile hbase
      (fun p hp => hplain p (List.mem_of_mem_take hp)) hindex
    have hmid : mid.tables.Ledgered path := hsame.tables ▸ h
    have hmem := (hledgered path hmid).resolve_left hnew
    rw [List.map_take] at hmem
    exact List.mem_of_mem_take hmem
  | ok report =>
    obtain ⟨mid, stale, last, hindex, hstale, hremove⟩ := sync_eq_ok hrun
    obtain ⟨-, hledgered⟩ := ledgered_of_mapM_indexFile hbase hplain hindex
    obtain ⟨rfl, -, -⟩ := ledgered_eq_ok hstale
    have hmid := ((ledgered_of_removed (removeFiles_eq_ok hremove).1).mp h).1
    exact (hledgered path hmid).resolve_left hnew

/-- **Excludes hold.** On every disk, whatever the ignore files of the root say, no file is
discovered that a built-in rule or a rule from outside matches, itself or in a directory on the way
to it, if none of the latter keeps what it matches. So `sync` neither indexes nor keeps such a file,
and `prune` keeps none; in particular none lies in a directory like `node_modules`, at any depth. -/
theorem excludes_hold (hexcludes : NoneNegated options.exclude) (hbase : disk.base.IsPlain)
    (htree : disk.root.IsPlain) (root : String) : ExcludesHold disk options root := by
  have hplain : ∀ p ∈ discover disk (disk.base.resolve root) options.exclude, p.IsPlain :=
    fun p hp => (mem_discover htree (Path.resolve_isPlain hbase root) hp).1
  have hkept : ∀ path ∈ (discover disk (disk.base.resolve root) options.exclude).map Path.text,
      ∃ below, Path.componentsOf path = (disk.base.resolve root).components ++ below ∧
        Kept options.exclude below := by
    intro path hpath
    obtain ⟨p, hp, rfl⟩ := List.mem_map.mp hpath
    rw [Path.componentsOf_text (hplain p hp)]
    exact kept_of_mem_discover hexcludes hp
  refine ⟨fun p hp => kept_of_mem_discover hexcludes hp, ?pruned, ?indexed, ?outcomes, ?synced⟩
  case pruned =>
    intro db after ds hrun path hpath hbelow
    obtain ⟨stale, mid, hstale, hremove⟩ := runOn_bind_eq_ok.mp hrun
    exact hkept path (mem_of_ledgered_of_removed hstale hremove hpath hbelow)
  case indexed =>
    intro extractor db result after hrun path hpath hnew
    exact hkept path (mem_discover_of_ledgered_of_sync hbase hplain hrun hpath hnew)
  case outcomes =>
    intro extractor db report after hrun o ho
    obtain ⟨mid, stale, last, hindex, -, -⟩ := sync_eq_ok hrun
    obtain ⟨hpaths, -⟩ := ledgered_of_mapM_indexFile hbase hplain hindex
    exact hkept o.filePath (hpaths ▸ List.mem_map_of_mem ho)
  case synced =>
    intro extractor db report after hrun path hpath hbelow
    obtain ⟨mid, stale, last, hindex, hstale, hremove⟩ := sync_eq_ok hrun
    obtain ⟨hpaths, -⟩ := ledgered_of_mapM_indexFile hbase hplain hindex
    have hmem := mem_of_ledgered_of_removed hstale hremove hpath hbelow
    exact hkept path (hpaths ▸ hmem)

/-- a repository whose ignore files ask for what is excluded -/
def askingTree : Node :=
  .directory [
    (".gitignore", .file "!node_modules/\n!x.min.js\n!*\n".toUTF8),
    (".ignore", .file "!target/\n!generated/\n".toUTF8),
    ("lib", .directory [("node_modules", .directory [("y.ts", .file ⟨#[]⟩)]),
      ("x.min.js", .file ⟨#[]⟩)]),
    ("src", .directory [("a.ts", .file ⟨#[]⟩), ("generated", .directory [("b.ts", .file ⟨#[]⟩)])]),
    ("target", .directory [("c.ts", .file ⟨#[]⟩)])]

theorem askingTree_isPlain : askingTree.IsPlain := by
  have hname : ∀ name ∈ [".gitignore", ".ignore", "lib", "node_modules", "y.ts", "x.min.js", "src",
      "a.ts", "generated", "b.ts", "target", "c.ts"], Path.IsPlainName name := by
    intro name h
    simp only [List.mem_cons, List.not_mem_nil, or_false] at h
    rcases h with rfl | rfl | rfl | rfl | rfl | rfl | rfl | rfl | rfl | rfl | rfl | rfl <;>
      exact ⟨by decide, by decide, by decide, by decide⟩
  simp [askingTree, Node.IsPlain, entriesPlain, hname]

/-- Of the files of the repository only one is found that nothing excludes. -/
theorem excludes_hold_asking :
    NoneNegated ["generated/"] ∧ (⟨[]⟩ : Path).IsPlain ∧ askingTree.IsPlain ∧
      discover ⟨askingTree, ⟨[]⟩⟩ ⟨[]⟩ ["generated/"] = [⟨["src", "a.ts"]⟩] ∧
      ExcludesHold ⟨askingTree, ⟨[]⟩⟩ { exclude := ["generated/"] } "/" := by
  have hexcludes : NoneNegated ["generated/"] := by
    unfold NoneNegated
    decide
  have hbase : (⟨[]⟩ : Path).IsPlain := fun _ h => absurd h List.not_mem_nil
  exact ⟨hexcludes, hbase, askingTree_isPlain, by decide +kernel,
    excludes_hold hexcludes hbase askingTree_isPlain "/"⟩

end Indexer

end CodeAtlas
