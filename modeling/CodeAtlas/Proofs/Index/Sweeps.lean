import CodeAtlas.Proofs.Index.History
import CodeAtlas.Proofs.Index.Walk
import CodeAtlas.Proofs.Store.Reading

/-!
# Sweeps of a directory

One directory is swept again and again, while the files below it change. A sweep of a store that
shows some versions always succeeds, and the store then shows the versions that are worked out here:
a content that has no reason to be left aside comes to the end, and what lies below the directory
and was not found goes. If something is found in each file of the last tree, these are the versions
of that tree and no others, and all that remains of the past is their order.

* `Sweep`                        what is swept and how;
* `place`, `Sweep.step`          the versions in place after one file, and after a whole sweep;
* `Sweep.run_shows`              a sweep succeeds, and shows these;
* `Sweep.mapM_run_shows_order`   so does one sweep after another;
* `Sweep.Handles.mem_order`      what is in place in the end.
-/

namespace CodeAtlas

open StoreM

/-! ### The order of versions -/

/-- The versions in place after a content was indexed. With the check of hashes, one whose hash is
that of the version in place is passed over. -/
def place (check : Bool) (vs : List Version) (v : Version) : List Version :=
  if check && vs.any (fun u => u.filePath == v.filePath && u.hash == v.hash) then vs
  else Event.apply vs (.indexed v)

section

variable {check : Bool} {vs found : List Version} {v w : Version}

theorem place_nodup (h : (vs.map (·.filePath)).Nodup) (v : Version) :
    ((place check vs v).map (·.filePath)).Nodup := by
  rw [place]
  split
  · exact h
  · exact concat_nodup (forget_nodup h v.filePath) (filePath_notMem_forget v.filePath vs)

theorem foldl_place_nodup (h : (vs.map (·.filePath)).Nodup) (found : List Version) :
    ((found.foldl (place check) vs).map (·.filePath)).Nodup := by
  induction found generalizing vs with
  | nil => exact h
  | cons w found ih => exact ih (place_nodup h w)

theorem mem_of_mem_place (h : v ∈ place check vs w) : v = w ∨ v ∈ vs := by
  rw [place] at h
  split at h
  · exact .inr h
  · rcases List.mem_append.mp h with h | h
    · exact .inr (mem_forget.mp h).1
    · exact .inl (List.mem_singleton.mp h)

theorem mem_of_mem_foldl_place (h : v ∈ found.foldl (place check) vs) : v ∈ found ∨ v ∈ vs := by
  induction found generalizing vs with
  | nil => exact .inr h
  | cons w found ih =>
    rcases ih h with h | h
    · exact .inl (List.mem_cons_of_mem w h)
    · rcases mem_of_mem_place h with rfl | h
      · exact .inl List.mem_cons_self
      · exact .inr h

/-- A content takes the place of whatever its file had, if their hashes tell them apart. -/
theorem mem_place (h : (vs.map (·.filePath)).Nodup)
    (hhash : check = true → ∀ u ∈ vs, u.filePath = w.filePath → u.hash = w.hash → u = w) :
    v ∈ place check vs w ↔ v = w ∨ v ∈ vs ∧ v.filePath ≠ w.filePath := by
  rw [place]
  split
  · rename_i hkeep
    have hw : w ∈ vs := by
      rw [Bool.and_eq_true, List.any_eq_true] at hkeep
      obtain ⟨hcheck, u, hu, hsame⟩ := hkeep
      rw [Bool.and_eq_true, beq_iff_eq, beq_iff_eq] at hsame
      exact hhash hcheck u hu hsame.1 hsame.2 ▸ hu
    constructor
    · intro hv
      by_cases hpath : v.filePath = w.filePath
      · exact .inl (List.inj_on_of_nodup_map h hv hw hpath)
      · exact .inr ⟨hv, hpath⟩
    · rintro (rfl | ⟨hv, _⟩)
      · exact hw
      · exact hv
  · show v ∈ forget w.filePath vs ++ [w] ↔ _
    rw [List.mem_append, mem_forget, List.mem_singleton, or_comm]

theorem mem_foldl_place (h : (vs.map (·.filePath)).Nodup)
    (hfound : ∀ u ∈ found, ∀ w ∈ found, u.filePath = w.filePath → u = w)
    (hhash : check = true →
      ∀ w ∈ found, ∀ u ∈ vs, u.filePath = w.filePath → u.hash = w.hash → u = w) :
    v ∈ found.foldl (place check) vs ↔
      v ∈ found ∨ v ∈ vs ∧ v.filePath ∉ found.map (·.filePath) := by
  induction found generalizing vs with
  | nil => simp
  | cons w found ih =>
    have hw : w ∈ w :: found := List.mem_cons_self
    have hrest : ∀ u ∈ found, ∀ u' ∈ found, u.filePath = u'.filePath → u = u' :=
      fun u hu u' hu' => hfound u (List.mem_cons_of_mem w hu) u' (List.mem_cons_of_mem w hu')
    have hhash' : check = true → ∀ w' ∈ found, ∀ u ∈ place check vs w,
        u.filePath = w'.filePath → u.hash = w'.hash → u = w' := by
      intro hcheck w' hw' u hu hpath heq
      have hw' := List.mem_cons_of_mem w hw'
      rcases mem_of_mem_place hu with rfl | hu
      · exact hfound u hw w' hw' hpath
      · exact hhash hcheck w' hw' u hu hpath heq
    rw [List.foldl_cons, ih (place_nodup h w) hrest hhash',
      mem_place h fun hcheck => hhash hcheck w hw, List.map_cons, List.mem_cons, List.mem_cons, not_or]
    constructor
    · rintro (hv | ⟨rfl | ⟨hv, hne⟩, hnot⟩)
      · exact .inl (.inr hv)
      · exact .inl (.inl rfl)
      · exact .inr ⟨hv, hne, hnot⟩
    · rintro ((rfl | hv) | ⟨hv, hne, hnot⟩)
      · -- the file may be found once more, but then with the same content
        by_cases hin : v.filePath ∈ found.map (·.filePath)
        · obtain ⟨u, hu, hpath⟩ := List.mem_map.mp hin
          have huv := hfound u (List.mem_cons_of_mem v hu) v hw hpath
          exact .inl (huv ▸ hu)
        · exact .inr ⟨.inl rfl, hin⟩
      · exact .inl hv
      · exact .inr ⟨.inr ⟨hv, hne⟩, hnot⟩

theorem foldl_forget (paths : List String) (vs : List Version) :
    paths.foldl (fun vs path => forget path vs) vs =
      vs.filter fun v => !paths.contains v.filePath := by
  induction paths generalizing vs with
  | nil => simp
  | cons path paths ih =>
    rw [List.foldl_cons, ih, forget, List.filter_filter]
    congr 1
    funext v
    rw [List.contains_cons, Bool.not_or, Bool.and_comm]
    rfl

end

/-! ### Rows are read back -/

/-- A row of an entity is read back. -/
theorem EntityRow.exists_read {r : EntityRow} {e : NewEntity} (h : r.withoutId = e.rowWithoutId) :
    ∃ entity, r.read = .ok entity := by
  have hkind : r.kind = e.kind.name := congrArg EntityRow.kind h
  have hs : r.startLine = .integer e.startLine.toNat := congrArg EntityRow.startLine h
  have ht : r.endLine = .integer e.endLine.toNat := congrArg EntityRow.endLine h
  rw [read, hkind, EntityKind.parse?_name, hs, ht, Cell.line_integer, Cell.line_integer]
  exact ⟨_, rfl⟩

/-- Every row of a graph that reflects versions is read back. -/
theorem Reflects.exists_read {base : Path} {extractor : Extractor} {vs : List Version}
    {t : Tables} (h : Reflects base extractor vs t) {r : EntityRow} (hr : r ∈ t.entityRows) :
    ∃ entity, r.read = .ok entity := by
  obtain ⟨v, hv, hpath⟩ := List.mem_map.mp (h.files r hr)
  obtain ⟨x, hx⟩ := h.found v hv
  have hrows := h.rows v hv
  rw [Version.extraction_of_found hx] at hrows
  obtain ⟨found, hfound, rfl, _⟩ := Indexer.checked_eq_ok hx
  have hfile : r ∈ t.entityRows.filter (·.filePath == v.filePath) :=
    List.mem_filter.mpr ⟨hr, by simp [hpath]⟩
  have hrow := List.mem_map_of_mem (f := EntityRow.withoutId) hfile
  rw [hrows] at hrow
  obtain ⟨e, he, heq⟩ := List.mem_map.mp hrow
  obtain ⟨e', he', rfl⟩ := List.mem_map.mp he
  exact EntityRow.exists_read heq.symm

theorem Reflects.exists_byFile {base : Path} {extractor : Extractor} {vs : List Version}
    {t : Tables} (h : Reflects base extractor vs t) (filePath : String) :
    ∃ entities, Entities.byFile filePath t = .ok entities :=
  Entities.exists_byFile_of_read h.ready.entities_isSome fun _ hr _ =>
    h.exists_read hr

/-! ### Sweeps -/

/-- what is swept and how, with an extractor that keeps to its file -/
structure Sweep where
  base : Path
  plain : base.IsPlain
  extractor : Extractor
  staysInFile : extractor.StaysInFile base
  options : IndexerOptions
  root : String

namespace Sweep

variable {s : Sweep}

def disk (s : Sweep) (tree : Node) : Disk := ⟨tree, s.base⟩

def directory (s : Sweep) : Path := s.base.resolve s.root

/-- the files of a tree that are swept -/
def paths (s : Sweep) (tree : Node) : List Path :=
  discover (s.disk tree) s.directory s.options.exclude

/-- the version of a file, if the file can be read and something is found in it -/
def version? (s : Sweep) (tree : Node) (p : Path) : Option Version :=
  match (s.disk tree).readText p.text with
  | .error _ => none
  | .ok content =>
    if ((⟨p.text, content⟩ : Version).found s.base s.extractor).isOk then some ⟨p.text, content⟩
    else none

def versions (s : Sweep) (tree : Node) : List Version := (s.paths tree).filterMap (s.version? tree)

def run (s : Sweep) (tree : Node) : StoreM SyncReport :=
  Indexer.sync (s.disk tree) s.options s.extractor s.root

/-- the versions in place after a sweep of a tree -/
def step (s : Sweep) (vs : List Version) (tree : Node) : List Version :=
  ((s.versions tree).foldl (place s.options.useHashCheck) vs).filter fun v =>
    !s.directory.isBelow v.filePath || ((s.paths tree).map Path.text).contains v.filePath

/-- the versions in place after some trees were swept, in the order that this left -/
def order (s : Sweep) (trees : List Node) : List Version := trees.foldl s.step []

theorem filePath_of_version? {tree : Node} {p : Path} {v : Version}
    (h : s.version? tree p = some v) :
    v.filePath = p.text := by
  rw [version?] at h
  split at h
  · cases h
  · split at h
    · exact congrArg Version.filePath (Option.some.inj h).symm
    · cases h

/-! ### One sweep -/

variable {tree : Node} {vs : List Version} {db : Database}

theorem mem_paths (htree : tree.IsPlain) {p : Path} (hp : p ∈ s.paths tree) :
    p.IsPlain ∧ s.directory.isBelow p.text = true ∧ (Language.detect p.text).isSome = true :=
  mem_discover htree (Path.resolve_isPlain s.plain s.root) hp

/-- A content that is left aside changes nothing of the order. -/
theorem elim_version?_of_aside {p : Path} {content : String}
    (hread : (s.disk tree).readText p.text = .ok content)
    (hlanguage : (Language.detect p.text).isSome = true)
    (h : Aside s.base s.extractor s.options vs ⟨p.text, content⟩) :
    (s.version? tree p).elim vs (place s.options.useHashCheck vs) = vs := by
  simp only [version?, hread]
  split
  · rename_i hfound
    rcases h with hnone | ⟨hcheck, u, hu, hpath, hhash⟩ | ⟨e, he⟩
    · rw [show Language.detect p.text = none from hnone] at hlanguage
      cases hlanguage
    · have hany : vs.any (fun u => u.filePath == p.text &&
          u.hash == (⟨p.text, content⟩ : Version).hash) = true :=
        List.any_eq_true.mpr ⟨u, hu, by simp [hpath, hhash]⟩
      rw [Option.elim_some, place, hcheck, hany]
      rfl
    · rw [he] at hfound
      cases hfound
  · rfl

theorem elim_version?_of_not_aside {p : Path} {content : String}
    (hread : (s.disk tree).readText p.text = .ok content)
    (h : ¬ Aside s.base s.extractor s.options vs ⟨p.text, content⟩) :
    (s.version? tree p).elim vs (place s.options.useHashCheck vs) =
      Event.apply vs (.indexed ⟨p.text, content⟩) := by
  have hfound : ((⟨p.text, content⟩ : Version).found s.base s.extractor).isOk = true := by
    cases hx : (⟨p.text, content⟩ : Version).found s.base s.extractor with
    | ok x => rfl
    | error e => exact absurd (.failing e hx) h
  have hnew : ¬ (s.options.useHashCheck && vs.any fun u => u.filePath == p.text &&
      u.hash == (⟨p.text, content⟩ : Version).hash) = true := by
    rw [Bool.and_eq_true, List.any_eq_true]
    rintro ⟨hcheck, u, hu, hsame⟩
    rw [Bool.and_eq_true, beq_iff_eq, beq_iff_eq] at hsame
    exact h (.unchanged hcheck u hu hsame.1 hsame.2)
  simp only [version?, hread, hfound, if_true, Option.elim_some]
  rw [place, if_neg hnew]

/-- Indexing a file that is swept succeeds, and puts its version in place if there is one. -/
theorem indexFile_runOn (htree : tree.IsPlain) (hdb : db.Shows s.base s.extractor vs) {p : Path}
    (hp : p ∈ s.paths tree) :
    ∃ o after,
      (Indexer.indexFile (s.disk tree) s.options s.extractor p.text).runOn db = (.ok o, after) ∧
      o.filePath = p.text ∧
      after.Shows s.base s.extractor
        ((s.version? tree p).elim vs (place s.options.useHashCheck vs)) := by
  obtain ⟨hplain, _, hlanguage⟩ := mem_paths htree hp
  have hnormal : s.base.normalize p.text = p.text := Path.normalize_text hplain
  cases hread : (s.disk tree).readText p.text with
  | error fault =>
    have hnone : s.version? tree p = none := by
      simp only [version?, hread]
    have hindex : Indexer.indexFile (s.disk tree) s.options s.extractor p.text =
        pure (.failed (s.base.normalize p.text) none ("unreadable file: " ++ fault.message)) := by
      simp only [Indexer.indexFile, hread]
      rfl
    rw [hindex, hnone]
    exact ⟨_, db, rfl, hnormal, hdb⟩
  | ok content =>
    have hindex : Indexer.indexFile (s.disk tree) s.options s.extractor p.text =
        Indexer.indexContent s.base s.options s.extractor p.text content := by
      simp only [Indexer.indexFile, hread]
      show Indexer.indexContent s.base s.options s.extractor (s.base.normalize p.text) content = _
      rw [hnormal]
    have hcases := indexContent_cases s.staysInFile hdb s.options p.text content
    rw [hnormal] at hcases
    rw [hindex]
    rcases hcases with ⟨result, hrun, haside, hok, herror⟩ |
      ⟨o, after, hrun, hpath, _, hshows, hnot⟩
    · rw [elim_version?_of_aside hread hlanguage haside]
      obtain ⟨entities, hentities⟩ := hdb.graph.exists_byFile p.text
      cases result with
      | ok o => exact ⟨o, db, hrun, (hok o rfl).1, hdb⟩
      | error e =>
        -- the rows of the file are read back, so no call fails
        have hfail := herror e rfl
        rw [hentities] at hfail
        cases hfail
    · rw [elim_version?_of_not_aside hread hnot]
      exact ⟨o, after, hrun, hpath, hshows⟩

theorem mapM_indexFile_runOn (htree : tree.IsPlain) (hdb : db.Shows s.base s.extractor vs)
    (ps : List Path) (hps : ∀ p ∈ ps, p ∈ s.paths tree) :
    ∃ os after,
      (ps.mapM fun p => Indexer.indexFile (s.disk tree) s.options s.extractor p.text).runOn db =
        (.ok os, after) ∧
      os.map (·.filePath) = ps.map Path.text ∧
      after.Shows s.base s.extractor
        ((ps.filterMap (s.version? tree)).foldl (place s.options.useHashCheck) vs) := by
  induction ps generalizing db vs with
  | nil => exact ⟨[], db, rfl, rfl, hdb⟩
  | cons p ps ih =>
    obtain ⟨o, mid, hfirst, ho, hmid⟩ := indexFile_runOn htree hdb (hps p List.mem_cons_self)
    obtain ⟨os, after, hrest, hos, hafter⟩ := ih hmid fun q hq => hps q (List.mem_cons_of_mem p hq)
    refine ⟨o :: os, after, runOn_mapM_cons_ok hfirst hrest, ?_, ?_⟩
    · rw [List.map_cons, List.map_cons, ho, hos]
    · rw [List.filterMap_cons]
      cases hv : s.version? tree p with
      | none =>
        rw [hv] at hafter
        exact hafter
      | some v =>
        rw [hv] at hafter
        exact hafter

/-- A sweep succeeds, and what it leaves in place depends on the tree and on what was there. -/
theorem run_shows (htree : tree.IsPlain) (hdb : db.Shows s.base s.extractor vs) :
    ∃ report after, (s.run tree).runOn db = (.ok report, after) ∧
      after.Shows s.base s.extractor (s.step vs tree) := by
  obtain ⟨os, mid, hindex, hos, hmid⟩ :=
    mapM_indexFile_runOn htree hdb (s.paths tree) fun _ hp => hp
  obtain ⟨stale, hledgered, hstale⟩ := hmid.ledgered fun path =>
    s.directory.isBelow path && !(os.map (·.filePath)).contains path
  obtain ⟨ds, after, hremove, _, hafter⟩ := hmid.removeFiles stale
  refine ⟨⟨os, ds⟩, after, ?_, ?_⟩
  · have hrest : (Indexer.staleBelow s.directory (os.map (·.filePath))).runOn mid =
        (.ok stale, mid) := hledgered
    show (Indexer.sync (s.disk tree) s.options s.extractor s.root).runOn db = _
    exact (runOn_bind_ok hindex).trans ((runOn_bind_ok hrest).trans (runOn_bind_ok hremove))
  · rw [foldl_forget] at hafter
    have hsame : ((s.versions tree).foldl (place s.options.useHashCheck) vs).filter
        (fun v => !stale.contains v.filePath) = s.step vs tree := by
      refine List.filter_congr fun v hv => ?_
      have hgone : v.filePath ∈ stale ↔ s.directory.isBelow v.filePath = true ∧
          v.filePath ∉ (s.paths tree).map Path.text := by
        rw [hstale, hos, Bool.and_eq_true, Bool.not_eq_true', ← Bool.not_eq_true,
          List.contains_iff_mem]
        exact and_iff_right (List.mem_map_of_mem hv)
      rw [Bool.eq_iff_iff, Bool.not_eq_true', ← Bool.not_eq_true, List.contains_iff_mem, hgone,
        Bool.or_eq_true, Bool.not_eq_true', ← Bool.not_eq_true, List.contains_iff_mem, not_and_or,
        not_not]
    rw [← hsame]
    exact hafter

/-! ### One sweep after another -/

variable {trees : List Node} {last : Node}

theorem mapM_run_shows (htrees : ∀ tree ∈ trees, tree.IsPlain)
    (hdb : db.Shows s.base s.extractor vs) :
    ∃ reports after, (trees.mapM s.run).runOn db = (.ok reports, after) ∧
      after.Shows s.base s.extractor (trees.foldl s.step vs) := by
  induction trees generalizing db vs with
  | nil => exact ⟨[], db, rfl, hdb⟩
  | cons tree trees ih =>
    obtain ⟨report, mid, hfirst, hmid⟩ := run_shows (htrees tree List.mem_cons_self) hdb
    obtain ⟨reports, after, hrest, hafter⟩ :=
      ih (fun tree ht => htrees tree (List.mem_cons_of_mem _ ht)) hmid
    exact ⟨report :: reports, after, runOn_mapM_cons_ok hfirst hrest, hafter⟩

/-- Sweeps that start from an empty store show their order. -/
theorem mapM_run_shows_order (htrees : ∀ tree ∈ trees, tree.IsPlain) :
    ∃ reports after, (trees.mapM s.run).runOn (Database.opened true) = (.ok reports, after) ∧
      after.Shows s.base s.extractor (s.order trees) :=
  mapM_run_shows htrees (shows_opened s.base s.extractor)

theorem run_shows_order (htree : tree.IsPlain) :
    ∃ report after, (s.run tree).runOn (Database.opened true) = (.ok report, after) ∧
      after.Shows s.base s.extractor (s.order [tree]) := by
  rw [order, List.foldl_cons, List.foldl_nil]
  exact run_shows htree (shows_opened s.base s.extractor)

theorem order_concat (trees : List Node) (last : Node) :
    s.order (trees ++ [last]) = s.step (s.order trees) last := by
  rw [order, order, List.foldl_append, List.foldl_cons, List.foldl_nil]

theorem order_nodup (trees : List Node) : ((s.order trees).map (·.filePath)).Nodup := by
  have hfold : ∀ vs : List Version, (vs.map (·.filePath)).Nodup →
      ((trees.foldl s.step vs).map (·.filePath)).Nodup := by
    induction trees with
    | nil => exact fun _ h => h
    | cons tree trees ih =>
      exact fun vs h => ih _ ((List.filter_sublist.map _).nodup (foldl_place_nodup h _))
  exact hfold [] .nil

/-- What is in place lies below the directory. -/
theorem isBelow_of_mem_order (htrees : ∀ tree ∈ trees, tree.IsPlain) {v : Version}
    (hv : v ∈ s.order trees) : s.directory.isBelow v.filePath = true := by
  have hfold : ∀ vs : List Version, (∀ v ∈ vs, s.directory.isBelow v.filePath = true) →
      ∀ v ∈ trees.foldl s.step vs, s.directory.isBelow v.filePath = true := by
    clear hv
    induction trees with
    | nil => exact fun _ h => h
    | cons tree trees ih =>
      intro vs h
      refine ih (fun tree ht => htrees tree (List.mem_cons_of_mem _ ht)) (s.step vs tree) ?_
      intro v hv
      rcases mem_of_mem_foldl_place (List.mem_filter.mp hv).1 with hv | hv
      · obtain ⟨p, hp, hversion⟩ := List.mem_filterMap.mp hv
        rw [filePath_of_version? hversion]
        exact (mem_paths (htrees tree List.mem_cons_self) hp).2.1
      · exact h v hv
  exact hfold [] (fun _ h => absurd h List.not_mem_nil) v hv

/-- In one tree a file has one content. -/
theorem eq_of_mem_versions {v w : Version} (hv : v ∈ s.versions tree) (hw : w ∈ s.versions tree)
    (hpath : v.filePath = w.filePath) : v = w := by
  obtain ⟨p, _, hp⟩ := List.mem_filterMap.mp hv
  obtain ⟨q, _, hq⟩ := List.mem_filterMap.mp hw
  have htext : p.text = q.text :=
    (filePath_of_version? hp).symm.trans (hpath.trans (filePath_of_version? hq))
  have hsame : s.version? tree p = s.version? tree q := by
    simp only [version?, htext]
  rw [hsame, hq] at hp
  exact (Option.some.inj hp).symm

/-- Every file that is swept in the last tree can be read and something is found in it, and, if
hashes are checked, its content has not the hash of another one that is in place. -/
structure Handles (s : Sweep) (trees : List Node) (last : Node) : Prop where
  plain : ∀ tree ∈ trees ++ [last], tree.IsPlain
  found : ∀ p ∈ s.paths last, (s.version? last p).isSome = true
  hashes : s.options.useHashCheck = true →
    ∀ v ∈ s.versions last, ∀ u ∈ s.order trees, u.filePath = v.filePath → u.hash = v.hash → u = v

namespace Handles

theorem fresh (h : s.Handles trees last) : s.Handles [] last where
  plain tree htree := h.plain tree (List.mem_append_right trees htree)
  found := h.found
  hashes _ _ _ _ hu := absurd hu List.not_mem_nil

/-- Of all that was swept, the last tree is in place, and nothing else. -/
theorem mem_order (h : s.Handles trees last) {v : Version} :
    v ∈ s.order (trees ++ [last]) ↔ v ∈ s.versions last := by
  have hpaths : v.filePath ∈ (s.paths last).map Path.text →
      v.filePath ∈ (s.versions last).map (·.filePath) := by
    intro hin
    obtain ⟨p, hp, htext⟩ := List.mem_map.mp hin
    obtain ⟨w, hw⟩ := Option.isSome_iff_exists.mp (h.found p hp)
    exact List.mem_map.mpr
      ⟨w, List.mem_filterMap.mpr ⟨p, hp, hw⟩, (filePath_of_version? hw).trans htext⟩
  have hplaced := mem_foldl_place (v := v) (order_nodup trees)
    (fun u hu w hw => eq_of_mem_versions hu hw) h.hashes
  rw [order_concat, step, List.mem_filter, hplaced, Bool.or_eq_true, Bool.not_eq_true',
    List.contains_iff_mem]
  constructor
  · rintro ⟨hv | ⟨hv, hnot⟩, hbelow | hin⟩
    · exact hv
    · exact hv
    · have htrees : ∀ tree ∈ trees, tree.IsPlain := fun tree ht =>
        h.plain tree (List.mem_append_left _ ht)
      rw [isBelow_of_mem_order htrees hv] at hbelow
      cases hbelow
    · exact absurd (hpaths hin) hnot
  · intro hv
    obtain ⟨p, hp, hversion⟩ := List.mem_filterMap.mp hv
    exact ⟨.inl hv, .inr (List.mem_map.mpr ⟨p, hp, (filePath_of_version? hversion).symm⟩)⟩

end Handles

end Sweep

end CodeAtlas
