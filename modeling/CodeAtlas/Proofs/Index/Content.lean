import CodeAtlas.Index.Indexer
import CodeAtlas.Proofs.Store.Runs

/-!
# What a content says about a file

The part of indexing that does not depend on the store: the extraction of a content, bound to its
file and checked. Indexing a file then has three outcomes, and writes in one of them only.

* `Indexer.checked`         the extraction that is stored for a content, or why there is none;
* `Indexer.indexKnown_eq`   indexing in terms of these;
* `indexKnown_of_unchanged`, `indexKnown_of_failing`, `indexKnown_of_found`   its three outcomes;
* `Indexer.Carries`         properties that indexing has because replacing a file has them.
-/

namespace CodeAtlas.Indexer

variable {base : Path} {options : IndexerOptions} {extractor : Extractor}

/-- the extraction that is stored for a content of a file -/
def checked (base : Path) (extractor : Extractor) (filePath content language : String) :
    Except Error Extraction :=
  match extractor filePath content language with
  | .error e => .error e
  | .ok found =>
    match (found.anchor base filePath).entities.forM NewEntity.validate with
    | .error e => .error e
    | .ok () => .ok (found.anchor base filePath)

theorem checked_eq_ok {filePath content language : String} {x : Extraction}
    (h : checked base extractor filePath content language = .ok x) :
    ∃ found, extractor filePath content language = .ok found ∧ x = found.anchor base filePath ∧
      x.entities.forM NewEntity.validate = .ok () := by
  unfold checked at h
  cases hx : extractor filePath content language with
  | error e =>
    rw [hx] at h
    cases h
  | ok found =>
    rw [hx] at h
    cases hv : (found.anchor base filePath).entities.forM NewEntity.validate with
    | error e =>
      simp only [hv] at h
      cases h
    | ok _ =>
      simp only [hv] at h
      cases h
      exact ⟨found, rfl, rfl, hv⟩

/-- whether the ledger already has a content -/
def isUnchanged (options : IndexerOptions) (previous : Option FileRecord) (content : String) :
    Bool :=
  options.useHashCheck && previous.any (·.contentHash == Blake3.hash content.toUTF8)

theorem isUnchanged_eq_true {previous : Option FileRecord} {content : String} :
    isUnchanged options previous content = true ↔
      options.useHashCheck = true ∧
        ∃ r, previous = some r ∧ r.contentHash = Blake3.hash content.toUTF8 := by
  rw [isUnchanged, Bool.and_eq_true]
  cases previous with
  | none => simp
  | some r => simp

/-- what is done as a whole when a file is replaced -/
def replaceBody (filePath hash language : String) (known : Bool) (x : Extraction) :
    StoreM ResolutionReport := do
  if known then discard (Entities.deleteByFile filePath)
  let report ← Resolver.resolve x.entities x.relationships
  discard (FileLedger.upsert filePath hash language)
  return report

theorem replace_eq (filePath hash language : String) (known : Bool) (x : Extraction) :
    replace filePath hash language known x =
      StoreM.mapError (Error.inTransaction ("index " ++ filePath))
        (StoreM.transaction (replaceBody filePath hash language known x)) := rfl

/-- A body that succeeds: what is left of the store when the known file is cleared, what the resolver
makes of that, and the record. -/
theorem replaceBody_runOn_of_steps {filePath hash language : String} {known : Bool}
    {x : Extraction} {db cleared resolved after : Database} {report : ResolutionReport}
    {record : FileRecord}
    (hclear : if known then ∃ n, (Entities.deleteByFile filePath).runOn db = (.ok n, cleared)
      else cleared = db)
    (hresolve : (Resolver.resolve x.entities x.relationships).runOn cleared =
      (.ok report, resolved))
    (hrecord : (FileLedger.upsert filePath hash language).runOn resolved = (.ok record, after)) :
    (replaceBody filePath hash language known x).runOn db = (.ok report, after) := by
  have hrest := StoreM.runOn_bind_ok (f := fun report => do
      discard (FileLedger.upsert filePath hash language)
      return report) hresolve
  rw [StoreM.runOn_bind_ok (StoreM.runOn_discard_ok hrecord), StoreM.runOn_pure] at hrest
  cases known with
  | true =>
    obtain ⟨n, hdelete⟩ := hclear
    exact (StoreM.runOn_bind_ok (StoreM.runOn_discard_ok hdelete)).trans hrest
  | false =>
    obtain rfl := hclear
    exact hrest

theorem indexKnown_eq (filePath content language : String) :
    indexKnown base options extractor filePath content language = (do
      let previous ← StoreM.query (FileLedger.find? filePath)
      if isUnchanged options previous content then
        let entities ← StoreM.query (Entities.byFile filePath)
        return { filePath, action := .skipped, language := some language, entities }
      else
        match checked base extractor filePath content language with
        | .error e => return .failed filePath (some language) e.message
        | .ok x =>
          let report ← replace filePath (Blake3.hash content.toUTF8) language previous.isSome x
          return {
            filePath
            action := if previous.isSome then .updated else .created
            language := some language
            entities := report.entities
            relationshipsCreated := report.relationships.length
            relationshipsDropped := report.dropped }) := by
  unfold indexKnown checked isUnchanged
  refine bind_congr fun previous => ?_
  split
  · rfl
  · cases extractor filePath content language with
    | error e => rfl
    | ok found =>
      cases h : (found.anchor base filePath).entities.forM NewEntity.validate with
      | error e => simp only [h]
      | ok _ => simp only [h]

/-! ### The three outcomes -/

section

variable {filePath content language : String} {previous : Option FileRecord} {db after : Database}

/-- A known content is skipped: its entities are read, and nothing is written. -/
theorem indexKnown_of_unchanged (hprevious : FileLedger.find? filePath db.tables = .ok previous)
    (h : isUnchanged options previous content = true) :
    (indexKnown base options extractor filePath content language).runOn db =
      ((Entities.byFile filePath db.tables).map fun entities =>
        { filePath, action := .skipped, language := some language, entities }, db) := by
  rw [indexKnown_eq, StoreM.runOn_bind_ok (StoreM.runOn_query_ok hprevious), if_pos h,
    StoreM.runOn_bind, StoreM.runOn_query]
  cases Entities.byFile filePath db.tables <;> rfl

/-- A content in which nothing can be found is reported, and nothing is written. -/
theorem indexKnown_of_failing (hprevious : FileLedger.find? filePath db.tables = .ok previous)
    (h : isUnchanged options previous content = false) {e : Error}
    (he : checked base extractor filePath content language = .error e) :
    (indexKnown base options extractor filePath content language).runOn db =
      (.ok (.failed filePath (some language) e.message), db) := by
  rw [indexKnown_eq, StoreM.runOn_bind_ok (StoreM.runOn_query_ok hprevious), h,
    if_neg Bool.false_ne_true, he]
  rfl

/-- Any other content replaces what the graph holds of the file. -/
theorem indexKnown_of_found (hprevious : FileLedger.find? filePath db.tables = .ok previous)
    (h : isUnchanged options previous content = false) {x : Extraction}
    (hx : checked base extractor filePath content language = .ok x) {report : ResolutionReport}
    (hreplace : (replace filePath (Blake3.hash content.toUTF8) language previous.isSome x).runOn db =
      (.ok report, after)) :
    (indexKnown base options extractor filePath content language).runOn db =
      (.ok {
        filePath
        action := if previous.isSome then .updated else .created
        language := some language
        entities := report.entities
        relationshipsCreated := report.relationships.length
        relationshipsDropped := report.dropped }, after) := by
  rw [indexKnown_eq, StoreM.runOn_bind_ok (StoreM.runOn_query_ok hprevious), h,
    if_neg Bool.false_ne_true, hx]
  exact StoreM.runOn_bind_ok hreplace

end

theorem indexContent_of_none {path : String} (h : Language.detect (base.normalize path) = none)
    (content : String) :
    indexContent base options extractor path content =
      pure (.failed (base.normalize path) none "unsupported language") := by
  simp only [indexContent, h]

theorem indexContent_of_some {path language : String}
    (h : Language.detect (base.normalize path) = some language) (content : String) :
    indexContent base options extractor path content =
      indexKnown base options extractor (base.normalize path) content language := by
  simp only [indexContent, h]

/-! ### Properties of indexing -/

/-- A property that indexing has because replacing a file has it: what was read before does not
matter, and neither does the outcome that is made of the report. -/
structure Carries (P : StoreM IndexOutcome → Prop) : Prop where
  outcome : ∀ o, P (pure o)
  read : ∀ {α : Type} (f : Tables → Except Error α) {next : α → StoreM IndexOutcome},
    (∀ a, P (next a)) → P (StoreM.query f >>= next)
  replaced : ∀ (filePath hash language : String) (known : Bool) (x : Extraction)
    (outcome : ResolutionReport → IndexOutcome),
    P (replace filePath hash language known x >>= fun report => pure (outcome report))

namespace Carries

variable {P : StoreM IndexOutcome → Prop}

theorem of_sequential {Q : (α : Type) → StoreM α → Prop} (h : StoreM.Sequential Q)
    (hquery : ∀ {α : Type} (f : Tables → Except Error α), Q α (StoreM.query f))
    (hreplace : ∀ filePath hash language known x,
      Q ResolutionReport (replace filePath hash language known x)) : Carries (Q IndexOutcome) where
  outcome := h.pure
  read f _ hnext := h.bind (hquery f) hnext
  replaced _ _ _ _ _ outcome := h.bind (hreplace _ _ _ _ _) fun report => h.pure (outcome report)

theorem indexKnown (h : Carries P) (base : Path) (options : IndexerOptions) (extractor : Extractor)
    (filePath content language : String) :
    P (indexKnown base options extractor filePath content language) := by
  rw [indexKnown_eq]
  refine h.read _ fun previous => ?_
  cases isUnchanged options previous content with
  | true => exact h.read _ fun _ => h.outcome _
  | false =>
    cases checked base extractor filePath content language with
    | error e => exact h.outcome _
    | ok x => exact h.replaced _ _ _ _ x _

theorem indexContent (h : Carries P) (base : Path) (options : IndexerOptions)
    (extractor : Extractor) (path content : String) :
    P (indexContent base options extractor path content) := by
  cases hlanguage : Language.detect (base.normalize path) with
  | none =>
    rw [indexContent_of_none hlanguage]
    exact h.outcome _
  | some language =>
    rw [indexContent_of_some hlanguage]
    exact h.indexKnown base options extractor _ content language

theorem indexFile (h : Carries P) (disk : Disk) (options : IndexerOptions) (extractor : Extractor)
    (path : String) : P (indexFile disk options extractor path) := by
  unfold Indexer.indexFile
  cases disk.readText path with
  | ok content => exact h.indexContent disk.base options extractor _ content
  | error fault => exact h.outcome _

end Carries

end CodeAtlas.Indexer
