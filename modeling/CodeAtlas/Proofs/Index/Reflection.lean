import CodeAtlas.Proofs.Index.Replacement
import CodeAtlas.Proofs.Index.Versions

/-!
# Graphs that reflect versions

What the graph holds when certain versions of files are in place, and how this is kept when a file
goes or a new version comes.

* `Links`              a relationship found in one version names rows of that file and of another;
* `Refers`             it means an edge if the version of the target did not come later;
* `Reflects`           the rows are the extractions of the versions, and the edges are those meant;
* `Reflects.forget`    a file goes;
* `Reflects.extend`    a version of a file that has none comes.
-/

namespace CodeAtlas

/-- a row but for its id -/
def EntityRow.withoutId (r : EntityRow) : EntityRow := { r with id := "" }

/-- the row of an entity but for its id -/
def NewEntity.rowWithoutId (e : NewEntity) : EntityRow := .ofEntity { e with id := "" }

/-- Every relationship that is found in a content starts in the file of that content, however the
path of its source is spelled. -/
def Extractor.StaysInFile (base : Path) (extractor : Extractor) : Prop :=
  ∀ (path content language : String) (x : Extraction),
    extractor (base.normalize path) content language = .ok x →
    ∀ r ∈ x.relationships, ∀ source, r.sourceFilePath = some source →
      base.normalize source = base.normalize path

section

variable {base : Path} {extractor : Extractor} {vs : List Version} {t : Tables} {n : Nat}

/-- A relationship that is found in `a` has its names in rows of the files of `a` and of `b`. -/
def Links (base : Path) (extractor : Extractor) (rows : List EntityRow) (a b : Version)
    (source target kind : String) : Prop :=
  ∃ r ∈ (a.extraction base extractor).relationships,
    r.kind.name = kind ∧ r.targetFilePath = some b.filePath ∧
    (EntityRow.named rows a.filePath r.sourceName).map EntityRow.id = some source ∧
    (EntityRow.named rows b.filePath r.targetName).map EntityRow.id = some target

instance (rows : List EntityRow) (a b : Version) (source target kind : String) :
    Decidable (Links base extractor rows a b source target kind) :=
  inferInstanceAs (Decidable (∃ r ∈ (a.extraction base extractor).relationships, _))

/-- An edge that the versions mean: it is found in one of them, and the target's version did not
come after that one. -/
def Refers (base : Path) (extractor : Extractor) (vs : List Version) (rows : List EntityRow)
    (source target kind : String) : Prop :=
  ∃ a ∈ vs, ∃ b, NotAfter vs b a ∧ Links base extractor rows a b source target kind

/-- the graph that shows certain versions of files -/
structure Reflects (base : Path) (extractor : Extractor) (vs : List Version) (t : Tables) :
    Prop where
  ready : t.Ready
  distinct : (vs.map (·.filePath)).Nodup
  found : ∀ v ∈ vs, ∃ x, v.found base extractor = .ok x
  rows : ∀ v ∈ vs, (t.entityRows.filter (·.filePath == v.filePath)).map EntityRow.withoutId =
    (v.extraction base extractor).entities.map NewEntity.rowWithoutId
  files : ∀ r ∈ t.entityRows, r.filePath ∈ vs.map (·.filePath)
  edges : ∀ source target kind,
    t.HasEdge source target kind ↔ Refers base extractor vs t.entityRows source target kind

/-! ### Names in rows -/

theorem EntityRow.named_filter {rows : List EntityRow} {filePath other name : String}
    (h : filePath ≠ other) :
    named (rows.filter (·.filePath != other)) filePath name = named rows filePath name := by
  rw [named, named, List.filter_filter]
  congr 2
  funext r
  cases hr : r.filePath == filePath with
  | false => rfl
  | true =>
    have hne : (r.filePath != other) = true := by
      rw [beq_iff_eq.mp hr]
      simpa using h
    rw [hne, Bool.and_true]

theorem EntityRow.named_append_of_ne {rows more : List EntityRow} {filePath : String}
    (h : ∀ r ∈ more, r.filePath ≠ filePath) (name : String) :
    named (rows ++ more) filePath name = named rows filePath name := by
  have hnone : more.filter (fun r => r.filePath == filePath && r.name == name) = [] :=
    List.filter_eq_nil_iff.mpr fun r hr => by simp [h r hr]
  rw [named, named, List.filter_append, hnone, List.append_nil]

/-! ### The empty graph -/

theorem Reflects.nil : Reflects base extractor [] .migrated where
  ready := Tables.ready_migrated
  distinct := .nil
  found := nofun
  rows := nofun
  files := nofun
  edges _ _ _ :=
    ⟨fun ⟨_, h, _⟩ => absurd h List.not_mem_nil, fun ⟨_, h, _⟩ => absurd h List.not_mem_nil⟩

/-- What is not a row of the graph does not matter. -/
theorem Reflects.congr {t' : Tables} (h : Reflects base extractor vs t) (hready : t'.Ready)
    (he : t'.entityRows = t.entityRows) (hr : t'.relationshipRows = t.relationshipRows) :
    Reflects base extractor vs t' where
  ready := hready
  distinct := h.distinct
  found := h.found
  rows := he ▸ h.rows
  files := he ▸ h.files
  edges source target kind := by
    rw [he, ← h.edges, Tables.HasEdge, hr]
    rfl

/-! ### A file goes -/

/-- An id that stays is in a row of another file. -/
theorem filePath_ne_of_mem_withoutFile (hsound : t.Sound n) {filePath : String} {r : EntityRow}
    (hr : r ∈ t.entityRows) (hid : r.id ∈ (t.withoutFile filePath).entityRows.map EntityRow.id) :
    r.filePath ≠ filePath := by
  rw [Tables.withoutFile_entityRows] at hid
  obtain ⟨r', hr', heq⟩ := List.mem_map.mp hid
  obtain ⟨hr', hne⟩ := List.mem_filter.mp hr'
  have hsame : r' = r := List.inj_on_of_nodup_map hsound.distinctIds hr' hr heq
  exact hsame ▸ (by simpa using hne)

/-- The edges that stay when a file goes are those that the other versions mean. -/
theorem refers_forget (hsound : t.Sound n) (filePath source target kind : String) :
    (Refers base extractor vs t.entityRows source target kind ∧
      source ∈ (t.withoutFile filePath).entityRows.map EntityRow.id ∧
      target ∈ (t.withoutFile filePath).entityRows.map EntityRow.id) ↔
    Refers base extractor (forget filePath vs) (t.withoutFile filePath).entityRows source target
      kind := by
  constructor
  · rintro ⟨⟨a, ha, b, hab, r, hr, hkind, hpath, hs, ht⟩, hsource, htarget⟩
    obtain ⟨x, hx, rfl⟩ := Option.map_eq_some_iff.mp hs
    obtain ⟨y, hy, rfl⟩ := Option.map_eq_some_iff.mp ht
    obtain ⟨hxmem, hxpath, _⟩ := EntityRow.named_mem hx
    obtain ⟨hymem, hypath, _⟩ := EntityRow.named_mem hy
    have hane : a.filePath ≠ filePath :=
      hxpath ▸ filePath_ne_of_mem_withoutFile hsound hxmem hsource
    have hbne : b.filePath ≠ filePath :=
      hypath ▸ filePath_ne_of_mem_withoutFile hsound hymem htarget
    refine ⟨a, mem_forget.mpr ⟨ha, hane⟩, b, (notAfter_forget hane).mpr ⟨hab, hbne⟩, r, hr, hkind,
      hpath, ?_, ?_⟩
    · rw [Tables.withoutFile_entityRows, EntityRow.named_filter hane, hx]
      rfl
    · rw [Tables.withoutFile_entityRows, EntityRow.named_filter hbne, hy]
      rfl
  · rintro ⟨a, ha, b, hab, r, hr, hkind, hpath, hs, ht⟩
    obtain ⟨ha, hane⟩ := mem_forget.mp ha
    obtain ⟨hab, hbne⟩ := (notAfter_forget hane).mp hab
    obtain ⟨x, hx, rfl⟩ := Option.map_eq_some_iff.mp hs
    obtain ⟨y, hy, rfl⟩ := Option.map_eq_some_iff.mp ht
    have hxmem := List.mem_map_of_mem (f := EntityRow.id) (EntityRow.named_mem hx).1
    have hymem := List.mem_map_of_mem (f := EntityRow.id) (EntityRow.named_mem hy).1
    rw [Tables.withoutFile_entityRows, EntityRow.named_filter hane] at hx
    rw [Tables.withoutFile_entityRows, EntityRow.named_filter hbne] at hy
    refine ⟨⟨a, ha, b, hab, r, hr, hkind, hpath, ?_, ?_⟩, hxmem, hymem⟩
    · rw [hx]
      rfl
    · rw [hy]
      rfl

theorem Reflects.forget (h : Reflects base extractor vs t) (hsound : t.Sound n)
    (filePath : String) :
    Reflects base extractor (CodeAtlas.forget filePath vs) (t.withoutFile filePath) where
  ready := Tables.without_ready _ h.ready
  distinct := forget_nodup h.distinct filePath
  found v hv := h.found v (mem_forget.mp hv).1
  rows v hv := by
    obtain ⟨hv, hne⟩ := mem_forget.mp hv
    rw [← h.rows v hv, Tables.withoutFile_entityRows, List.filter_filter]
    congr 2
    funext r
    cases hr : r.filePath == v.filePath with
    | false => rw [Bool.false_and]
    | true => simpa [beq_iff_eq.mp hr] using hne
  files r hr := by
    rw [Tables.withoutFile_entityRows] at hr
    obtain ⟨hr, hne⟩ := List.mem_filter.mp hr
    obtain ⟨v, hv, hpath⟩ := List.mem_map.mp (h.files r hr)
    exact List.mem_map.mpr ⟨v, mem_forget.mpr ⟨hv, hpath ▸ (by simpa using hne)⟩, hpath⟩
  edges source target kind := by
    refine hsound.without_hasEdge.trans ?_
    rw [h.edges]
    exact refers_forget hsound filePath source target kind

/-! ### A version comes -/

theorem newRows_filePath {es : List NewEntity} {filePath : String}
    (h : ∀ e ∈ es, e.filePath = filePath) : ∀ r ∈ Resolver.newRows n es, r.filePath = filePath := by
  intro r hr
  obtain ⟨e, he, rfl⟩ := List.mem_map.mp hr
  have hmem : e.toNewEntity ∈ (Entities.numbered n es).map Entity.toNewEntity :=
    List.mem_map_of_mem he
  rw [Entities.numbered_map_toNewEntity] at hmem
  exact h _ hmem

theorem newRows_withoutId (n : Nat) (es : List NewEntity) :
    (Resolver.newRows n es).map EntityRow.withoutId = es.map NewEntity.rowWithoutId := by
  induction es generalizing n with
  | nil => rfl
  | cons e es ih => exact congrArg (_ :: ·) (ih (n + 1))

/-- After a version came, every row belongs to one that is in place. -/
theorem Reflects.exists_version {v : Version} (h : Reflects base extractor vs t)
    (hentities : ∀ e ∈ (v.extraction base extractor).entities, e.filePath = v.filePath)
    {r : EntityRow}
    (hr : r ∈ t.entityRows ++ Resolver.newRows n (v.extraction base extractor).entities) :
    ∃ b ∈ vs ++ [v], b.filePath = r.filePath := by
  rcases List.mem_append.mp hr with hr | hr
  · obtain ⟨b, hb, hpath⟩ := List.mem_map.mp (h.files r hr)
    exact ⟨b, List.mem_append_left _ hb, hpath⟩
  · refine ⟨v, List.mem_append_right _ (List.mem_singleton_self v), ?_⟩
    exact (newRows_filePath hentities r hr).symm

/-- After a version came, the edges are the old ones and those that it means. -/
theorem refers_concat {v : Version} (h : Reflects base extractor vs t)
    (hnew : v.filePath ∉ vs.map (·.filePath))
    (hentities : ∀ e ∈ (v.extraction base extractor).entities, e.filePath = v.filePath)
    (hrelationships : ∀ r ∈ (v.extraction base extractor).relationships,
      r.sourceFilePath = some v.filePath ∧ r.targetFilePath.isSome = true)
    {rows : List EntityRow}
    (hrows : rows = t.entityRows ++ Resolver.newRows n (v.extraction base extractor).entities)
    (source target kind : String) :
    (Refers base extractor vs t.entityRows source target kind ∨
      ∃ r ∈ (v.extraction base extractor).relationships, r.kind.name = kind ∧
        (EntityCache.ofRows rows).lookup r.sourceFilePath r.sourceName = some source ∧
        (EntityCache.ofRows rows).lookup r.targetFilePath r.targetName = some target) ↔
    Refers base extractor (vs ++ [v]) rows source target kind := by
  have hother : ∀ u ∈ vs, u.filePath ≠ v.filePath := fun u hu heq =>
    hnew (heq ▸ List.mem_map_of_mem hu)
  have hnamed : ∀ u ∈ vs, ∀ name,
      EntityRow.named rows u.filePath name = EntityRow.named t.entityRows u.filePath name := by
    intro u hu name
    rw [hrows]
    refine EntityRow.named_append_of_ne (fun r hr => ?_) name
    rw [newRows_filePath hentities r hr]
    exact (hother u hu).symm
  constructor
  · rintro (⟨a, ha, b, hab, r, hr, hkind, hpath, hs, ht⟩ | ⟨r, hr, hkind, hs, ht⟩)
    · have hav : a ≠ v := fun heq => hother a ha (congrArg Version.filePath heq)
      refine ⟨a, List.mem_append_left _ ha, b, (notAfter_concat_of_ne hav).mpr hab, r, hr, hkind,
        hpath, ?_, ?_⟩
      · rw [hnamed a ha]
        exact hs
      · rw [hnamed b (hab.mem ha)]
        exact ht
    · obtain ⟨hsource, htarget⟩ := hrelationships r hr
      obtain ⟨path, htarget⟩ := Option.isSome_iff_exists.mp htarget
      rw [hsource, EntityCache.lookup_ofRows] at hs
      rw [htarget, EntityCache.lookup_ofRows] at ht
      -- the target's row belongs to one of the versions
      obtain ⟨y, hy, _⟩ := Option.map_eq_some_iff.mp ht
      obtain ⟨hymem, hypath, _⟩ := EntityRow.named_mem hy
      obtain ⟨b, hb, hbpath⟩ := h.exists_version hentities (hrows ▸ hymem)
      have hbpath := hbpath.trans hypath
      exact ⟨v, List.mem_append_right _ (List.mem_singleton_self v), b, notAfter_concat_self hb, r,
        hr, hkind, hbpath ▸ htarget, hs, hbpath ▸ ht⟩
  · rintro ⟨a, ha, b, hab, r, hr, hkind, hpath, hs, ht⟩
    rcases List.mem_append.mp ha with ha | ha
    · have hav : a ≠ v := fun heq => hother a ha (congrArg Version.filePath heq)
      have hab := (notAfter_concat_of_ne hav).mp hab
      rw [hnamed a ha] at hs
      rw [hnamed b (hab.mem ha)] at ht
      exact .inl ⟨a, ha, b, hab, r, hr, hkind, hpath, hs, ht⟩
    · obtain rfl := List.mem_singleton.mp ha
      refine .inr ⟨r, hr, hkind, ?_, ?_⟩
      · rw [(hrelationships r hr).1, EntityCache.lookup_ofRows]
        exact hs
      · rw [hpath, EntityCache.lookup_ofRows]
        exact ht

theorem Reflects.extend {v : Version} (h : Reflects base extractor vs t)
    (hnew : v.filePath ∉ vs.map (·.filePath)) (hfound : ∃ x, v.found base extractor = .ok x)
    (hentities : ∀ e ∈ (v.extraction base extractor).entities, e.filePath = v.filePath)
    (hrelationships : ∀ r ∈ (v.extraction base extractor).relationships,
      r.sourceFilePath = some v.filePath ∧ r.targetFilePath.isSome = true) :
    Reflects base extractor (vs ++ [v])
      (Resolver.resolved n (v.extraction base extractor).entities
        (v.extraction base extractor).relationships t) where
  ready := Tables.resolved_ready h.ready
  distinct := concat_nodup h.distinct hnew
  found u hu := by
    rcases List.mem_append.mp hu with hu | hu
    · exact h.found u hu
    · exact List.mem_singleton.mp hu ▸ hfound
  rows u hu := by
    rw [Tables.resolved_entityRows, List.filter_append, List.map_append]
    rcases List.mem_append.mp hu with hu | hu
    · have hne : u.filePath ≠ v.filePath := fun heq => hnew (heq ▸ List.mem_map_of_mem hu)
      have hnone : (Resolver.newRows n (v.extraction base extractor).entities).filter
          (·.filePath == u.filePath) = [] :=
        List.filter_eq_nil_iff.mpr fun r hr => by
          simpa [newRows_filePath hentities r hr] using hne.symm
      rw [hnone, List.map_nil, List.append_nil, h.rows u hu]
    · obtain rfl := List.mem_singleton.mp hu
      have hnone : t.entityRows.filter (·.filePath == u.filePath) = [] :=
        List.filter_eq_nil_iff.mpr fun r hr => by
          have hne : r.filePath ≠ u.filePath := fun heq => hnew (heq ▸ h.files r hr)
          simpa using hne
      have hall : (Resolver.newRows n (u.extraction base extractor).entities).filter
          (·.filePath == u.filePath) = Resolver.newRows n (u.extraction base extractor).entities :=
        List.filter_eq_self.mpr fun r hr => by simp [newRows_filePath hentities r hr]
      rw [hnone, hall, List.map_nil, List.nil_append, newRows_withoutId]
  files r hr := by
    obtain ⟨b, hb, hpath⟩ := h.exists_version hentities hr
    exact List.mem_map.mpr ⟨b, hb, hpath⟩
  edges source target kind := by
    rw [Tables.resolved_hasEdge, h.edges]
    exact refers_concat h hnew hentities hrelationships rfl source target kind

end

end CodeAtlas
