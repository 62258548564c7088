import CodeAtlas.Proofs.Index.Reflection

/-!
# Graphs up to their ids

Two graphs that reflect the same versions of files have the same rows, up to ids and the order of
files, whatever the order in which the versions came. The order decides about edges between files
and about nothing else.

* `SameGraph`                  one graph is the other one under new ids;
* `Tables.pairing`             the new ids: the rows of each file are paired one after another;
* `Counterparts`               two graphs that reflect the same versions;
* `Counterparts.rows_perm`     their rows are the same under the new ids;
* `Counterparts.hasEdge_iff`   the edges of the second graph, told in rows of the first;
* `Counterparts.sameGraph_iff` they are the same exactly if the two orders agree wherever a version
                               links to another.
-/

namespace CodeAtlas

def EntityRow.rename (f : String → String) (r : EntityRow) : EntityRow := { r with id := f r.id }

/-- The second graph is the first one under new ids, up to the order of rows. -/
structure SameGraph (f : String → String) (t t' : Tables) : Prop where
  rows : (t.entityRows.map (EntityRow.rename f)).Perm t'.entityRows
  edges : ∀ source target kind, t'.HasEdge source target kind ↔
    ∃ s d, t.HasEdge s d kind ∧ f s = source ∧ f d = target

namespace Tables

/-- the file in which an id is used -/
def fileOf (t : Tables) (id : String) : String :=
  ((t.entityRows.find? (·.id == id)).map (·.filePath)).getD ""

/-- the id that has the same place among the rows of the same file -/
def pairing (t t' : Tables) (id : String) : String :=
  ((t'.idsOf (·.filePath == t.fileOf id))[
    (t.idsOf (·.filePath == t.fileOf id)).idxOf id]?).getD ""

end Tables

section

variable {base : Path} {extractor : Extractor} {vs vs' : List Version} {t t' : Tables}

/-! ### Links -/

/-- What links name is in rows of their two files. -/
theorem Links.filePath_eq {rows : List EntityRow} {a b : Version} {s d kind : String}
    (h : Links base extractor rows a b s d kind) :
    (∃ r ∈ rows, r.id = s ∧ r.filePath = a.filePath) ∧
      ∃ r ∈ rows, r.id = d ∧ r.filePath = b.filePath := by
  obtain ⟨_, _, _, _, hs, hd⟩ := h
  obtain ⟨x, hx, rfl⟩ := Option.map_eq_some_iff.mp hs
  obtain ⟨y, hy, rfl⟩ := Option.map_eq_some_iff.mp hd
  obtain ⟨hxmem, hxpath, _⟩ := EntityRow.named_mem hx
  obtain ⟨hymem, hypath, _⟩ := EntityRow.named_mem hy
  exact ⟨⟨x, hxmem, rfl, hxpath⟩, y, hymem, rfl, hypath⟩

theorem Refers.ends {rows : List EntityRow} {s d kind : String}
    (h : Refers base extractor vs rows s d kind) :
    s ∈ rows.map EntityRow.id ∧ d ∈ rows.map EntityRow.id := by
  obtain ⟨a, _, b, _, hlinks⟩ := h
  obtain ⟨⟨r, hr, rfl, _⟩, q, hq, rfl, _⟩ := hlinks.filePath_eq
  exact ⟨List.mem_map_of_mem hr, List.mem_map_of_mem hq⟩

namespace Reflects

/-- A name that was found in a version is in a row of its file. -/
theorem exists_named (h : Reflects base extractor vs t) {v : Version} (hv : v ∈ vs) {name : String}
    (hname : ∃ e ∈ (v.extraction base extractor).entities, e.name = name) :
    ∃ r, EntityRow.named t.entityRows v.filePath name = some r := by
  obtain ⟨e, he, rfl⟩ := hname
  have hrow := List.mem_map_of_mem (f := NewEntity.rowWithoutId) he
  rw [← h.rows v hv] at hrow
  obtain ⟨r, hr, heq⟩ := List.mem_map.mp hrow
  obtain ⟨hr, hfile⟩ := List.mem_filter.mp hr
  have hrname : r.name = e.name := congrArg EntityRow.name heq
  have hmem : r ∈ t.entityRows.filter fun r => r.filePath == v.filePath && r.name == e.name := by
    rw [List.mem_filter, hfile, hrname]
    simp [hr]
  exact Option.ne_none_iff_exists'.mp fun hnone =>
    List.ne_nil_of_mem hmem (List.getLast?_eq_none_iff.mp hnone)

/-- A relationship whose names were found links the two versions. -/
theorem exists_links (h : Reflects base extractor vs t) {a b : Version} (ha : a ∈ vs) (hb : b ∈ vs)
    {r : ExtractedRelationship} (hr : r ∈ (a.extraction base extractor).relationships)
    (htarget : r.targetFilePath = some b.filePath)
    (hs : ∃ e ∈ (a.extraction base extractor).entities, e.name = r.sourceName)
    (hd : ∃ e ∈ (b.extraction base extractor).entities, e.name = r.targetName) :
    ∃ s d, Links base extractor t.entityRows a b s d r.kind.name := by
  obtain ⟨x, hx⟩ := h.exists_named ha hs
  obtain ⟨y, hy⟩ := h.exists_named hb hd
  refine ⟨x.id, y.id, r, hr, rfl, htarget, ?_, ?_⟩
  · rw [hx]
    rfl
  · rw [hy]
    rfl

/-- The same edge cannot come from two pairs of versions. -/
theorem eq_of_links (h : Reflects base extractor vs t)
    (hids : (t.entityRows.map EntityRow.id).Nodup) {a b a' b' : Version} (ha : a ∈ vs)
    (hb : b ∈ vs) (ha' : a' ∈ vs) (hb' : b' ∈ vs)
    {s d kind : String} (hl : Links base extractor t.entityRows a b s d kind)
    (hl' : Links base extractor t.entityRows a' b' s d kind) : a = a' ∧ b = b' := by
  obtain ⟨⟨r, hr, hrid, hra⟩, q, hq, hqid, hqb⟩ := hl.filePath_eq
  obtain ⟨⟨r', hr', hrid', hra'⟩, q', hq', hqid', hqb'⟩ := hl'.filePath_eq
  have hrr : r = r' := List.inj_on_of_nodup_map hids hr hr' (hrid.trans hrid'.symm)
  have hqq : q = q' := List.inj_on_of_nodup_map hids hq hq' (hqid.trans hqid'.symm)
  subst hrr hqq
  exact ⟨List.inj_on_of_nodup_map h.distinct ha ha' (hra.symm.trans hra'),
    List.inj_on_of_nodup_map h.distinct hb hb' (hqb.symm.trans hqb')⟩

/-- The rows of a file that has no version are none. -/
theorem filter_eq_nil (h : Reflects base extractor vs t) {filePath : String}
    (hnone : filePath ∉ vs.map (·.filePath)) :
    t.entityRows.filter (·.filePath == filePath) = [] := by
  rw [List.filter_eq_nil_iff]
  intro r hr heq
  have hfile := h.files r hr
  rw [beq_iff_eq.mp heq] at hfile
  exact hnone hfile

end Reflects

/-! ### Rows -/

theorem Tables.fileOf_id (hids : (t.entityRows.map EntityRow.id).Nodup) {r : EntityRow}
    (hr : r ∈ t.entityRows) : t.fileOf r.id = r.filePath := by
  have hfind : t.entityRows.find? (·.id == r.id) = some r := by
    cases hf : t.entityRows.find? (·.id == r.id) with
    | none => exact absurd (List.find?_eq_none.mp hf r hr) (by simp)
    | some r' =>
      have hid : r'.id = r.id := by simpa using List.find?_some hf
      rw [List.inj_on_of_nodup_map hids (List.mem_of_find?_eq_some hf) hr hid]
  rw [fileOf, hfind]
  rfl

/-- Rows that agree but for their ids are the same under new ids, if these are the right ones. -/
theorem EntityRow.map_rename_eq {f : String → String} {rows rows' : List EntityRow}
    (h : rows.map withoutId = rows'.map withoutId)
    (hids : rows.map (fun r => f r.id) = rows'.map EntityRow.id) :
    rows.map (rename f) = rows' := by
  induction rows generalizing rows' with
  | nil =>
    cases rows' with
    | nil => rfl
    | cons r' rows' => cases h
  | cons r rows ih =>
    cases rows' with
    | nil => cases h
    | cons r' rows' =>
      rw [List.map_cons, List.map_cons, List.cons.injEq] at h hids
      rw [List.map_cons, ih h.2 hids.2]
      have hrow : r.rename f = r' := by
        have hid : f r.id = r'.id := hids.1
        have hrest := congrArg (fun x : EntityRow => { x with id := r'.id }) h.1
        rw [rename, hid]
        exact hrest
      rw [hrow]

/-- two graphs that reflect the same versions of files, which may have come in different orders -/
structure Counterparts (base : Path) (extractor : Extractor) (vs vs' : List Version)
    (t t' : Tables) : Prop where
  first : Reflects base extractor vs t
  second : Reflects base extractor vs' t'
  firstIds : (t.entityRows.map EntityRow.id).Nodup
  secondIds : (t'.entityRows.map EntityRow.id).Nodup
  mem_iff : ∀ v, v ∈ vs ↔ v ∈ vs'

namespace Counterparts

variable (h : Counterparts base extractor vs vs' t t')
include h

/-- The rows of a file agree but for their ids. -/
theorem filter_withoutId (filePath : String) :
    (t.entityRows.filter (·.filePath == filePath)).map EntityRow.withoutId =
      (t'.entityRows.filter (·.filePath == filePath)).map EntityRow.withoutId := by
  by_cases hpath : filePath ∈ vs.map (·.filePath)
  · obtain ⟨v, hv, rfl⟩ := List.mem_map.mp hpath
    rw [h.first.rows v hv, h.second.rows v ((h.mem_iff v).mp hv)]
  · have hpath' : filePath ∉ vs'.map (·.filePath) := by
      intro hin
      obtain ⟨v, hv, rfl⟩ := List.mem_map.mp hin
      exact hpath (List.mem_map_of_mem ((h.mem_iff v).mpr hv))
    rw [h.first.filter_eq_nil hpath, h.second.filter_eq_nil hpath']

/-- Under the paired ids the rows of a file are the same, in the same order. -/
theorem filter_rename (filePath : String) :
    (t.entityRows.filter (·.filePath == filePath)).map (EntityRow.rename (t.pairing t')) =
      t'.entityRows.filter (·.filePath == filePath) := by
  have hagree := h.filter_withoutId filePath
  let inFile : EntityRow → Bool := (·.filePath == filePath)
  have hlength : (t.idsOf inFile).length = (t'.idsOf inFile).length := by
    simpa [Tables.idsOf, inFile] using congrArg List.length hagree
  have hnodup : (t.idsOf inFile).Nodup := (List.filter_sublist.map _).nodup h.firstIds
  have hids : (t.entityRows.filter (·.filePath == filePath)).map (fun r => t.pairing t' r.id) =
      (t'.entityRows.filter (·.filePath == filePath)).map EntityRow.id := by
    show _ = t'.idsOf inFile
    have hpair : (t.entityRows.filter (·.filePath == filePath)).map (fun r => t.pairing t' r.id) =
        (t.idsOf inFile).map fun id =>
          ((t'.idsOf inFile)[(t.idsOf inFile).idxOf id]?).getD "" := by
      show _ = ((t.entityRows.filter (·.filePath == filePath)).map EntityRow.id).map _
      rw [List.map_map]
      refine List.map_congr_left fun r hr => ?_
      obtain ⟨hr, hfile⟩ := List.mem_filter.mp hr
      rw [Tables.pairing, Tables.fileOf_id h.firstIds hr, beq_iff_eq.mp hfile]
      rfl
    rw [hpair]
    refine List.ext_getElem (by rw [List.length_map, hlength]) fun i hi hi' => ?_
    rw [List.length_map] at hi
    rw [List.getElem_map, hnodup.idxOf_getElem i hi, List.getElem?_eq_getElem hi']
    rfl
  exact EntityRow.map_rename_eq hagree hids

theorem rows_perm : (t.entityRows.map (EntityRow.rename (t.pairing t'))).Perm t'.entityRows := by
  rw [List.perm_iff_count]
  intro row
  -- a row is counted among the rows of its file
  have hfile := h.filter_rename row.filePath
  have hcount : ∀ rows : List EntityRow,
      rows.count row = (rows.filter (·.filePath == row.filePath)).count row := by
    intro rows
    rw [List.count_filter]
    exact beq_self_eq_true row.filePath
  rw [hcount, hcount t'.entityRows, ← hfile, List.filter_map]
  rfl

/-! ### Ids -/

theorem ids_perm : ((t.entityRows.map EntityRow.id).map (t.pairing t')).Perm
    (t'.entityRows.map EntityRow.id) := by
  have hperm := h.rows_perm.map EntityRow.id
  rw [List.map_map] at hperm ⊢
  exact hperm

/-- An id of the second graph belongs to one id of the first. -/
theorem exists_pairing_eq {id : String} (hid : id ∈ t'.entityRows.map EntityRow.id) :
    ∃ i ∈ t.entityRows.map EntityRow.id, t.pairing t' i = id :=
  List.mem_map.mp (h.ids_perm.mem_iff.mpr hid)

theorem pairing_inj {i j : String} (hi : i ∈ t.entityRows.map EntityRow.id)
    (hj : j ∈ t.entityRows.map EntityRow.id) (heq : t.pairing t' i = t.pairing t' j) : i = j :=
  List.inj_on_of_nodup_map (h.ids_perm.nodup_iff.mpr h.secondIds) hi hj heq

/-! ### Edges -/

/-- A name means the same row in both graphs. -/
theorem named_eq (filePath name : String) :
    (EntityRow.named t'.entityRows filePath name).map EntityRow.id =
      ((EntityRow.named t.entityRows filePath name).map EntityRow.id).map (t.pairing t') := by
  have hsplit : ∀ rows : List EntityRow, EntityRow.named rows filePath name =
      ((rows.filter (·.filePath == filePath)).filter (·.name == name)).getLast? := by
    intro rows
    rw [EntityRow.named, List.filter_filter]
    congr 2
    funext r
    exact Bool.and_comm _ _
  rw [hsplit, hsplit, ← h.filter_rename filePath, List.filter_map, List.getLast?_map,
    Option.map_map, Option.map_map]
  rfl

/-- Links are told apart by their ends only, so they are the same in both graphs. -/
theorem links_iff {a b : Version} {s d kind : String} (hs : s ∈ t.entityRows.map EntityRow.id)
    (hd : d ∈ t.entityRows.map EntityRow.id) :
    Links base extractor t'.entityRows a b (t.pairing t' s) (t.pairing t' d) kind ↔
      Links base extractor t.entityRows a b s d kind := by
  have hnamed : ∀ (filePath name id : String), id ∈ t.entityRows.map EntityRow.id →
      ((EntityRow.named t'.entityRows filePath name).map EntityRow.id = some (t.pairing t' id) ↔
        (EntityRow.named t.entityRows filePath name).map EntityRow.id = some id) := by
    intro filePath name id hid
    rw [h.named_eq filePath name]
    constructor
    · intro heq
      obtain ⟨i, hi, hpair⟩ := Option.map_eq_some_iff.mp heq
      obtain ⟨r, hr, rfl⟩ := Option.map_eq_some_iff.mp hi
      have hrmem := List.mem_map_of_mem (f := EntityRow.id) (EntityRow.named_mem hr).1
      rw [hi, h.pairing_inj hrmem hid hpair]
    · intro heq
      rw [heq]
      rfl
  simp only [Links, hnamed _ _ s hs, hnamed _ _ d hd]

/-- The edges of the second graph: what its order makes of the links between rows of the first. -/
theorem hasEdge_iff (source target kind : String) :
    t'.HasEdge source target kind ↔
      ∃ s d, Refers base extractor vs' t.entityRows s d kind ∧
        t.pairing t' s = source ∧ t.pairing t' d = target := by
  have hrefers : ∀ s ∈ t.entityRows.map EntityRow.id, ∀ d ∈ t.entityRows.map EntityRow.id,
      (Refers base extractor vs' t'.entityRows (t.pairing t' s) (t.pairing t' d) kind ↔
        Refers base extractor vs' t.entityRows s d kind) := by
    intro s hs d hd
    simp only [Refers, h.links_iff hs hd]
  rw [h.second.edges]
  constructor
  · intro hedge
    obtain ⟨hsource, htarget⟩ := hedge.ends
    obtain ⟨s, hs, rfl⟩ := h.exists_pairing_eq hsource
    obtain ⟨d, hd, rfl⟩ := h.exists_pairing_eq htarget
    exact ⟨s, d, (hrefers s hs d hd).mp hedge, rfl, rfl⟩
  · rintro ⟨s, d, hedge, rfl, rfl⟩
    exact (hrefers s hedge.ends.1 d hedge.ends.2).mpr hedge

theorem sameGraph_iff_refers :
    SameGraph (t.pairing t') t t' ↔
      ∀ s d kind, Refers base extractor vs t.entityRows s d kind ↔
        Refers base extractor vs' t.entityRows s d kind := by
  constructor
  · intro hsame s d kind
    -- what holds of ids with the same counterparts holds of these
    have hback : ∀ {ws ws' : List Version}, Refers base extractor ws t.entityRows s d kind →
        (∃ i j, Refers base extractor ws' t.entityRows i j kind ∧
          t.pairing t' i = t.pairing t' s ∧ t.pairing t' j = t.pairing t' d) →
        Refers base extractor ws' t.entityRows s d kind := by
      rintro ws ws' hrefers ⟨i, j, hmeant, hi, hj⟩
      have his := h.pairing_inj hmeant.ends.1 hrefers.ends.1 hi
      have hjd := h.pairing_inj hmeant.ends.2 hrefers.ends.2 hj
      exact his ▸ hjd ▸ hmeant
    have hedges := hsame.edges (t.pairing t' s) (t.pairing t' d) kind
    rw [h.hasEdge_iff] at hedges
    simp only [h.first.edges] at hedges
    exact ⟨fun hrefers => hback hrefers (hedges.mpr ⟨s, d, hrefers, rfl, rfl⟩),
      fun hrefers => hback hrefers (hedges.mp ⟨s, d, hrefers, rfl, rfl⟩)⟩
  · intro hrefers
    refine ⟨h.rows_perm, fun source target kind => ?_⟩
    rw [h.hasEdge_iff]
    simp only [h.first.edges, hrefers]

/-- Two orders mean the same edges exactly if, of two versions that are linked, the same one came
first in both. -/
theorem refers_iff_iff_notAfter :
    (∀ s d kind, Refers base extractor vs t.entityRows s d kind ↔
        Refers base extractor vs' t.entityRows s d kind) ↔
      ∀ a ∈ vs, ∀ b ∈ vs, ∀ s d kind, Links base extractor t.entityRows a b s d kind →
        (NotAfter vs b a ↔ NotAfter vs' b a) := by
  constructor
  · intro hrefers a ha b hb s d kind hlinks
    -- the edge tells which versions it comes from
    have horder : ∀ {ws : List Version}, (∀ v, v ∈ vs ↔ v ∈ ws) →
        Refers base extractor ws t.entityRows s d kind → NotAfter ws b a := by
      rintro ws hws ⟨a', ha', b', hab', hlinks'⟩
      have hb' := (hws b').mpr (hab'.mem ha')
      obtain ⟨rfl, rfl⟩ :=
        h.first.eq_of_links h.firstIds ha hb ((hws a').mpr ha') hb' hlinks hlinks'
      exact hab'
    constructor
    · exact fun hab => horder h.mem_iff ((hrefers s d kind).mp ⟨a, ha, b, hab, hlinks⟩)
    · intro hab
      have ha' := (h.mem_iff a).mp ha
      exact horder (fun _ => Iff.rfl) ((hrefers s d kind).mpr ⟨a, ha', b, hab, hlinks⟩)
  · intro horders s d kind
    constructor
    · rintro ⟨a, ha, b, hab, hlinks⟩
      have hab' := (horders a ha b (hab.mem ha) s d kind hlinks).mp hab
      exact ⟨a, (h.mem_iff a).mp ha, b, hab', hlinks⟩
    · rintro ⟨a, ha, b, hab, hlinks⟩
      have hb := (h.mem_iff b).mpr (hab.mem ha)
      have ha := (h.mem_iff a).mpr ha
      exact ⟨a, ha, b, (horders a ha b hb s d kind hlinks).mpr hab, hlinks⟩

/-- The graphs are the same exactly if the two orders agree wherever a version links to another. -/
theorem sameGraph_iff :
    SameGraph (t.pairing t') t t' ↔
      ∀ a ∈ vs, ∀ b ∈ vs, ∀ s d kind, Links base extractor t.entityRows a b s d kind →
        (NotAfter vs b a ↔ NotAfter vs' b a) :=
  h.sameGraph_iff_refers.trans h.refers_iff_iff_notAfter

end Counterparts

end

end CodeAtlas
