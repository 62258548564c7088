import CodeAtlas.Query.DeadCode
import CodeAtlas.Proofs.Integrity
import CodeAtlas.Proofs.Query.Summary
import CodeAtlas.Proofs.Store.Reading
import Mathlib.Data.Prod.Lex
import Mathlib.Data.String.Basic

/-!
# Dead code

A search for dead code finds the stored functions, classes and methods that nothing uses and that its
options do not leave out, in the order of a rank, and reports as many of them as its limit allows.

* `filter_mergeSort`          sorting keeps members in their order that are level;
* `DeadCode.Dead`             what dead code is, by the rows of a store;
* `DeadCode.Finding.le_iff`   findings are compared by rank;
* `DeadCode.compute_eq_ok`    a report against the one without a limit;
* `DeadCode.find_exact`       every report is exact.
-/

namespace CodeAtlas

theorem filter_mergeSort {α : Type} {le : α → α → Bool} {p : α → Bool}
    (htrans : ∀ a b c, le a b = true → le b c = true → le a c = true)
    (htotal : ∀ a b, (le a b || le b a) = true)
    (hlevel : ∀ a b, p a = true → p b = true → le a b = true) (xs : List α) :
    (xs.mergeSort le).filter p = xs.filter p := by
  have hpairs : (xs.filter p).Pairwise fun a b => le a b = true := by
    refine List.pairwise_of_forall_mem_list fun a ha b hb => ?_
    exact hlevel a b (List.mem_filter.mp ha).2 (List.mem_filter.mp hb).2
  have hsub : (xs.filter p).Sublist ((xs.mergeSort le).filter p) := by
    have h := (List.sublist_mergeSort htrans htotal hpairs List.filter_sublist).filter p
    rwa [List.filter_filter, funext fun a => Bool.and_self (p a)] at h
  have hlength := ((List.mergeSort_perm xs le).filter p).length_eq
  exact (hsub.eq_of_length hlength.symm).symm

/-- An entity is marked as exported, by either key. -/
def Entity.Marked (e : Entity) : Prop :=
  ∃ m, e.metadata = some m ∧
    (m.find? "exported" = some (.bool true) ∨ m.find? "isExported" = some (.bool true))

theorem MetadataValue.getD_asBool_iff {v : Option MetadataValue} :
    (v.bind asBool).getD false = true ↔ v = some (.bool true) := by
  cases v with
  | none => simp
  | some v => cases v <;> simp [asBool]

theorem Entity.isExported_iff {e : Entity} : e.isExported = true ↔ e.Marked := by
  have hkeys : e.isExported = true ↔
      (e.metadata.getD []).find? "exported" = some (.bool true) ∨
        (e.metadata.getD []).find? "isExported" = some (.bool true) := by
    simp only [isExported, exportKeys, List.any_cons, List.any_nil, Bool.or_false, Bool.or_eq_true,
      MetadataValue.getD_asBool_iff]
  rw [hkeys, Marked]
  cases e.metadata with
  | none => simp [Metadata.find?]
  | some m => simp

namespace DeadCode

variable {o : Options} {t : Tables} {used : List String} {r : Report}

/-! ### What is dead -/

/-- An entity is a unit of code that nothing calls, extends or implements, and that the options do not
leave out. -/
structure Dead (o : Options) (t : Tables) (e : Entity) : Prop where
  unit : e.kind = .function ∨ e.kind = .class ∨ e.kind = .method
  unused : ∀ kind, kind = .calls ∨ kind = .extends ∨ kind = .implements →
    ∀ source, ¬ t.HasEdge source e.id (RelationshipKind.name kind)
  noEntryPoint : ∀ stem, Path.stem? e.filePath = some stem → stem ∉ o.entryPoints
  noLifecycle : e.name ∉ o.lifecycleMethods
  /-- A pattern that is not valid matches nothing. -/
  noTest : o.includeTests = false → ∀ text ∈ o.testPatterns, ∀ pattern,
    PathMatch.ofString? text = some pattern → PathMatch.matches pattern e.filePath = false

theorem mem_referenced (h : referenced t = .ok used) {id : String} :
    id ∈ used ↔ ∃ kind ∈ RelationshipKind.usages, ∃ source, t.HasEdge source id kind.name := by
  obtain ⟨rs, hrs, h⟩ := Tables.bind_eq_ok.mp h
  cases h
  rw [List.mem_map]
  constructor
  · rintro ⟨r, hr, rfl⟩
    obtain ⟨hkind, hedge⟩ := (Relationships.byKinds_eq_ok hrs).mp ⟨r, hr, rfl, rfl, rfl⟩
    exact ⟨r.kind, hkind, r.sourceId, hedge⟩
  · rintro ⟨kind, hkind, source, hedge⟩
    obtain ⟨r, hr, -, htarget, -⟩ := (Relationships.byKinds_eq_ok hrs).mpr ⟨hkind, hedge⟩
    exact ⟨r, hr, htarget⟩

namespace Exclusions

variable {e : Entity}

theorem isEntryPoint_iff : (ofOptions o).isEntryPoint e = true ↔
    ∃ stem, Path.stem? e.filePath = some stem ∧ stem ∈ o.entryPoints := by
  unfold isEntryPoint
  cases Path.stem? e.filePath with
  | none => simp
  | some stem => simp [ofOptions]

theorem isTest_iff : (ofOptions o).isTest e = true ↔ ∃ text ∈ o.testPatterns, ∃ pattern,
    PathMatch.ofString? text = some pattern ∧ PathMatch.matches pattern e.filePath = true := by
  rw [isTest, ofOptions, List.any_eq_true]
  simp only [List.mem_filterMap]
  constructor
  · rintro ⟨pattern, ⟨text, htext, hpattern⟩, hmatches⟩
    exact ⟨text, htext, pattern, hpattern, hmatches⟩
  · rintro ⟨text, htext, pattern, hpattern, hmatches⟩
    exact ⟨pattern, ⟨text, htext, hpattern⟩, hmatches⟩

end Exclusions

theorem isCandidate_iff (h : referenced t = .ok used) {e : Entity} :
    isCandidate used (.ofOptions o) e = true ↔ Dead o t e := by
  have hunit : e.kind.isCodeUnit = true ↔
      e.kind = .function ∨ e.kind = .class ∨ e.kind = .method := by
    cases e.kind <;> decide
  have hunused : (!used.contains e.id) = true ↔
      ∀ kind, kind = .calls ∨ kind = .extends ∨ kind = .implements →
        ∀ source, ¬ t.HasEdge source e.id (RelationshipKind.name kind) := by
    rw [Bool.not_eq_true', ← Bool.not_eq_true, List.contains_iff_mem, mem_referenced h]
    simp only [RelationshipKind.usages, List.mem_cons, List.not_mem_nil, or_false, not_exists,
      not_and]
  have hkept : (!(Exclusions.ofOptions o).excludes e) = true ↔
      (¬ (Exclusions.ofOptions o).isEntryPoint e = true ∧
        ¬ (Exclusions.ofOptions o).isLifecycle e = true) ∧
          ¬ (o.includeTests = false ∧ (Exclusions.ofOptions o).isTest e = true) := by
    rw [Exclusions.excludes, Bool.not_eq_true', ← Bool.not_eq_true, Bool.or_eq_true, Bool.or_eq_true,
      Bool.and_eq_true, not_or, not_or, Bool.not_eq_true']
    rfl
  have hlifecycle : (Exclusions.ofOptions o).isLifecycle e = true ↔ e.name ∈ o.lifecycleMethods :=
    List.contains_iff_mem
  rw [isCandidate, Bool.and_eq_true, Bool.and_eq_true, hunit, hunused, hkept,
    Exclusions.isEntryPoint_iff, Exclusions.isTest_iff, hlifecycle]
  constructor
  · rintro ⟨⟨hunit, hunused⟩, ⟨hentry, hname⟩, htest⟩
    refine ⟨hunit, hunused, fun stem hstem hmem => hentry ⟨stem, hstem, hmem⟩, hname,
      fun hout text htext pattern hpattern => ?_⟩
    rw [← Bool.not_eq_true]
    exact fun hmatches => htest ⟨hout, text, htext, pattern, hpattern, hmatches⟩
  · intro hdead
    refine ⟨⟨hdead.unit, hdead.unused⟩, ⟨?_, hdead.noLifecycle⟩, ?_⟩
    · rintro ⟨stem, hstem, hmem⟩
      exact hdead.noEntryPoint stem hstem hmem
    · rintro ⟨hout, text, htext, pattern, hpattern, hmatches⟩
      rw [hdead.noTest hout text htext pattern hpattern] at hmatches
      cases hmatches

/-! ### The order of findings -/

namespace Finding

/-- the confidence, high before medium, then the file path, then the start line -/
def rank (f : Finding) : Nat ×ₗ String ×ₗ Nat :=
  toLex (if f.confidence = .high then 0 else 1, toLex (f.entity.filePath, f.entity.startLine.toNat))

theorem le_iff {f g : Finding} : f.le g = true ↔ f.rank ≤ g.rank := by
  obtain ⟨e, c⟩ := f
  obtain ⟨e', c'⟩ := g
  rw [rank, rank, Prod.Lex.le_iff, Prod.Lex.le_iff]
  cases c <;> cases c' <;> simp [le, Confidence.le, UInt32.le_iff_toNat_le]

theorem trans_le (f g k : Finding) (h : f.le g = true) (h' : g.le k = true) : f.le k = true :=
  le_iff.mpr ((le_iff.mp h).trans (le_iff.mp h'))

theorem total_le (f g : Finding) : (f.le g || g.le f) = true := by
  rw [Bool.or_eq_true, le_iff, le_iff]
  exact le_total _ _

end Finding

/-! ### Reports -/

/-- what is found without a limit -/
structure Lists (o : Options) (t : Tables) (findings : List Finding) : Prop where
  /-- The stored entities that are dead are found, -/
  dead : ∀ e, e ∈ findings.map (·.entity) ↔ (∃ row ∈ t.entityRows, row.read = .ok e) ∧ Dead o t e
  /-- each of them once. -/
  once : (findings.map (·.entity.id)).Nodup
  confidence : ∀ f ∈ findings, f.confidence = .medium ↔ f.entity.Marked
  ordered : findings.Pairwise fun f g => f.rank ≤ g.rank
  /-- Findings of one rank are in the order in which their entities were stored. -/
  level : ∀ rank, ((findings.filter (·.rank = rank)).map (·.entity.id)).Sublist
    (t.entityRows.map (·.id))

/-- what a report says, by the one without a limit -/
structure Exact (o : Options) (t : Tables) (full r : Report) : Prop where
  listed : Lists o t full.findings
  findings : r.findings = match o.limit with
    | some limit => full.findings.take limit
    | none => full.findings
  total : r.total = full.findings.length
  truncated : r.truncated = true ↔ ∃ limit, o.limit = some limit ∧ limit < full.findings.length
  /-- The counts are those of the findings that are reported, -/
  confidences : ∀ c, r.countConfidence c = r.findings.countP (·.confidence = c)
  kinds : ∀ kind, r.countKind kind = r.findings.countP (·.entity.kind = kind)
  /-- and add up to their number. -/
  confidenceSum : (Confidence.all.map r.countConfidence).sum = r.findings.length
  kindSum : (EntityKind.all.map r.countKind).sum = r.findings.length

/-- the findings for the candidates among some entities -/
def ranked (o : Options) (used : List String) (es : List Entity) : List Finding :=
  ((es.filter (isCandidate used (.ofOptions o))).map .ofEntity).mergeSort Finding.le

theorem entities_perm_ranked (o : Options) (used : List String) (es : List Entity) :
    ((ranked o used es).map (·.entity)).Perm (es.filter (isCandidate used (.ofOptions o))) := by
  have h := (List.mergeSort_perm ((es.filter (isCandidate used (.ofOptions o))).map .ofEntity)
    Finding.le).map (·.entity)
  rwa [List.map_map, show (fun f : Finding => f.entity) ∘ Finding.ofEntity = id from rfl,
    List.map_id] at h

theorem lists_ranked {es : List Entity} (hused : referenced t = .ok used)
    (hes : Entities.all t = .ok es) (hids : (t.entityRows.map EntityRow.id).Nodup) :
    Lists o t (ranked o used es) := by
  obtain ⟨rows, hrows, hread⟩ := Tables.bind_eq_ok.mp hes
  have heq := Entities.rows_eq_ok hrows
  subst heq
  have hperm := entities_perm_ranked o used es
  have hstored : es.map Entity.id = t.entityRows.map EntityRow.id :=
    Entities.map_id_of_readAll hread
  have hsub : ((es.filter (isCandidate used (.ofOptions o))).map Entity.id).Sublist
      (t.entityRows.map EntityRow.id) :=
    hstored ▸ List.filter_sublist.map Entity.id
  refine ⟨fun e => ?dead, ?once, fun f hf => ?confidence, ?ordered, fun rank => ?level⟩
  case dead =>
    rw [hperm.mem_iff, List.mem_filter, isCandidate_iff hused]
    refine and_congr_left fun _ => ⟨fun he => ?_, fun ⟨row, hrow, he⟩ => ?_⟩
    · exact exists_of_forall₂_of_mem_right (Entities.readAll_eq_ok hread) he
    · obtain ⟨e', he', hrow'⟩ := exists_of_forall₂_of_mem_left (Entities.readAll_eq_ok hread) hrow
      rwa [Except.ok.inj (he.symm.trans hrow')]
  case once =>
    have h := (hperm.map Entity.id).nodup_iff.mpr (hids.sublist hsub)
    rwa [List.map_map] at h
  case confidence =>
    obtain ⟨e, -, rfl⟩ := List.mem_map.mp (List.mem_mergeSort.mp hf)
    rw [show (Finding.ofEntity e).entity = e from rfl, ← Entity.isExported_iff, Finding.ofEntity]
    cases e.isExported <;> simp
  case ordered =>
    exact (List.pairwise_mergeSort Finding.trans_le Finding.total_le _).imp Finding.le_iff.mp
  case level =>
    have hlevel : ∀ f g : Finding, decide (f.rank = rank) = true → decide (g.rank = rank) = true →
        f.le g = true := by
      intro f g hf hg
      rw [Finding.le_iff, of_decide_eq_true hf, of_decide_eq_true hg]
    rw [ranked, filter_mergeSort Finding.trans_le Finding.total_le hlevel]
    refine (List.filter_sublist.map _).trans ?_
    rw [List.map_map]
    exact hsub

/-- A report shows what there is without a limit, as far as its own limit goes. -/
theorem compute_eq_ok (hids : (t.entityRows.map EntityRow.id).Nodup) (h : compute o t = .ok r) :
    ∃ full, compute { o with limit := none } t = .ok full ∧ Exact o t full r := by
  obtain ⟨used, hused, h⟩ := Tables.bind_eq_ok.mp h
  obtain ⟨es, hes, h⟩ := Tables.bind_eq_ok.mp h
  have hr : r = ⟨match o.limit with
      | some limit => (ranked o used es).take limit
      | none => ranked o used es, (ranked o used es).length⟩ := (Except.ok.inj h).symm
  refine ⟨⟨ranked o used es, (ranked o used es).length⟩, ?_, ?_⟩
  · rw [compute, hused]
    show Entities.all t >>= _ = _
    rw [hes]
    rfl
  · have htruncated : r.truncated = true ↔
        ∃ limit, o.limit = some limit ∧ limit < (ranked o used es).length := by
      rw [Report.truncated, decide_eq_true_iff, hr]
      cases o.limit with
      | none => simp
      | some limit =>
        show ((ranked o used es).take limit).length < (ranked o used es).length ↔ _
        rw [List.length_take]
        constructor
        · intro hlt
          exact ⟨limit, rfl, by omega⟩
        · rintro ⟨k, hk, hlt⟩
          cases hk
          omega
    exact
      { listed := lists_ranked hused hes hids
        findings := by rw [hr]
        total := by rw [hr]
        truncated := htruncated
        confidences := fun c => by
          rw [Report.countConfidence, List.countP_eq_length_filter]
          rfl
        kinds := fun kind => by
          rw [Report.countKind, List.countP_eq_length_filter]
          rfl
        confidenceSum := sum_length_filter_eq_length (by decide) Finding.confidence r.findings
          fun f _ => by cases f.confidence <;> decide
        kindSum := sum_length_filter_eq_length (by decide) (fun f : Finding => f.entity.kind)
          r.findings fun f _ => by cases f.entity.kind <;> decide }

theorem exists_compute (h : t.HoldsGraph) (o : Options) : ∃ r, compute o t = .ok r := by
  obtain ⟨rs, hrs⟩ := Relationships.exists_byKinds h RelationshipKind.usages
  obtain ⟨es, hes⟩ := Entities.exists_readAll h (List.Subset.refl t.entityRows)
  have hused : referenced t = .ok (rs.map (·.targetId)) := by
    rw [referenced, hrs]
    rfl
  have hall : Entities.all t = .ok es := by
    rw [Entities.all, Entities.exists_rows h]
    exact hes
  rw [compute, hused]
  show ∃ r, Entities.all t >>= _ = .ok r
  rw [hall]
  exact ⟨_, rfl⟩

/-- **Dead code is what nothing uses.** In every state of every script a search for dead code changes
nothing, and its report is exact. With the tables of the graph in place there always is one. -/
theorem find_exact (migrated : Bool) (p : Script) (state : Database)
    (h : state ∈ p.visited (Database.opened migrated)) (options : Options) :
    (state.tables.entities.isSome = true → state.tables.relationships.isSome = true →
      ∃ r, (find options).runOn state = (.ok r, state)) ∧
    ∀ r after, (find options).runOn state = (.ok r, after) → after = state ∧
      ∃ full, (find { options with limit := none }).runOn state = (.ok full, state) ∧
        Exact options state.tables full r := by
  have hsound := (p.visited_sound (Database.opened_sound migrated) state h).tables
  have hfind : ∀ o : Options, (find o).runOn state = (compute o state.tables, state) := fun o =>
    StoreM.runOn_snapshot_query _ _
  rw [hfind, hfind]
  refine ⟨fun hents hrels => ?_, fun r after hrun => ?_⟩
  · obtain ⟨r, hr⟩ := exists_compute (hsound.holdsGraph hents hrels) options
    exact ⟨r, by rw [hr]⟩
  · obtain ⟨hr, hafter⟩ := Prod.mk.inj hrun
    obtain ⟨full, hfull, hexact⟩ := compute_eq_ok hsound.distinctIds hr
    exact ⟨hafter.symm, full, by rw [hfull], hexact⟩

/-- stores a function that calls another one, a third one in an entry point, a fourth one in a test,
and a method of a name that frameworks call -/
def storingUnused : Script :=
  .call (.resolve
    [⟨.function, "f", "/b.ts", 1, 2, "typescript", none⟩,
      ⟨.function, "g", "/a.ts", 1, 2, "typescript", none⟩,
      ⟨.function, "start", "/index.ts", 1, 2, "typescript", none⟩,
      ⟨.function, "check", "/b.test.ts", 1, 2, "typescript", none⟩,
      ⟨.method, "render", "/b.ts", 3, 4, "typescript", none⟩]
    [⟨.calls, "f", "g", some "/b.ts", some "/a.ts", none⟩])

/-- Of the five, one is dead code, and a limit of zero hides it. -/
theorem find_exact_unused : ∃ state ∈ storingUnused.visited (Database.opened true), ∃ full r,
    (find { limit := some 0 }).runOn state = (.ok r, state) ∧
      full.findings.map (·.entity.name) = ["f"] ∧ r.findings = [] ∧ r.total = 1 ∧
      r.truncated = true ∧ Exact { limit := some 0 } state.tables full r := by
  have hmem := storingUnused.final_mem_visited (Database.opened true)
  obtain ⟨hexists, hexact⟩ := find_exact true storingUnused _ hmem { limit := some 0 }
  obtain ⟨r, hr⟩ := hexists (by rw [Database.opened_true]; decide +kernel)
    (by rw [Database.opened_true]; decide +kernel)
  obtain ⟨-, full, hfull, hexact⟩ := hexact r _ hr
  have hnames : ((find {}).runOn (storingUnused.run.runOn (Database.opened true)).2).1.map
      (fun full => full.findings.map (·.entity.name)) = .ok ["f"] := by
    rw [Database.opened_true]
    decide +kernel
  rw [show find {} = find { ({ limit := some 0 } : Options) with limit := none } from rfl, hfull]
    at hnames
  have hnames : full.findings.map (·.entity.name) = ["f"] := Except.ok.inj hnames
  have hlength : full.findings.length = 1 := by
    rw [← List.length_map, hnames]
    rfl
  refine ⟨_, hmem, full, r, hr, hnames, hexact.findings, ?_, ?_, hexact⟩
  · rw [hexact.total, hlength]
  · rw [hexact.truncated, hlength]
    exact ⟨0, rfl, Nat.zero_lt_one⟩

end DeadCode

end CodeAtlas
