import CodeAtlas.Query.Calls
import CodeAtlas.Proofs.Integrity
import CodeAtlas.Proofs.Query.Summary
import CodeAtlas.Proofs.Store.EdgeBatches
import CodeAtlas.Proofs.Store.Order

/-!
# Callers and callees

Both questions scan the entities of a name, and the calls at each of them. What is found are the far
ends of these calls, in the order in which the scan first comes to them, so the two questions mirror
each other.

* `scan`               the ids that a scan comes to, repetitions included;
* `lookUpNew_eq_ok`    what looking up ids gives, and which ids it makes known;
* `follow_eq_ok`       what following the calls of entities gives, entity after entity;
* `Exact`              what an answer lists;
* `Exact.mirror`       an answer to one question, in an answer to the other;
* `ask_exact`          every answer is exact, and the two questions mirror each other.
-/

namespace CodeAtlas.Calls

variable {t : Tables} {n : Nat} {d : Direction} {name : String} {seen seen' ids : List String}
  {starts found : List Entity}

namespace Direction

def opposite : Direction → Direction
  | .toCallers => .toCallees
  | .toCallees => .toCallers

/-- the question that a direction stands for -/
def ask : Direction → String → StoreM (List Entity)
  | .toCallers => callers
  | .toCallees => callees

def nearId : Direction → RelationshipRow → String
  | .toCallers, r => r.targetId
  | .toCallees, r => r.sourceId

def farId : Direction → RelationshipRow → String
  | .toCallers, r => r.sourceId
  | .toCallees, r => r.targetId

/-- `far` is one call away from `near` -/
def Joins (d : Direction) (t : Tables) (near far : String) : Prop :=
  ∃ r ∈ t.relationshipRows, r.kind = "calls" ∧ d.nearId r = near ∧ d.farId r = far

theorem joins_toCallers {near far : String} :
    Joins .toCallers t near far ↔ t.HasEdge far near "calls" :=
  ⟨fun ⟨r, hr, hkind, hnear, hfar⟩ => ⟨r, hr, hfar, hnear, hkind⟩,
    fun ⟨r, hr, hfar, hnear, hkind⟩ => ⟨r, hr, hkind, hnear, hfar⟩⟩

theorem joins_toCallees {near far : String} :
    Joins .toCallees t near far ↔ t.HasEdge near far "calls" :=
  ⟨fun ⟨r, hr, hkind, hnear, hfar⟩ => ⟨r, hr, hnear, hfar, hkind⟩,
    fun ⟨r, hr, hnear, hfar, hkind⟩ => ⟨r, hr, hkind, hnear, hfar⟩⟩

theorem joins_opposite {near far : String} :
    d.opposite.Joins t near far ↔ d.Joins t far near := by
  cases d with
  | toCallers => exact joins_toCallees.trans joins_toCallers.symm
  | toCallees => exact joins_toCallers.trans joins_toCallees.symm

theorem ask_runOn (d : Direction) (name : String) (db : Database) :
    (d.ask name).runOn db = (neighbours d name db.tables, db) := by
  cases d <;> exact StoreM.runOn_snapshot_query _ _

end Direction

/-! ### The calls at one entity -/

/-- the far ends of the calls at an id, in the order of their insertion -/
def callsAt (d : Direction) (t : Tables) (id : String) : List String :=
  (t.relationshipRows.filter fun r => r.kind == "calls" && d.nearId r == id).map d.farId

theorem mem_callsAt {id far : String} : far ∈ callsAt d t id ↔ d.Joins t id far := by
  rw [callsAt, List.mem_map]
  refine exists_congr fun r => ?_
  rw [List.mem_filter, Bool.and_eq_true, beq_iff_eq, beq_iff_eq, and_assoc, and_assoc]

theorem exists_row_of_joins (h : t.Sound n) {near far : String} (hjoins : d.Joins t near far) :
    ∃ row ∈ t.entityRows, row.id = far := by
  obtain ⟨r, hr, -, -, rfl⟩ := hjoins
  obtain ⟨hs, ht⟩ := h.ends r hr
  cases d with
  | toCallers => exact List.mem_map.mp hs
  | toCallees => exact List.mem_map.mp ht

theorem map_filter_of_forall₂ {α β γ : Type} {R : α → β → Prop} {p : α → Bool} {q : β → Bool}
    {f : α → γ} {g : β → γ} {xs : List α} {ys : List β} (h : List.Forall₂ R xs ys)
    (hR : ∀ x ∈ xs, ∀ y, R x y → q y = p x ∧ g y = f x) :
    (ys.filter q).map g = (xs.filter p).map f := by
  induction h with
  | nil => rfl
  | @cons x y xs ys hxy _ ih =>
    obtain ⟨hq, hg⟩ := hR x List.mem_cons_self y hxy
    have ih := ih fun x hx => hR x (List.mem_cons_of_mem _ hx)
    rw [List.filter_cons, List.filter_cons, hq]
    split
    · rw [List.map_cons, List.map_cons, hg, ih]
    · exact ih

theorem edges_eq_select (d : Direction) (id : String) :
    d.edges id t = Relationships.select (fun r => d.nearId r == id) t := by
  cases d <;> rfl

theorem farEnds_eq_ok (h : t.Sound n) {id : String} (hids : farEnds d id t = .ok ids) :
    ids = callsAt d t id := by
  obtain ⟨rs, hrs, hids⟩ := Tables.bind_eq_ok.mp hids
  rw [edges_eq_select] at hrs
  have hread : ∀ row ∈ t.relationshipRows.filter (d.nearId · == id), ∀ r : Relationship,
      row.read = .ok r → (r.kind == .calls) = (row.kind == "calls") ∧ d.farEnd r = d.farId row := by
    intro row hrow r hr
    obtain ⟨hs, ht, hkind⟩ := RelationshipRow.read_eq_ok hr
    obtain ⟨e, rfl⟩ := h.relationship row (List.mem_filter.mp hrow).1
    rw [show (RelationshipRow.ofRelationship e).kind = e.kind.name from rfl,
      RelationshipKind.parse?_name] at hkind
    refine ⟨?_, by cases d <;> assumption⟩
    rw [← Option.some.inj hkind]
    show (e.kind == .calls) = (e.kind.name == RelationshipKind.name .calls)
    cases e.kind <;> rfl
  have heq : ids = (rs.filter (·.kind == .calls)).map d.farEnd := (Except.ok.inj hids).symm
  rw [heq, map_filter_of_forall₂ (Relationships.select_eq_ok hrs) hread, List.filter_filter]
  rfl

theorem exists_farEnds (h : t.HoldsGraph) (d : Direction) (id : String) :
    ∃ ids, farEnds d id t = .ok ids := by
  obtain ⟨rs, hrs⟩ := Relationships.exists_select h (d.nearId · == id)
  refine ⟨(rs.filter (·.kind == .calls)).map d.farEnd, ?_⟩
  rw [farEnds, edges_eq_select, hrs]
  rfl

/-! ### Looking up -/

/-- One stored id is passed over if it was met before, and looked up otherwise. -/
theorem lookUpNew_cons_eq_ok {first : String} (hrow : ∃ row ∈ t.entityRows, row.id = first)
    (h : lookUpNew t seen (first :: ids) = .ok (found, seen')) :
    first ∈ seen ∧ lookUpNew t seen ids = .ok (found, seen') ∨
      first ∉ seen ∧ ∃ e more, (∃ row ∈ t.entityRows, row.read = .ok e) ∧ e.id = first ∧
        lookUpNew t (first :: seen) ids = .ok (more, seen') ∧ found = e :: more := by
  rw [lookUpNew] at h
  by_cases hfirst : first ∈ seen
  · rw [if_pos (List.contains_iff_mem.mpr hfirst)] at h
    exact .inl ⟨hfirst, h⟩
  · rw [if_neg (mt List.contains_iff_mem.mp hfirst)] at h
    obtain ⟨e?, he, h⟩ := Tables.bind_eq_ok.mp h
    obtain ⟨⟨more, seen''⟩, hmore, h⟩ := Tables.bind_eq_ok.mp h
    cases e? with
    | none =>
      obtain ⟨row, hrow, hid⟩ := hrow
      exact absurd hid (Entities.find?_eq_none he row hrow)
    | some e =>
      obtain ⟨row, hrow, hid, hr⟩ := Entities.find?_eq_some he
      cases h
      exact .inr ⟨hfirst, e, more, ⟨row, hrow, hr⟩, (EntityRow.read_eq_ok hr).1.trans hid, hmore, rfl⟩

/-- Ids are looked up when they are first met. -/
theorem lookUpNew_eq_ok (hrows : ∀ id ∈ ids, ∃ row ∈ t.entityRows, row.id = id)
    (h : lookUpNew t seen ids = .ok (found, seen')) :
    found.map (·.id) = (ids.filter fun id => !seen.contains id).eraseDups ∧
      (∀ e ∈ found, ∃ row ∈ t.entityRows, row.read = .ok e) ∧
      ∀ id, id ∈ seen' ↔ id ∈ seen ∨ id ∈ ids := by
  induction ids generalizing seen found seen' with
  | nil =>
    cases h
    exact ⟨rfl, nofun, fun id => by simp⟩
  | cons first rest ih =>
    obtain ⟨hfirst, hrest⟩ := List.forall_mem_cons.mp hrows
    rcases lookUpNew_cons_eq_ok hfirst h with
      ⟨hseen, hlater⟩ | ⟨hnew, e, more, hread, rfl, hlater, rfl⟩
    · obtain ⟨hids, hread, hmem⟩ := ih hrest hlater
      refine ⟨?_, hread, fun id => ?_⟩
      · rw [List.filter_cons_of_neg (by simpa using hseen), hids]
      · rw [hmem, List.mem_cons]
        refine or_congr_right' fun hid => (or_iff_right ?_).symm
        rintro rfl
        exact hid hseen
    · obtain ⟨hids, hreads, hmem⟩ := ih hrest hlater
      refine ⟨?_, List.forall_mem_cons.mpr ⟨hread, hreads⟩, fun id => ?_⟩
      · have hkept : (rest.filter fun id => !(e.id :: seen).contains id) =
            (rest.filter fun id => !seen.contains id).filter fun id => !id == e.id := by
          rw [List.filter_filter]
          refine List.filter_congr fun id _ => ?_
          rw [List.contains_cons, Bool.not_or]
        rw [List.filter_cons_of_pos (by simpa using hnew), List.eraseDups_cons, ← hkept, ← hids]
        rfl
      · rw [hmem, List.mem_cons, List.mem_cons, or_assoc, or_left_comm]

theorem exists_lookUpNew (h : t.HoldsGraph) (seen ids : List String) :
    ∃ r, lookUpNew t seen ids = .ok r := by
  induction ids generalizing seen with
  | nil => exact ⟨_, rfl⟩
  | cons first rest ih =>
    rw [lookUpNew]
    split
    · exact ih seen
    · obtain ⟨e?, he⟩ := Entities.exists_find? h first
      obtain ⟨r, hr⟩ := ih (first :: seen)
      rw [he]
      show ∃ r, (lookUpNew t (first :: seen) rest >>= _) = Except.ok r
      rw [hr]
      exact ⟨_, rfl⟩

/-! ### Scanning -/

/-- the far ends of the calls at some entities, entity after entity -/
def scan (d : Direction) (t : Tables) (starts : List Entity) : List String :=
  starts.flatMap fun start => callsAt d t start.id

theorem mem_scan {far : String} :
    far ∈ scan d t starts ↔ ∃ start ∈ starts, d.Joins t start.id far := by
  simp only [scan, List.mem_flatMap, mem_callsAt]

theorem follow_eq_ok (hsound : t.Sound n) (h : follow d t seen starts = .ok found) :
    found.map (·.id) = ((scan d t starts).filter fun id => !seen.contains id).eraseDups ∧
      ∀ e ∈ found, ∃ row ∈ t.entityRows, row.read = .ok e := by
  induction starts generalizing seen found with
  | nil =>
    cases h
    exact ⟨rfl, nofun⟩
  | cons start rest ih =>
    obtain ⟨ids, hids, h⟩ := Tables.bind_eq_ok.mp h
    obtain rfl := farEnds_eq_ok hsound hids
    obtain ⟨⟨first, seen'⟩, hfirst, h⟩ := Tables.bind_eq_ok.mp h
    obtain ⟨more, hmore, h⟩ := Tables.bind_eq_ok.mp h
    cases h
    obtain ⟨hfirstIds, hfirstRead, hseen⟩ := lookUpNew_eq_ok
      (fun id hid => exists_row_of_joins hsound (mem_callsAt.mp hid)) hfirst
    obtain ⟨hmoreIds, hmoreRead⟩ := ih hmore
    refine ⟨?_, fun e he => (List.mem_append.mp he).elim (hfirstRead e) (hmoreRead e)⟩
    have hkept : ((scan d t rest).filter fun id => !seen'.contains id) =
        ((scan d t rest).filter fun id => !seen.contains id).removeAll
          ((callsAt d t start.id).filter fun id => !seen.contains id) := by
      rw [List.removeAll, List.filter_filter]
      refine List.filter_congr fun id _ => Bool.eq_iff_iff.mpr ?_
      simp only [Bool.and_eq_true, Bool.not_eq_true', ← Bool.not_eq_true, List.contains_iff_mem,
        List.mem_filter, hseen]
      tauto
    rw [List.map_append, hfirstIds, hmoreIds, hkept, ← List.eraseDups_append, ← List.filter_append]
    rfl

theorem exists_follow (h : t.HoldsGraph) (d : Direction) (seen : List String)
    (starts : List Entity) : ∃ found, follow d t seen starts = .ok found := by
  induction starts generalizing seen with
  | nil => exact ⟨_, rfl⟩
  | cons start rest ih =>
    obtain ⟨ids, hids⟩ := exists_farEnds h d start.id
    obtain ⟨⟨first, seen'⟩, hfirst⟩ := exists_lookUpNew h seen ids
    obtain ⟨more, hmore⟩ := ih seen'
    refine ⟨first ++ more, ?_⟩
    rw [follow, hids]
    show (lookUpNew t seen ids >>= _) = _
    rw [hfirst]
    show (follow d t seen' rest >>= _) = _
    rw [hmore]
    rfl

/-! ### Answers -/

/-- What an answer lists. -/
structure Exact (d : Direction) (t : Tables) (name : String) (found : List Entity) : Prop where
  /-- The stored entities that are one call away from an entity of the name, -/
  mem : ∀ e, e ∈ found ↔ (∃ row ∈ t.entityRows, row.read = .ok e) ∧
    ∃ row ∈ t.entityRows, row.name = name ∧ d.Joins t row.id e.id
  /-- each of them once, -/
  once : (found.map (·.id)).Nodup
  /-- in the order in which a scan of the entities of the name, sorted by place, comes to them. -/
  order : ∃ starts, Entities.Listed t name starts ∧
    found.map (·.id) = (scan d t starts).eraseDups

theorem neighbours_eq_ok (hsound : t.Sound n) (h : neighbours d name t = .ok found) :
    Exact d t name found := by
  obtain ⟨starts, hstarts, h⟩ := Tables.bind_eq_ok.mp h
  have hlisted := Entities.byName_listed hsound.distinctIds hstarts
  obtain ⟨hids, hread⟩ := follow_eq_ok hsound h
  rw [show (scan d t starts).filter (fun id => !([] : List String).contains id) = scan d t starts
    from List.filter_eq_self.mpr fun _ _ => rfl] at hids
  have hjoined : ∀ id, id ∈ found.map (·.id) ↔
      ∃ row ∈ t.entityRows, row.name = name ∧ d.Joins t row.id id := by
    intro id
    rw [hids, List.mem_eraseDups, mem_scan]
    constructor
    · rintro ⟨start, hstart, hjoins⟩
      obtain ⟨⟨row, hrow, hr⟩, hname⟩ := (hlisted.mem start).mp hstart
      obtain ⟨hid, hname', -⟩ := EntityRow.read_eq_ok hr
      exact ⟨row, hrow, hname'.symm.trans hname, hid ▸ hjoins⟩
    · rintro ⟨row, hrow, hname, hjoins⟩
      obtain ⟨start, hstart, hr⟩ := Entities.exists_mem_of_byName hstarts hrow hname
      exact ⟨start, hstart, (EntityRow.read_eq_ok hr).1 ▸ hjoins⟩
  refine ⟨fun e => ⟨fun he => ⟨hread e he, ?_⟩, ?_⟩, ?_, starts, hlisted, hids⟩
  · exact (hjoined e.id).mp (List.mem_map_of_mem he)
  · rintro ⟨hstored, hjoins⟩
    obtain ⟨e', he', hid⟩ := List.mem_map.mp ((hjoined e.id).mpr hjoins)
    exact Entities.eq_of_read hsound.distinctIds hstored (hread e' he') hid.symm ▸ he'
  · rw [hids]
    exact nodup_eraseDups _

theorem exists_neighbours (h : t.HoldsGraph) (d : Direction) (name : String) :
    ∃ found, neighbours d name t = .ok found := by
  obtain ⟨starts, hstarts⟩ := Entities.exists_byName h name
  obtain ⟨found, hfound⟩ := exists_follow h d [] starts
  exact ⟨found, by rw [neighbours, hstarts]; exact hfound⟩

/-- What is found at one end of a call finds the other end. -/
theorem Exact.mirror {back : List Entity} {e : Entity} (h : Exact d t name found) (he : e ∈ found)
    (hback : Exact d.opposite t e.name back)
    (hread : ∀ row ∈ t.entityRows, row.name = name → ∃ near, row.read = .ok near) :
    ∃ near ∈ back, near.name = name := by
  obtain ⟨⟨row, hrow, hr⟩, near, hnear, hname, hjoins⟩ := (h.mem e).mp he
  obtain ⟨start, hstart⟩ := hread near hnear hname
  obtain ⟨hid, hname', -⟩ := EntityRow.read_eq_ok hr
  obtain ⟨hstartId, hstartName, -⟩ := EntityRow.read_eq_ok hstart
  refine ⟨start, (hback.mem start).mpr ⟨⟨near, hnear, hstart⟩, row, hrow, hname'.symm, ?_⟩,
    hstartName.trans hname⟩
  rw [Direction.joins_opposite, ← hid, hstartId]
  exact hjoins

/-- **Callers and callees mirror each other.** In every state of every script both questions change
nothing, and their answers are exact: who is found at one end of a call finds the other end. With the
tables of the graph in place there always is an answer. -/
theorem ask_exact (migrated : Bool) (p : Script) (state : Database)
    (h : state ∈ p.visited (Database.opened migrated)) (d : Direction) (name : String) :
    (state.tables.entities.isSome = true → state.tables.relationships.isSome = true →
      ∃ found, (d.ask name).runOn state = (.ok found, state)) ∧
    ∀ found after, (d.ask name).runOn state = (.ok found, after) →
      after = state ∧ Exact d state.tables name found ∧
        ∀ e ∈ found, ∀ back after', (d.opposite.ask e.name).runOn state = (.ok back, after') →
          ∃ near ∈ back, near.name = name := by
  have hsound := (p.visited_sound (Database.opened_sound migrated) state h).tables
  refine ⟨fun hents hrels => ?_, fun found after hrun => ?_⟩
  · obtain ⟨found, hfound⟩ := exists_neighbours (hsound.holdsGraph hents hrels) d name
    exact ⟨found, by rw [Direction.ask_runOn, hfound]⟩
  · rw [Direction.ask_runOn] at hrun
    obtain ⟨hfound, hafter⟩ := Prod.mk.inj hrun
    have hexact := neighbours_eq_ok hsound hfound
    refine ⟨hafter.symm, hexact, fun e he back after' hback => ?_⟩
    rw [Direction.ask_runOn] at hback
    refine hexact.mirror he (neighbours_eq_ok hsound (Prod.mk.inj hback).1) fun row hrow hname => ?_
    obtain ⟨starts, hstarts, -⟩ := Tables.bind_eq_ok.mp hfound
    obtain ⟨near, -, hr⟩ := Entities.exists_mem_of_byName hstarts hrow hname
    exact ⟨near, hr⟩

/-- stores a function that calls itself, and one that imports and calls it -/
def storingRecursion : Script :=
  .call (.resolve
    [⟨.function, "f", "/a.ts", 1, 2, "typescript", none⟩,
      ⟨.function, "g", "/b.ts", 1, 2, "typescript", none⟩]
    [⟨.imports, "g", "f", some "/b.ts", some "/a.ts", none⟩,
      ⟨.calls, "f", "f", some "/a.ts", some "/a.ts", none⟩,
      ⟨.calls, "g", "f", some "/b.ts", some "/a.ts", none⟩])

/-- The import does not count, and the function is its own caller. -/
theorem ask_exact_recursion : ∃ state ∈ storingRecursion.visited (Database.opened true), ∃ found,
    (callers "f").runOn state = (.ok found, state) ∧
      found.map (fun e => (e.name, e.filePath)) = [("f", "/a.ts"), ("g", "/b.ts")] ∧
      Exact .toCallers state.tables "f" found ∧
      ∀ e ∈ found, ∀ back after, (callees e.name).runOn state = (.ok back, after) →
        ∃ near ∈ back, near.name = "f" := by
  have hmem := storingRecursion.final_mem_visited (Database.opened true)
  obtain ⟨hexists, hexact⟩ := ask_exact true storingRecursion _ hmem .toCallers "f"
  obtain ⟨found, hfound⟩ := hexists (by rw [Database.opened_true]; decide +kernel)
    (by rw [Database.opened_true]; decide +kernel)
  obtain ⟨-, hexact, hmirror⟩ := hexact found _ hfound
  have hnames : ((callers "f").runOn (storingRecursion.run.runOn (Database.opened true)).2).1.map
      (fun found => found.map fun e => (e.name, e.filePath)) =
      .ok [("f", "/a.ts"), ("g", "/b.ts")] := by
    rw [Database.opened_true]
    decide +kernel
  refine ⟨_, hmem, found, hfound, ?_, hexact, hmirror⟩
  rw [show callers "f" = Direction.toCallers.ask "f" from rfl, hfound] at hnames
  exact Except.ok.inj hnames

end CodeAtlas.Calls
