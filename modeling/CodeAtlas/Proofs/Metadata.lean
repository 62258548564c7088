import Mathlib.Data.String.Basic
import CodeAtlas.Metadata
import CodeAtlas.Proofs.Json.Reading
import CodeAtlas.Proofs.Json.RoundTrip

/-!
# Metadata as it is stored

A map is stored as JSON text. What the text is read as has the shape of the map, and in the place of
each number the one that the number's text stands for.

* `Metadata.ofEntries_eq_self`   entries in order are put together as they are;
* `MetadataValue.Ordered`        maps are in order, however deep they stand;
* `MetadataValue.mapNumbers?`    a value with its numbers replaced;
* `Metadata.decode_encode`       what a stored map is read as;
* `Metadata.decode_encode_eq_some_iff`, `Metadata.decode_encode_eq_none_iff`   when that is the map
                                 itself, and when it is nothing;
* `Metadata.ordered_of_decode`   what is read from any text could have been stored.
-/

namespace CodeAtlas

namespace Metadata

variable {α : Type} {key : String} {value : α} {es m : List (String × α)}

/-! ### Maps in order -/

/-- keys ascend, and none of them comes twice -/
def KeysAscend (es : List (String × α)) : Prop := es.Pairwise fun e e' => e.1 < e'.1

theorem mem_insert {e : String × α} (h : e ∈ insert key value m) : e = (key, value) ∨ e ∈ m := by
  induction m with
  | nil => exact .inl (List.mem_singleton.mp h)
  | cons first rest ih =>
    unfold insert at h
    split at h
    · exact List.mem_cons.mp h
    · split at h
      · exact (List.mem_cons.mp h).imp_right (List.mem_cons_of_mem first)
      · rcases List.mem_cons.mp h with rfl | h
        · exact .inr List.mem_cons_self
        · exact (ih h).imp_right (List.mem_cons_of_mem first)

theorem keysAscend_insert (h : KeysAscend m) (key : String) (value : α) :
    KeysAscend (insert key value m) := by
  induction m with
  | nil => exact List.pairwise_singleton _ _
  | cons first rest ih =>
    obtain ⟨hfirst, hrest⟩ := List.pairwise_cons.mp h
    unfold insert
    split
    · rename_i hlt
      refine List.pairwise_cons.mpr ⟨fun e he => ?_, h⟩
      rcases List.mem_cons.mp he with rfl | he
      · exact hlt
      · exact hlt.trans (hfirst e he)
    · rename_i hlt
      split
      · rename_i heq
        exact List.pairwise_cons.mpr ⟨fun e he => heq ▸ hfirst e he, hrest⟩
      · rename_i hne
        refine List.pairwise_cons.mpr ⟨fun e he => ?_, ih hrest⟩
        rcases mem_insert he with rfl | he
        · exact lt_of_le_of_ne (not_lt.mp hlt) (Ne.symm hne)
        · exact hfirst e he

/-- A key after all others goes to the end. -/
theorem insert_eq_append (h : ∀ e ∈ m, e.1 < key) : insert key value m = m ++ [(key, value)] := by
  induction m with
  | nil => rfl
  | cons first rest ih =>
    obtain ⟨hfirst, hrest⟩ := List.forall_mem_cons.mp h
    unfold insert
    rw [if_neg (lt_asymm hfirst), if_neg (ne_of_gt hfirst), ih hrest, List.cons_append]

theorem foldl_insert_eq_append (h : KeysAscend (m ++ es)) :
    es.foldl (fun m (k, v) => insert k v m) m = m ++ es := by
  induction es generalizing m with
  | nil => exact (List.append_nil m).symm
  | cons e es ih =>
    obtain ⟨k, v⟩ := e
    have hlast : ∀ e ∈ m, e.1 < k := fun e he =>
      (List.pairwise_append.mp h).2.2 e he (k, v) List.mem_cons_self
    rw [List.append_cons] at h
    show es.foldl _ (insert k v m) = _
    rw [insert_eq_append hlast, ih h, List.append_assoc, List.singleton_append]

theorem ofEntries_eq_self (h : KeysAscend es) : ofEntries es = es := foldl_insert_eq_append h

theorem foldl_insert (hm : KeysAscend m) (es : List (String × α)) :
    KeysAscend (es.foldl (fun m (k, v) => insert k v m) m) ∧
      ∀ e ∈ es.foldl (fun m (k, v) => insert k v m) m, e ∈ m ∨ e ∈ es := by
  induction es generalizing m with
  | nil => exact ⟨hm, fun e he => .inl he⟩
  | cons first rest ih =>
    obtain ⟨hkeys, hmem⟩ := ih (keysAscend_insert hm first.1 first.2)
    refine ⟨hkeys, fun e he => ?_⟩
    rcases hmem e he with he | he
    · rcases mem_insert he with rfl | he
      · exact .inr List.mem_cons_self
      · exact .inl he
    · exact .inr (List.mem_cons_of_mem first he)

theorem keysAscend_ofEntries (es : List (String × α)) : KeysAscend (ofEntries es) :=
  (foldl_insert List.Pairwise.nil es).1

theorem ofEntries_subset (es : List (String × α)) : ofEntries es ⊆ es := fun e he =>
  ((foldl_insert List.Pairwise.nil es).2 e he).resolve_left List.not_mem_nil

end Metadata

namespace MetadataValue

/-- maps are in order, however deep they stand -/
inductive Ordered : MetadataValue → Prop
  | bool (b : Bool) : Ordered (.bool b)
  | number (x : Binary64) : Ordered (.number x)
  | string (s : String) : Ordered (.string s)
  | list {items : List MetadataValue} (hitems : ∀ v ∈ items, Ordered v) : Ordered (.list items)
  | map {entries : List (String × MetadataValue)} (hkeys : Metadata.KeysAscend entries)
    (hentries : ∀ e ∈ entries, Ordered e.2) : Ordered (.map entries)

/-! ### Numbers -/

/-- what the text of a number stands for, if it is a number -/
def reread? (x : Binary64) : Option Binary64 :=
  match (Json.Number.float x).readBack with
  | .number n => some (ofNumber n)
  | _ => none

theorem ofNumber_isFinite {n : Json.Number} (h : n.InRange) : (ofNumber n).isFinite = true := by
  cases n with
  | integer n =>
    have hle : (Binary64.ofNat n.natAbs).rank ≤ (Binary64.ofNat Json.Numeral.maxSignificand).rank :=
      Binary64.ofNat_rank_mono h
    have hrank : (Binary64.ofInt n).rank = (Binary64.ofNat n.natAbs).rank := by
      rw [Binary64.ofInt, Binary64.ofNat, Binary64.rank_ofRank, Binary64.rank_ofRank]
    exact Json.Numeral.isFinite_of_rank_le (hrank ▸ hle) (by decide +kernel)
  | float x => exact h

/-- What is no finite number is written as null, and every other text stands for a number. -/
theorem reread?_eq_none_iff {x : Binary64} : reread? x = none ↔ x.isFinite = false := by
  unfold reread?
  cases hfinite : x.isFinite with
  | true =>
    obtain ⟨n, hn⟩ := Json.Number.exists_readBack hfinite
    rw [hn]
    exact ⟨nofun, nofun⟩
  | false =>
    have htext : (Json.Number.float x).text = ['n', 'u', 'l', 'l'] :=
      Decimal.text_of_not_finite hfinite
    unfold Json.Number.readBack
    rw [htext]
    exact ⟨fun _ => rfl, fun _ => rfl⟩

mutual

/-- the numbers in a value, in their order -/
def numbers : MetadataValue → List Binary64
  | .bool _ => []
  | .number x => [x]
  | .string _ => []
  | .list items => numbersItems items
  | .map entries => numbersEntries entries

def numbersItems : List MetadataValue → List Binary64
  | [] => []
  | v :: rest => v.numbers ++ numbersItems rest

def numbersEntries : List (String × MetadataValue) → List Binary64
  | [] => []
  | (_, v) :: rest => v.numbers ++ numbersEntries rest

end

section Replacing

variable (f : Binary64 → Option Binary64)

mutual

/-- the value with its numbers replaced, if there is something in the place of each of them -/
def mapNumbers? : MetadataValue → Option MetadataValue
  | .bool b => some (.bool b)
  | .number x => (f x).map .number
  | .string s => some (.string s)
  | .list items => (mapItems? items).map .list
  | .map entries => (mapEntries? entries).map .map

def mapItems? : List MetadataValue → Option (List MetadataValue)
  | [] => some []
  | v :: rest => do return (← v.mapNumbers?) :: (← mapItems? rest)

def mapEntries? : List (String × MetadataValue) → Option (List (String × MetadataValue))
  | [] => some []
  | (k, v) :: rest => do return (k, ← v.mapNumbers?) :: (← mapEntries? rest)

end

/-! A replacement keeps a value as it is if it keeps every number in it, and it fails if it fails for
one of them. -/

mutual

theorem mapNumbers?_eq_self : ∀ v : MetadataValue,
    v.mapNumbers? f = some v ↔ ∀ x ∈ v.numbers, f x = some x
  | .bool _ => ⟨fun _ => nofun, fun _ => rfl⟩
  | .number x => by
    rw [mapNumbers?, numbers, List.forall_mem_singleton, Option.map_eq_some_iff]
    exact ⟨fun ⟨_, hx, heq⟩ => MetadataValue.number.inj heq ▸ hx, fun hx => ⟨x, hx, rfl⟩⟩
  | .string _ => ⟨fun _ => nofun, fun _ => rfl⟩
  | .list items => by
    rw [mapNumbers?, numbers, Option.map_eq_some_iff, ← mapItems?_eq_self items]
    exact ⟨fun ⟨_, h, heq⟩ => MetadataValue.list.inj heq ▸ h, fun h => ⟨items, h, rfl⟩⟩
  | .map entries => by
    rw [mapNumbers?, numbers, Option.map_eq_some_iff, ← mapEntries?_eq_self entries]
    exact ⟨fun ⟨_, h, heq⟩ => MetadataValue.map.inj heq ▸ h, fun h => ⟨entries, h, rfl⟩⟩

theorem mapItems?_eq_self : ∀ vs : List MetadataValue,
    mapItems? f vs = some vs ↔ ∀ x ∈ numbersItems vs, f x = some x
  | [] => ⟨fun _ => nofun, fun _ => rfl⟩
  | v :: vs => by
    rw [mapItems?, numbersItems, List.forall_mem_append, ← mapNumbers?_eq_self v,
      ← mapItems?_eq_self vs]
    cases v.mapNumbers? f <;> cases mapItems? f vs <;> simp

theorem mapEntries?_eq_self : ∀ es : List (String × MetadataValue),
    mapEntries? f es = some es ↔ ∀ x ∈ numbersEntries es, f x = some x
  | [] => ⟨fun _ => nofun, fun _ => rfl⟩
  | (k, v) :: es => by
    rw [mapEntries?, numbersEntries, List.forall_mem_append, ← mapNumbers?_eq_self v,
      ← mapEntries?_eq_self es]
    cases v.mapNumbers? f <;> cases mapEntries? f es <;> simp

end

mutual

theorem mapNumbers?_eq_none : ∀ v : MetadataValue,
    v.mapNumbers? f = none ↔ ∃ x ∈ v.numbers, f x = none
  | .bool _ => ⟨nofun, nofun⟩
  | .number x => by
    rw [mapNumbers?, numbers, Option.map_eq_none_iff]
    exact ⟨fun h => ⟨x, List.mem_singleton_self x, h⟩,
      fun ⟨y, hy, h⟩ => List.mem_singleton.mp hy ▸ h⟩
  | .string _ => ⟨nofun, nofun⟩
  | .list items => by
    rw [mapNumbers?, numbers, Option.map_eq_none_iff, mapItems?_eq_none items]
  | .map entries => by
    rw [mapNumbers?, numbers, Option.map_eq_none_iff, mapEntries?_eq_none entries]

theorem mapItems?_eq_none : ∀ vs : List MetadataValue,
    mapItems? f vs = none ↔ ∃ x ∈ numbersItems vs, f x = none
  | [] => ⟨nofun, nofun⟩
  | v :: vs => by
    have hv := mapNumbers?_eq_none v
    have hvs := mapItems?_eq_none vs
    simp only [mapItems?, numbersItems, List.mem_append, or_and_right, exists_or, ← hv, ← hvs]
    cases v.mapNumbers? f <;> cases mapItems? f vs <;> simp

theorem mapEntries?_eq_none : ∀ es : List (String × MetadataValue),
    mapEntries? f es = none ↔ ∃ x ∈ numbersEntries es, f x = none
  | [] => ⟨nofun, nofun⟩
  | (k, v) :: es => by
    have hv := mapNumbers?_eq_none v
    have hes := mapEntries?_eq_none es
    simp only [mapEntries?, numbersEntries, List.mem_append, or_and_right, exists_or, ← hv, ← hes]
    cases v.mapNumbers? f <;> cases mapEntries? f es <;> simp

end

theorem keys_of_mapEntries? {es es' : List (String × MetadataValue)}
    (h : mapEntries? f es = some es') : es'.map Prod.fst = es.map Prod.fst := by
  induction es generalizing es' with
  | nil =>
    cases h
    rfl
  | cons e es ih =>
    obtain ⟨k, v⟩ := e
    rw [mapEntries?] at h
    cases hv : v.mapNumbers? f with
    | none => rw [hv] at h; cases h
    | some v' =>
      cases hes : mapEntries? f es with
      | none => rw [hv, hes] at h; cases h
      | some rest =>
        rw [hv, hes] at h
        cases h
        exact congrArg (k :: ·) (ih hes)

end Replacing

/-! ### Reading a value back -/

theorem ofJson?_readBack_number (x : Binary64) :
    ofJson? (Json.Number.float x).readBack = (reread? x).map MetadataValue.number := by
  unfold reread?
  obtain ⟨n, hn⟩ | hn | hn := (Json.Number.float x).readBack_cases <;> rw [hn] <;> rfl

theorem keysAscend_congr {α β : Type} {es : List (String × α)} {es' : List (String × β)}
    (h : es'.map Prod.fst = es.map Prod.fst) (hes : Metadata.KeysAscend es) :
    Metadata.KeysAscend es' := by
  unfold Metadata.KeysAscend at hes ⊢
  rw [← List.pairwise_map (R := (· < ·)), h, List.pairwise_map]
  exact hes

mutual

theorem ofJson?_readBack : ∀ {v : MetadataValue}, v.Ordered →
    ofJson? v.toJson.readBack = v.mapNumbers? reread?
  | .bool _, _ => rfl
  | .number x, _ => ofJson?_readBack_number x
  | .string _, _ => rfl
  | .list items, .list hitems => by
    have hread := ofItems?_readBack hitems
    rw [toJson, Json.readBack, ofJson?, hread, mapNumbers?]
  | .map entries, .map hkeys hentries => by
    have hread := ofMembers?_readBack hentries
    rw [toJson, Json.readBack, ofJson?, hread, mapNumbers?]
    refine Option.map_congr fun es hes => ?_
    rw [Metadata.ofEntries_eq_self (keysAscend_congr (keys_of_mapEntries? _ hes) hkeys)]

theorem ofItems?_readBack : ∀ {vs : List MetadataValue}, (∀ v ∈ vs, v.Ordered) →
    ofItems? (Json.readBackItems (toItems vs)) = mapItems? reread? vs
  | [], _ => rfl
  | v :: vs, h => by
    obtain ⟨hv, hvs⟩ := List.forall_mem_cons.mp h
    rw [toItems, Json.readBackItems, ofItems?, mapItems?, ofJson?_readBack hv,
      ofItems?_readBack hvs]

theorem ofMembers?_readBack : ∀ {es : List (String × MetadataValue)}, (∀ e ∈ es, e.2.Ordered) →
    ofMembers? (Json.readBackMembers (toMembers es)) = mapEntries? reread? es
  | [], _ => rfl
  | (k, v) :: es, h => by
    obtain ⟨hv, hes⟩ := List.forall_mem_cons.mp h
    rw [toMembers, Json.readBackMembers, ofMembers?, mapEntries?, ofJson?_readBack hv,
      ofMembers?_readBack hes]

end

/-! ### What is read from any text -/

theorem depthMembers_toMembers_le {n : Nat} : ∀ {es : List (String × MetadataValue)},
    Json.depth.depthMembers (toMembers es) ≤ n ↔ ∀ e ∈ es, e.2.toJson.depth ≤ n
  | [] => ⟨fun _ => nofun, fun _ => Nat.zero_le n⟩
  | (k, v) :: es => by
    rw [toMembers, Json.depth.depthMembers, Nat.max_le, depthMembers_toMembers_le,
      List.forall_mem_cons]

theorem mem_numbersEntries {x : Binary64} : ∀ {es : List (String × MetadataValue)},
    x ∈ numbersEntries es ↔ ∃ e ∈ es, x ∈ e.2.numbers
  | [] => ⟨fun h => absurd h List.not_mem_nil, fun ⟨_, h, _⟩ => absurd h List.not_mem_nil⟩
  | (k, v) :: es => by
    rw [numbersEntries, List.mem_append, mem_numbersEntries, List.exists_mem_cons_iff]

/-! A value that is read is in order, nested no deeper than what it is read from, and has finite
numbers if it is read from numbers in range. -/

mutual

theorem ofJson?_eq_some : ∀ {j : Json} {v : MetadataValue}, ofJson? j = some v →
    v.Ordered ∧ v.toJson.depth ≤ j.depth ∧ (j.InRange → ∀ x ∈ v.numbers, x.isFinite = true)
  | .bool b, _, h => by
    cases h
    exact ⟨.bool b, Nat.le_refl _, fun _ _ hx => absurd hx List.not_mem_nil⟩
  | .number n, _, h => by
    cases h
    refine ⟨.number _, Nat.le_refl _, fun hrange => List.forall_mem_singleton.mpr ?_⟩
    cases hrange with
    | number hn => exact ofNumber_isFinite hn
  | .string s, _, h => by
    cases h
    exact ⟨.string s, Nat.le_refl _, fun _ _ hx => absurd hx List.not_mem_nil⟩
  | .array items, _, h => by
    obtain ⟨vs, hvs, rfl⟩ := Option.map_eq_some_iff.mp h
    obtain ⟨hordered, hdepth, hfinite⟩ := ofItems?_eq_some hvs
    refine ⟨.list hordered, Nat.succ_le_succ hdepth, fun hrange => ?_⟩
    cases hrange with
    | array hitems => exact hfinite hitems
  | .object members, _, h => by
    obtain ⟨es, hes, rfl⟩ := Option.map_eq_some_iff.mp h
    obtain ⟨hordered, hdepth, hfinite⟩ := ofMembers?_eq_some hes
    -- of several members with one key only the last one is kept
    have hkept := Metadata.ofEntries_subset es
    refine ⟨.map (Metadata.keysAscend_ofEntries es) fun e he => hordered e (hkept he), ?_,
      fun hrange x hx => ?_⟩
    · refine Nat.succ_le_succ (depthMembers_toMembers_le.mpr fun e he => ?_)
      exact depthMembers_toMembers_le.mp hdepth e (hkept he)
    · obtain ⟨e, he, hx⟩ := mem_numbersEntries.mp hx
      cases hrange with
      | object hmembers => exact hfinite hmembers x (mem_numbersEntries.mpr ⟨e, hkept he, hx⟩)
  | .null, _, h => nomatch h
  | .unreadable, _, h => nomatch h

theorem ofItems?_eq_some : ∀ {js : List Json} {vs : List MetadataValue}, ofItems? js = some vs →
    (∀ v ∈ vs, v.Ordered) ∧ Json.depth.depthItems (toItems vs) ≤ Json.depth.depthItems js ∧
      ((∀ j ∈ js, j.InRange) → ∀ x ∈ numbersItems vs, x.isFinite = true)
  | [], _, h => by
    cases h
    exact ⟨nofun, Nat.le_refl _, fun _ _ hx => absurd hx List.not_mem_nil⟩
  | j :: js, vs, h => by
    obtain ⟨v, hv, h⟩ := Option.bind_eq_some_iff.mp h
    obtain ⟨rest, hrest, h⟩ := Option.bind_eq_some_iff.mp h
    cases h
    obtain ⟨hordered, hdepth, hfinite⟩ := ofJson?_eq_some hv
    obtain ⟨hrestOrdered, hrestDepth, hrestFinite⟩ := ofItems?_eq_some hrest
    refine ⟨List.forall_mem_cons.mpr ⟨hordered, hrestOrdered⟩, max_le_max hdepth hrestDepth,
      fun hrange => ?_⟩
    obtain ⟨hj, hjs⟩ := List.forall_mem_cons.mp hrange
    exact List.forall_mem_append.mpr ⟨hfinite hj, hrestFinite hjs⟩

theorem ofMembers?_eq_some : ∀ {js : List (String × Json)} {es : List (String × MetadataValue)},
    ofMembers? js = some es → (∀ e ∈ es, e.2.Ordered) ∧
      Json.depth.depthMembers (toMembers es) ≤ Json.depth.depthMembers js ∧
        ((∀ m ∈ js, m.2.InRange) → ∀ x ∈ numbersEntries es, x.isFinite = true)
  | [], _, h => by
    cases h
    exact ⟨nofun, Nat.le_refl _, fun _ _ hx => absurd hx List.not_mem_nil⟩
  | (k, j) :: js, es, h => by
    obtain ⟨v, hv, h⟩ := Option.bind_eq_some_iff.mp h
    obtain ⟨rest, hrest, h⟩ := Option.bind_eq_some_iff.mp h
    cases h
    obtain ⟨hordered, hdepth, hfinite⟩ := ofJson?_eq_some hv
    obtain ⟨hrestOrdered, hrestDepth, hrestFinite⟩ := ofMembers?_eq_some hrest
    refine ⟨List.forall_mem_cons.mpr ⟨hordered, hrestOrdered⟩, max_le_max hdepth hrestDepth,
      fun hrange => ?_⟩
    obtain ⟨hj, hjs⟩ := List.forall_mem_cons.mp hrange
    exact List.forall_mem_append.mpr ⟨hfinite hj, hrestFinite hjs⟩

end

end MetadataValue

namespace Metadata

open MetadataValue

variable {m m' : Metadata} {text : String}

/-! ### Storing a map and reading it back -/

def Ordered (m : Metadata) : Prop := (MetadataValue.map m).Ordered

/-- the numbers in a map, in their order -/
def numbers (m : Metadata) : List Binary64 := numbersEntries m

/-- how deeply a map is nested, the map itself counted -/
def depth (m : Metadata) : Nat := m.toJson.depth

theorem encode_of_ne_nil (h : m ≠ []) : encode (some m) = some m.toJson.compact := by
  cases m with
  | nil => exact absurd rfl h
  | cons e rest => rfl

/-- A stored map is read with its numbers replaced by what their texts stand for, unless it is nested
too deeply or one of these texts is no number. -/
theorem decode_encode (hordered : m.Ordered) (hne : m ≠ []) :
    decode (encode (some m)) = if m.depth ≤ maxDepth then mapEntries? reread? m else none := by
  obtain ⟨hkeys, hentries⟩ : KeysAscend m ∧ ∀ e ∈ m, e.2.Ordered := by
    cases hordered with
    | map hkeys hentries => exact ⟨hkeys, hentries⟩
  have hparse : Json.parse? m.toJson.compact = some m.toJson.readBack :=
    Json.parse?_write Json.Layout.blank_compact m.toJson
  have hdepth : m.toJson.readBack.depth = m.depth := Json.depth_readBack m.toJson
  have hmembers := ofMembers?_readBack hentries
  have hofJson : ofJson? 0 m.toJson.readBack = if m.toJson.readBack.depth + 0 ≤ maxDepth then
      (mapEntries? reread? m).map ofEntries else none := by
    rw [← hmembers]
    rfl
  rw [encode_of_ne_nil hne, decode, Option.bind_some, hparse, Option.bind_some, hofJson, hdepth,
    Nat.add_zero]
  refine if_congr Iff.rfl ?_ rfl
  cases hread : mapEntries? reread? m with
  | none => rfl
  | some m' =>
    rw [Option.map_some, ofEntries_eq_self (keysAscend_congr (keys_of_mapEntries? _ hread) hkeys)]

/-- a map that is read back as it was stored: not nested too deeply, and each of its numbers is what
its text stands for -/
def Stable (m : Metadata) : Prop := m.depth ≤ maxDepth ∧ ∀ x ∈ m.numbers, reread? x = some x

theorem decode_encode_eq_some_iff (hordered : m.Ordered) (hne : m ≠ []) :
    decode (encode (some m)) = some m ↔ m.Stable := by
  rw [decode_encode hordered hne, Stable, numbers, ← mapEntries?_eq_self]
  split
  · rename_i hdepth
    exact (and_iff_right hdepth).symm
  · rename_i hdepth
    exact ⟨nofun, fun h => absurd h.1 hdepth⟩

theorem decode_encode_eq_none_iff (hordered : m.Ordered) (hne : m ≠ []) :
    decode (encode (some m)) = none ↔ maxDepth < m.depth ∨ ∃ x ∈ m.numbers, x.isFinite = false := by
  simp only [← reread?_eq_none_iff]
  rw [decode_encode hordered hne, numbers, ← mapEntries?_eq_none]
  split
  · rename_i hdepth
    exact (or_iff_right (Nat.not_lt.mpr hdepth)).symm
  · rename_i hdepth
    exact ⟨fun _ => .inl (Nat.not_le.mp hdepth), fun _ => rfl⟩

/-- What is read from any text is in order and not nested too deeply, and its numbers are finite. -/
theorem ordered_of_decode {raw : Option String} (h : decode raw = some m) :
    m.Ordered ∧ m.depth ≤ maxDepth ∧ ∀ x ∈ m.numbers, x.isFinite = true := by
  obtain ⟨text, -, h⟩ := Option.bind_eq_some_iff.mp h
  obtain ⟨j, hparse, h⟩ := Option.bind_eq_some_iff.mp h
  have hrange := Json.parse?_inRange hparse
  unfold ofJson? at h
  split at h
  · rename_i members
    split at h
    · rename_i hdepth
      have hread : MetadataValue.ofJson? (.object members) = some (.map m) := by
        obtain ⟨es, hes, rfl⟩ := Option.map_eq_some_iff.mp h
        rw [MetadataValue.ofJson?, hes]
        rfl
      obtain ⟨hordered, hle, hfinite⟩ := ofJson?_eq_some hread
      exact ⟨hordered, hle.trans hdepth, hfinite hrange⟩
    · cases h
  · cases h

end Metadata

end CodeAtlas
