import CodeAtlas.Proofs.Store.Reading
import Mathlib.Data.Prod.Lex
import Mathlib.Data.String.Basic

/-!
# The order of query results

Queries sort rows by their columns, whatever the columns hold. Of rows that can be read, the order is
that of the entities that they are read as.

* `Entity.place`, `Entity.label`   by what entities are sorted;
* `EntityRow.placeLe_iff`, `EntityRow.nameLe_iff`   rows are sorted by it;
* `pairwise_of_forall₂`            what is read from sorted rows is sorted;
* `Entities.eq_of_read`            entities of one id are one entity;
* `Entities.byName_listed`         the entities of a name, as a query lists them.
-/

namespace CodeAtlas

/-! ### Lexicographic comparison -/

/-- a comparison of texts with a further one for equal texts -/
def textLe (s s' : String) (tie : Bool) : Bool := s < s' || (s == s' && tie)

theorem textLe_iff {s s' : String} {tie : Bool} :
    textLe s s' tie = true ↔ s < s' ∨ s = s' ∧ tie = true := by
  rw [textLe, Bool.or_eq_true, Bool.and_eq_true, decide_eq_true_iff, beq_iff_eq]

theorem textLe_trans {s s' s'' : String} {tie tie' tie'' : Bool} (h : textLe s s' tie = true)
    (h' : textLe s' s'' tie' = true) (hties : tie = true → tie' = true → tie'' = true) :
    textLe s s'' tie'' = true := by
  rw [textLe_iff] at *
  rcases h with h | ⟨rfl, h⟩
  · rcases h' with h' | ⟨rfl, -⟩
    · exact .inl (h.trans h')
    · exact .inl h
  · rcases h' with h' | ⟨rfl, h'⟩
    · exact .inl h'
    · exact .inr ⟨rfl, hties h h'⟩

theorem textLe_total (s s' : String) {tie tie' : Bool} (hties : (tie || tie') = true) :
    (textLe s s' tie || textLe s' s tie') = true := by
  rw [Bool.or_eq_true] at *
  rw [textLe_iff, textLe_iff]
  rcases lt_trichotomy s s' with h | rfl | h
  · exact .inl (.inl h)
  · exact hties.imp (fun h => .inr ⟨rfl, h⟩) fun h => .inr ⟨rfl, h⟩
  · exact .inr (.inl h)

/-! ### Rows -/

theorem Cell.trans_le (a b c : Cell) (h : a.le b = true) (h' : b.le c = true) :
    a.le c = true := by
  cases a with
  | integer m =>
    cases c with
    | text s => rfl
    | integer k =>
      cases b with
      | text s => cases h'
      | integer n => exact decide_eq_true ((of_decide_eq_true h).trans (of_decide_eq_true h'))
  | text s =>
    cases b with
    | integer n => cases h
    | text s' =>
      cases c with
      | integer k => cases h'
      | text s'' => exact decide_eq_true ((of_decide_eq_true h).trans (of_decide_eq_true h'))

theorem Cell.total_le (a b : Cell) : (a.le b || b.le a) = true := by
  cases a <;> cases b <;> simp [le, le_total]

namespace Entity

/-- the file path, then the start line -/
def place (e : Entity) : String ×ₗ Nat := toLex (e.filePath, e.startLine.toNat)

/-- the name, then the place -/
def label (e : Entity) : String ×ₗ String ×ₗ Nat := toLex (e.name, e.place)

end Entity

namespace EntityRow

variable {r r' : EntityRow} {e e' : Entity}

theorem startLine_of_read (h : r.read = .ok e) : r.startLine = .integer e.startLine.toNat := by
  unfold read at h
  split at h
  · cases h
  · obtain ⟨first, hfirst, h⟩ := Tables.bind_eq_ok.mp h
    obtain ⟨last, -, h⟩ := Tables.bind_eq_ok.mp h
    cases h
    unfold Cell.line at hfirst
    split at hfirst
    · rename_i n hn
      split at hfirst
      · rename_i hrange
        cases hfirst
        have hfits : n.toNat < UInt32.size := by omega
        show _ = Cell.integer (UInt32.ofNat n.toNat).toNat
        rw [hn, UInt32.toNat_ofNat_of_lt' hfits, Int.toNat_of_nonneg hrange.1]
      · cases hfirst
    · cases hfirst

theorem placeLe_eq (r r' : EntityRow) :
    Entities.placeLe r r' = textLe r.filePath r'.filePath (r.startLine.le r'.startLine) := rfl

theorem nameLe_eq (r r' : EntityRow) :
    Entities.nameLe r r' = textLe r.name r'.name (Entities.placeLe r r') := rfl

theorem trans_placeLe (a b c : EntityRow) (h : Entities.placeLe a b = true)
    (h' : Entities.placeLe b c = true) : Entities.placeLe a c = true :=
  textLe_trans h h' (Cell.trans_le _ _ _)

theorem total_placeLe (a b : EntityRow) :
    (Entities.placeLe a b || Entities.placeLe b a) = true :=
  textLe_total _ _ (Cell.total_le _ _)

theorem trans_nameLe (a b c : EntityRow) (h : Entities.nameLe a b = true)
    (h' : Entities.nameLe b c = true) : Entities.nameLe a c = true :=
  textLe_trans h h' (trans_placeLe _ _ _)

theorem total_nameLe (a b : EntityRow) :
    (Entities.nameLe a b || Entities.nameLe b a) = true :=
  textLe_total _ _ (total_placeLe _ _)

theorem placeLe_iff (h : r.read = .ok e) (h' : r'.read = .ok e') :
    Entities.placeLe r r' = true ↔ e.place ≤ e'.place := by
  rw [placeLe_eq, textLe_iff, (read_eq_ok h).2.2.symm, (read_eq_ok h').2.2.symm,
    startLine_of_read h, startLine_of_read h', Entity.place, Entity.place,
    Prod.Lex.toLex_le_toLex]
  exact or_congr_right (and_congr_right fun _ => decide_eq_true_iff.trans Int.ofNat_le)

theorem nameLe_iff (h : r.read = .ok e) (h' : r'.read = .ok e') :
    Entities.nameLe r r' = true ↔ e.label ≤ e'.label := by
  rw [nameLe_eq, textLe_iff, placeLe_iff h h', (read_eq_ok h).2.1.symm, (read_eq_ok h').2.1.symm,
    Entity.label, Entity.label, Prod.Lex.toLex_le_toLex]

end EntityRow

/-! ### What is read from sorted rows -/

theorem pairwise_of_forall₂ {α β : Type} {R : α → β → Prop} {S : α → α → Prop} {S' : β → β → Prop}
    (hS : ∀ x x' y y', R x y → R x' y' → S x x' → S' y y') {xs : List α} {ys : List β}
    (h : List.Forall₂ R xs ys) (hxs : xs.Pairwise S) : ys.Pairwise S' := by
  induction h with
  | nil => exact .nil
  | cons hr hrest ih =>
    obtain ⟨hx, hxs⟩ := List.pairwise_cons.mp hxs
    refine List.pairwise_cons.mpr ⟨fun y hy => ?_, ih hxs⟩
    obtain ⟨x, hmem, hr'⟩ := exists_of_forall₂_of_mem_right hrest hy
    exact hS _ _ _ _ hr hr' (hx x hmem)

namespace Entities

variable {t : Tables} {name : String} {es : List Entity} {rs : List EntityRow}

theorem mem_readAll (h : readAll rs = .ok es) (e : Entity) :
    e ∈ es ↔ ∃ r ∈ rs, r.read = .ok e := by
  have hread := readAll_eq_ok h
  constructor
  · exact exists_of_forall₂_of_mem_right hread
  · rintro ⟨r, hr, he⟩
    obtain ⟨e', he', hr'⟩ := exists_of_forall₂_of_mem_left hread hr
    rwa [Except.ok.inj (he.symm.trans hr')]

theorem eq_of_read (hids : (t.entityRows.map EntityRow.id).Nodup) {e e' : Entity}
    (he : ∃ row ∈ t.entityRows, row.read = .ok e) (he' : ∃ row ∈ t.entityRows, row.read = .ok e')
    (hid : e.id = e'.id) : e = e' := by
  obtain ⟨row, hrow, hr⟩ := he
  obtain ⟨row', hrow', hr'⟩ := he'
  have hrows : row.id = row'.id := by
    rw [← (EntityRow.read_eq_ok hr).1, ← (EntityRow.read_eq_ok hr').1, hid]
  rw [List.inj_on_of_nodup_map hids hrow hrow' hrows] at hr
  exact Except.ok.inj (hr.symm.trans hr')

theorem exists_mem_of_byName (h : byName name t = .ok es) {r : EntityRow} (hr : r ∈ t.entityRows)
    (hname : r.name = name) : ∃ e ∈ es, r.read = .ok e := by
  obtain ⟨rs, hrs, h⟩ := Tables.bind_eq_ok.mp h
  obtain rfl := rows_eq_ok hrs
  refine exists_of_forall₂_of_mem_left (readAll_eq_ok h) ?_
  rw [List.mem_mergeSort, List.mem_filter]
  exact ⟨hr, beq_iff_eq.mpr hname⟩

/-- The entities of a name: all of them, each one once, sorted by place. -/
structure Listed (t : Tables) (name : String) (es : List Entity) : Prop where
  mem : ∀ e, e ∈ es ↔ (∃ row ∈ t.entityRows, row.read = .ok e) ∧ e.name = name
  once : (es.map (·.id)).Nodup
  sorted : es.Pairwise fun e e' => e.place ≤ e'.place

theorem byName_listed (hids : (t.entityRows.map EntityRow.id).Nodup)
    (h : byName name t = .ok es) : Listed t name es := by
  have hperm := byName_eq_ok h
  obtain ⟨rs, hrs, h⟩ := Tables.bind_eq_ok.mp h
  obtain rfl := rows_eq_ok hrs
  refine ⟨fun e => ?_, ?_, ?_⟩
  · rw [mem_readAll h, ← exists_and_right]
    refine exists_congr fun r => ?_
    rw [List.mem_mergeSort, List.mem_filter, beq_iff_eq, and_assoc, and_assoc]
    refine and_congr_right fun _ => ?_
    constructor
    · rintro ⟨hname, he⟩
      exact ⟨he, (EntityRow.read_eq_ok he).2.1.trans hname⟩
    · rintro ⟨he, hname⟩
      exact ⟨(EntityRow.read_eq_ok he).2.1.symm.trans hname, he⟩
  · exact hperm.nodup_iff.mpr (hids.sublist (List.filter_sublist.map _))
  · have hsorted := List.pairwise_mergeSort EntityRow.trans_placeLe EntityRow.total_placeLe
      (t.entityRows.filter (·.name == name))
    have hplace : ∀ (r r' : EntityRow) (e e' : Entity), r.read = .ok e → r'.read = .ok e' →
        placeLe r r' = true → e.place ≤ e'.place :=
      fun _ _ _ _ hr hr' => (EntityRow.placeLe_iff hr hr').mp
    exact pairwise_of_forall₂ hplace (readAll_eq_ok h) hsorted

end Entities

end CodeAtlas
