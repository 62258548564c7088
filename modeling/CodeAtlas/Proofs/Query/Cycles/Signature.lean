import CodeAtlas.Query.Cycles
import Mathlib.Data.List.Rotate
import Mathlib.Data.String.Basic

/-!
# Signatures of cycles

The signature of a cycle is the cycle turned so that its least id comes first. For distinct ids it
tells two cycles apart exactly if neither is the other one turned.

* `exists_least`           what stands at the place of the least id;
* `eq_signature_iff`       of distinct ids no other turn starts at the least id;
* `signature_canonical`    the signature tells cycles apart up to turning.
-/

namespace CodeAtlas.Cycles

theorem leastPlace_lt {ids : List String} (h : ids ≠ []) : leastPlace ids < ids.length := by
  induction ids with
  | nil => exact absurd rfl h
  | cons a ids ih =>
    cases ids with
    | nil => exact Nat.one_pos
    | cons b rest =>
      have hplace := ih (List.cons_ne_nil b rest)
      unfold leastPlace
      dsimp only
      split
      · exact Nat.succ_pos _
      · exact Nat.succ_lt_succ hplace

/-- What stands at the place of the least id is below all others. -/
theorem exists_least {ids : List String} (h : ids ≠ []) :
    ∃ least, ids[leastPlace ids]? = some least ∧ ∀ id ∈ ids, least ≤ id := by
  induction ids with
  | nil => exact absurd rfl h
  | cons a ids ih =>
    cases ids with
    | nil => exact ⟨a, rfl, fun id hid => (List.mem_singleton.mp hid).ge⟩
    | cons b rest =>
      obtain ⟨least, hleast, hle⟩ := ih (List.cons_ne_nil b rest)
      have hgetD : (b :: rest).getD (leastPlace (b :: rest)) a = least := by
        rw [List.getD_eq_getElem?_getD, hleast, Option.getD_some]
      unfold leastPlace
      dsimp only
      rw [hgetD]
      split
      · rename_i ha
        refine ⟨a, rfl, fun id hid => ?_⟩
        rcases List.mem_cons.mp hid with rfl | hid
        · exact le_refl _
        · exact le_trans ha (hle id hid)
      · rename_i ha
        refine ⟨least, hleast, fun id hid => ?_⟩
        rcases List.mem_cons.mp hid with rfl | hid
        · exact (lt_of_not_ge ha).le
        · exact hle id hid

theorem signature_eq_rotate (ids : List String) : signature ids = ids.rotate (leastPlace ids) := by
  have hle : leastPlace ids ≤ ids.length := by
    cases ids with
    | nil => exact Nat.le_refl 0
    | cons a ids => exact (leastPlace_lt (List.cons_ne_nil a ids)).le
  rw [signature, List.rotate_eq_drop_append_take hle]

theorem isRotated_signature (ids : List String) : ids ~r signature ids :=
  ⟨leastPlace ids, (signature_eq_rotate ids).symm⟩

theorem exists_head?_signature {ids : List String} (h : ids ≠ []) :
    ∃ least ∈ ids, (signature ids).head? = some least ∧ ∀ id ∈ ids, least ≤ id := by
  obtain ⟨least, hleast, hle⟩ := exists_least h
  refine ⟨least, List.mem_of_getElem? hleast, ?_, hle⟩
  rw [signature_eq_rotate, List.head?_rotate (leastPlace_lt h), hleast]

/-- Distinct ids have one turn only with a given head. -/
theorem eq_of_isRotated_of_head? {a b : List String} (ha : a.Nodup) (h : a ~r b)
    (hhead : a.head? = b.head?) : a = b := by
  obtain ⟨n, hn, rfl⟩ := List.isRotated_iff_mod.mp h
  rcases Nat.eq_or_lt_of_le hn with rfl | hlt
  · exact (List.rotate_length a).symm
  · have hpos : 0 < a.length := Nat.zero_lt_of_lt hlt
    rw [List.head?_rotate hlt, List.head?_eq_getElem?, List.getElem?_eq_getElem hlt,
      List.getElem?_eq_getElem hpos, Option.some_inj, ha.getElem_inj_iff] at hhead
    rw [← hhead, List.rotate_zero]

theorem isRotated_of_signature_eq {a b : List String} (h : signature a = signature b) : a ~r b :=
  (isRotated_signature a).trans (h ▸ (isRotated_signature b).symm)

/-- Of distinct ids one turn has a first id that is below all others, and it is the signature. -/
theorem eq_signature_iff {ids turned : List String} (hids : ids.Nodup) :
    turned = signature ids ↔
      ids ~r turned ∧ ∀ first ∈ turned.head?, ∀ id ∈ ids, first ≤ id := by
  rcases eq_or_ne ids [] with rfl | hne
  · rw [List.isRotated_nil_iff']
    exact ⟨fun h => ⟨h.symm, fun _ _ _ hid => nomatch hid⟩, fun h => h.1.symm⟩
  obtain ⟨least, hmem, hhead, hle⟩ := exists_head?_signature hne
  constructor
  · rintro rfl
    refine ⟨isRotated_signature ids, fun first hfirst => ?_⟩
    rw [Option.mem_def, hhead, Option.some_inj] at hfirst
    exact hfirst ▸ hle
  · rintro ⟨hrotated, hfirst⟩
    have hsign : turned ~r signature ids := hrotated.symm.trans (isRotated_signature ids)
    refine eq_of_isRotated_of_head? (hrotated.nodup_iff.mp hids) hsign ?_
    cases turned with
    | nil => exact absurd (List.isRotated_nil_iff.mp hrotated) hne
    | cons first rest =>
      have hfirst' : first ∈ ids := hrotated.mem_iff.mpr List.mem_cons_self
      rw [hhead, List.head?_cons]
      exact congrArg some (le_antisymm (hfirst first rfl least hmem) (hle first hfirst'))

theorem signature_eq_of_isRotated {a b : List String} (ha : a.Nodup) (h : a ~r b) :
    signature a = signature b := by
  obtain ⟨hrotated, hfirst⟩ := (eq_signature_iff ha).mp rfl
  refine (eq_signature_iff (h.nodup_iff.mp ha)).mpr ⟨h.symm.trans hrotated, ?_⟩
  exact fun first hhead id hid => hfirst first hhead id (h.mem_iff.mpr hid)

/-- **A signature stands for a cycle.** Two lists of distinct ids have the same signature exactly if
one is the other one turned; in particular the same ids in another order have another signature. And
the signature is the turn that starts at the least id. -/
theorem signature_canonical {a b : List String} (ha : a.Nodup) :
    (signature a = signature b ↔ a ~r b) ∧
      ∀ turned, turned = signature a ↔
        a ~r turned ∧ ∀ first ∈ turned.head?, ∀ id ∈ a, first ≤ id :=
  ⟨⟨isRotated_of_signature_eq, signature_eq_of_isRotated ha⟩, fun _ => eq_signature_iff ha⟩

/-- A cycle, the same one turned, and the one in the other direction. -/
theorem signature_canonical_reversed :
    ["b", "d", "a", "c"].Nodup ∧
      signature ["b", "d", "a", "c"] = signature ["c", "b", "d", "a"] ∧
      signature ["b", "d", "a", "c"] ≠ signature ["c", "a", "d", "b"] ∧
      ["a", "c", "b", "d"] = signature ["b", "d", "a", "c"] := by
  have hdistinct : ["b", "d", "a", "c"].Nodup := by decide
  have hturned : signature ["b", "d", "a", "c"] = signature ["c", "b", "d", "a"] :=
    (signature_canonical hdistinct).1.mpr (by decide)
  have hreversed : signature ["b", "d", "a", "c"] ≠ signature ["c", "a", "d", "b"] := fun h =>
    absurd ((signature_canonical hdistinct).1.mp h) (by decide)
  have hleast := (@signature_canonical _ [] hdistinct).2 ["a", "c", "b", "d"]
  refine ⟨hdistinct, hturned, hreversed, hleast.mpr ⟨by decide, fun first hfirst => ?_⟩⟩
  obtain rfl : "a" = first := Option.some.inj hfirst
  decide

end CodeAtlas.Cycles
