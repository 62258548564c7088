import CodeAtlas.Pattern.Like
import Mathlib.Data.List.Infix
import Mathlib.Data.List.TakeWhile

/-!
# Search patterns for parts of a text

The pattern for a part of a text has its characters escaped, so that each of them stands for itself.
Matching such a pattern is a search for the part.

* `tokens_escape`             escaped characters are read as themselves;
* `tokens_charsOf_containing` what is read of the pattern for a part;
* `accepts_literals`          characters and a run after them match what begins with them;
* `anyEnd_literals`           with a run before them too, they match what has them in it;
* `matches_containing`        the pattern for a part matches the texts that have the part in them.
-/

namespace CodeAtlas.Like

/-! ### Escaped characters -/

theorem escapeChar_of_special {c : Char} (h : c = '\\' ∨ c = '%' ∨ c = '_') :
    escapeChar c = ['\\', c] := by
  rcases h with rfl | rfl | rfl <;> rfl

theorem escapeChar_of_ne {c : Char} (hback : c ≠ '\\') (hrun : c ≠ '%') (hone : c ≠ '_') :
    escapeChar c = [c] := by
  simp [escapeChar, hback, hrun, hone]

theorem tokens_cons {c : Char} (hback : c ≠ '\\') (hrun : c ≠ '%') (hone : c ≠ '_')
    (rest : List Char) : tokens (c :: rest) = .literal c :: tokens rest := by
  rw [tokens.eq_def]
  split <;> simp_all

theorem tokens_backslash (c : Char) (rest : List Char) :
    tokens ('\\' :: c :: rest) = .literal c :: tokens rest := rfl

theorem tokens_escape (cs rest : List Char) :
    tokens (cs.flatMap escapeChar ++ rest) = cs.map .literal ++ tokens rest := by
  induction cs with
  | nil => rfl
  | cons c cs ih =>
    rw [List.flatMap_cons, List.append_assoc, List.map_cons, List.cons_append, ← ih]
    by_cases h : c = '\\' ∨ c = '%' ∨ c = '_'
    · rw [escapeChar_of_special h]
      exact tokens_backslash c _
    · obtain ⟨hback, hrun, hone⟩ : c ≠ '\\' ∧ c ≠ '%' ∧ c ≠ '_' := by
        simpa only [not_or] using h
      rw [escapeChar_of_ne hback hrun hone]
      exact tokens_cons hback hrun hone _

/-! ### Characters as they are compared -/

/-- Reading a character leaves the special ones alone, and gives none of them. -/
theorem readChar_cases (c : Char) :
    readChar c = c ∨ escapeChar c = [c] ∧ escapeChar (readChar c) = [readChar c] := by
  unfold readChar
  split
  · rename_i h
    right
    have hne : ∀ d : Char, d.toNat < 0xFFFE → c ≠ d := by
      rintro d hd rfl
      simp only [Bool.or_eq_true, beq_iff_eq] at h
      omega
    exact ⟨escapeChar_of_ne (hne _ (by decide)) (hne _ (by decide)) (hne _ (by decide)), by decide⟩
  · exact .inl rfl

theorem readChar_of_ne {c : Char} (h : c ≠ '\uFFFE') (h' : c ≠ '\uFFFF') : readChar c = c := by
  refine if_neg fun hread => ?_
  rw [Bool.or_eq_true, beq_iff_eq, beq_iff_eq] at hread
  rcases hread with hread | hread
  · exact h (Char.toNat_inj.mp hread)
  · exact h' (Char.toNat_inj.mp hread)

theorem toLower_eq_or_lt (c : Char) : c.toLower = c ∨ c.toLower.toNat < 128 := by
  unfold Char.toLower
  split
  · rename_i hupper
    have hle : c.val.toNat ≤ 90 := hupper.2
    right
    show (c.val.toNat + 32) % 2 ^ 32 < 128
    omega
  · exact .inl rfl

theorem toLower_readChar (c : Char) : (readChar c).toLower = readChar c.toLower := by
  by_cases h : c = '\uFFFE'
  · rw [h]
    decide
  by_cases h' : c = '\uFFFF'
  · rw [h']
    decide
  rw [readChar_of_ne h h']
  rcases toLower_eq_or_lt c with heq | hlt
  · rw [heq, readChar_of_ne h h']
  · have hne : ∀ d : Char, 128 ≤ d.toNat → c.toLower ≠ d := by
      rintro d hd rfl
      omega
    rw [readChar_of_ne (hne _ (by decide)) (hne _ (by decide))]

theorem map_readChar_escapeChar (c : Char) :
    (escapeChar c).map readChar = escapeChar (readChar c) := by
  rcases readChar_cases c with h | ⟨h, h'⟩
  · rw [h]
    by_cases hc : c = '\\' ∨ c = '%' ∨ c = '_'
    · rw [escapeChar_of_special hc, List.map_cons, List.map_singleton, h]
      rfl
    · obtain ⟨hback, hrun, hone⟩ : c ≠ '\\' ∧ c ≠ '%' ∧ c ≠ '_' := by
        simpa only [not_or] using hc
      rw [escapeChar_of_ne hback hrun hone, List.map_singleton, h]
  · rw [h, h', List.map_singleton]

theorem charsOf_eq {s : String} (h : '\x00' ∉ s.toList) : charsOf s = s.toList.map readChar := by
  have hall : ∀ c ∈ s.toList, (c != '\x00') = true := by
    intro c hc
    rw [bne_iff_ne]
    rintro rfl
    exact h hc
  rw [charsOf, List.takeWhile_eq_self_iff.mpr hall]

theorem toList_containing (s : String) :
    (containing s).toList = '%' :: (s.toList.flatMap escapeChar ++ ['%']) := by
  rw [containing, escape, String.toList_append, String.toList_append, String.toList_ofList,
    String.toList_ofList]
  rfl

theorem zero_notMem_containing {s : String} (h : '\x00' ∉ s.toList) :
    '\x00' ∉ (containing s).toList := by
  have hescape : ∀ c ∈ s.toList, '\x00' ∉ escapeChar c := by
    intro c hc
    have hne : '\x00' ≠ c := by
      rintro rfl
      exact h hc
    unfold escapeChar
    split <;> simp [hne]
  rw [toList_containing]
  simpa [List.mem_flatMap] using hescape

theorem tokens_charsOf_containing {s : String} (h : '\x00' ∉ s.toList) :
    tokens (charsOf (containing s)) = .run :: ((s.toList.map readChar).map .literal ++ [.run]) := by
  have hread : (s.toList.flatMap escapeChar).map readChar =
      (s.toList.map readChar).flatMap escapeChar := by
    rw [List.map_flatMap, List.flatMap_map]
    exact List.flatMap_congr fun c _ => map_readChar_escapeChar c
  rw [charsOf_eq (zero_notMem_containing h), toList_containing, List.map_cons, List.map_append, hread]
  show Token.run :: tokens (_ ++ ['%']) = _
  rw [tokens_escape]
  rfl

/-! ### Matching -/

/-- the text as it is compared with other ones -/
def folded (s : String) : List Char := s.toList.map fun c => (readChar c).toLower

theorem anyEnd_nil (s : List Char) : anyEnd (accepts []) s = true := by
  induction s with
  | nil => rfl
  | cons c s ih => rw [anyEnd, ih, Bool.or_true]

theorem accepts_literals (cs s : List Char) :
    accepts (cs.map .literal ++ [.run]) s = true ↔ cs.map Char.toLower <+: s.map Char.toLower := by
  induction cs generalizing s with
  | nil => exact iff_of_true (anyEnd_nil s) List.nil_prefix
  | cons c cs ih =>
    cases s with
    | nil =>
      refine iff_of_false Bool.false_ne_true fun hprefix => ?_
      exact absurd (List.prefix_nil.mp hprefix) (List.cons_ne_nil _ _)
    | cons d s =>
      rw [List.map_cons, List.map_cons, List.map_cons, List.cons_prefix_cons, ← ih]
      show (c.toLower == d.toLower && accepts (cs.map .literal ++ [.run]) s) = true ↔ _
      rw [Bool.and_eq_true, beq_iff_eq]

theorem anyEnd_literals (cs s : List Char) :
    anyEnd (accepts (cs.map .literal ++ [.run])) s = true ↔
      cs.map Char.toLower <:+: s.map Char.toLower := by
  induction s with
  | nil =>
    rw [anyEnd, accepts_literals]
    exact List.prefix_nil.trans List.infix_nil.symm
  | cons c s ih =>
    rw [anyEnd, Bool.or_eq_true, ih, accepts_literals, List.map_cons, List.infix_cons_iff]

/-- The pattern for a part matches exactly the texts that have the part in them. -/
theorem matches_containing {part text : String} (hpart : '\x00' ∉ part.toList)
    (htext : '\x00' ∉ text.toList) :
    «matches» (containing part) text = true ↔ folded part <:+: folded text := by
  rw [«matches», tokens_charsOf_containing hpart, charsOf_eq htext]
  show anyEnd (accepts _) _ = true ↔ _
  rw [anyEnd_literals, List.map_map, List.map_map]
  rfl

end CodeAtlas.Like
