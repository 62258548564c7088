import Mathlib.Data.List.Basic
import CodeAtlas.Json.Numeral
import CodeAtlas.Proofs.Number.Rounding

/-!
# Numerals in range

A numeral is cut off to a significand of 64 bits and a power of ten before it is rounded, and is out
of range if the product is infinite. Up to the midpoint below the largest number none of them is.

* `accumulate_spec`          a significand is what a run of digits stands for;
* `mul_tenPower_isFinite`    a product of a significand and a power of ten that is small enough;
* `Parts.Fits.float_isSome`  a numeral that is small enough is in range;
* `Parts.inRange_of_number`  what a numeral is read as is an integer of 64 bits or finite.
-/

namespace CodeAtlas.Json

/-- a number that has a place among the 64-bit integers or the finite binary64 numbers -/
def Number.InRange : Number → Prop
  | .integer n => n.natAbs ≤ Numeral.maxSignificand
  | .float x => x.isFinite = true

namespace Numeral

open Binary64

variable {cs : List Char} {significand k fuel : Nat} {e : Int} {x y : Binary64} {p : Parts}

/-! ### Significands -/

theorem ofDigitChars_cons (c : Char) (cs : List Char) (significand : Nat) :
    Nat.ofDigitChars 10 (c :: cs) significand =
      Nat.ofDigitChars 10 cs (significand * 10 + digitValue c) := by
  rw [Nat.ofDigitChars_cons, Nat.mul_comm]
  rfl

theorem le_ofDigitChars (cs : List Char) (significand : Nat) :
    significand * 10 ^ cs.length ≤ Nat.ofDigitChars 10 cs significand := by
  rw [Nat.ofDigitChars_eq_ofDigitChars_zero, Nat.mul_comm]
  exact Nat.le_add_right _ _

theorem self_le_ofDigitChars (cs : List Char) (significand : Nat) :
    significand ≤ Nat.ofDigitChars 10 cs significand :=
  (Nat.le_mul_of_pos_right _ (Nat.pow_pos (by decide))).trans (le_ofDigitChars cs significand)

theorem ofDigitChars_lt (h : ∀ c ∈ cs, c.isDigit = true) :
    Nat.ofDigitChars 10 cs 0 < 10 ^ cs.length := by
  induction cs with
  | nil => exact Nat.one_pos
  | cons c cs ih =>
    obtain ⟨hc, hcs⟩ := List.forall_mem_cons.mp h
    have hdigit : digitValue c ≤ 9 := by
      have hrange : 48 ≤ c.toNat ∧ c.toNat ≤ 57 := Char.isDigit_iff_toNat.mp hc
      show c.toNat - 48 ≤ 9
      omega
    rw [ofDigitChars_cons, Nat.zero_mul, Nat.zero_add, Nat.ofDigitChars_eq_ofDigitChars_zero,
      List.length_cons, Nat.pow_succ]
    have := ih hcs
    have := Nat.mul_le_mul_left (10 ^ cs.length) hdigit
    omega

/-- The digits that a significand takes up, and those that are left over. -/
theorem accumulate_spec (cs : List Char) (h : significand ≤ maxSignificand) :
    ∃ taken, cs = taken ++ (accumulate significand cs).2 ∧
      (accumulate significand cs).1 = Nat.ofDigitChars 10 taken significand ∧
      (accumulate significand cs).1 ≤ maxSignificand := by
  induction cs generalizing significand with
  | nil => exact ⟨[], rfl, rfl, h⟩
  | cons c cs ih =>
    unfold accumulate
    dsimp only
    split
    · exact ⟨[], rfl, rfl, h⟩
    · rename_i hnext
      obtain ⟨taken, hcs, hvalue, hle⟩ := ih (not_lt.mp hnext)
      refine ⟨c :: taken, ?_, ?_, hle⟩
      · rw [List.cons_append, ← hcs]
      · rw [ofDigitChars_cons, hvalue]

theorem accumulate_of_le (h : Nat.ofDigitChars 10 cs significand ≤ maxSignificand) :
    accumulate significand cs = (Nat.ofDigitChars 10 cs significand, []) := by
  induction cs generalizing significand with
  | nil => rfl
  | cons c cs ih =>
    rw [ofDigitChars_cons] at h ⊢
    unfold accumulate
    dsimp only
    rw [if_neg (not_lt.mpr ((self_le_ofDigitChars cs _).trans h)), ih h]

/-- Digits are added to an exponent until it is taken for an infinite one. -/
theorem foldl_exponent (cs : List Char) (n : Nat) :
    let e := cs.foldl (fun n c => if maxExponent < n then n else n * 10 + digitValue c) n
    e = Nat.ofDigitChars 10 cs n ∨ maxExponent < e ∧ maxExponent < Nat.ofDigitChars 10 cs n := by
  induction cs generalizing n with
  | nil => exact .inl rfl
  | cons c cs ih =>
    dsimp only at ih ⊢
    rw [List.foldl_cons]
    by_cases hn : maxExponent < n
    · rw [if_pos hn]
      refine .inr ⟨?_, hn.trans_le (self_le_ofDigitChars (c :: cs) n)⟩
      rcases ih n with heq | ⟨hlarge, -⟩
      · exact heq ▸ hn.trans_le (self_le_ofDigitChars cs n)
      · exact hlarge
    · rw [if_neg hn, ofDigitChars_cons]
      exact ih _

theorem exponentValue_eq (cs : List Char) : exponentValue cs =
    if maxExponent < Nat.ofDigitChars 10 cs 0 then none else some (Nat.ofDigitChars 10 cs 0) := by
  unfold exponentValue
  dsimp only
  rcases foldl_exponent cs 0 with heq | ⟨hlarge, hlarge'⟩
  · rw [heq]
  · rw [if_pos hlarge, if_pos hlarge']

/-! ### Powers of ten -/

theorem tenPower_rank_mono {k k' : Nat} (h : k ≤ k') : (tenPower k).rank ≤ (tenPower k').rank :=
  ofNat_rank_mono (Nat.pow_le_pow_right (by decide) h)

theorem isFinite_of_rank_le (h : x.rank ≤ y.rank) (hy : y.isFinite = true) : x.isFinite = true :=
  (isFinite_iff x).mpr (h.trans_lt ((isFinite_iff y).mp hy))

/-- the largest product for each of the larger powers of ten -/
theorem topBound_div_isFinite : ∀ j < 20,
    ((ofNat (topBound / 10 ^ (289 + j))).mul (tenPower (289 + j))).isFinite = true := by
  decide +kernel

theorem mul_tenPower_isFinite (hsignificand : significand ≤ maxSignificand) (hk : k ≤ maxStep)
    (h : significand * 10 ^ k ≤ topBound) :
    ((ofNat significand).mul (tenPower k)).isFinite = true := by
  rcases Nat.lt_or_ge k 289 with hsmall | hlarge
  · refine isFinite_of_rank_le (y := (ofNat maxSignificand).mul (tenPower 288)) ?_ (by decide +kernel)
    exact mul_rank_mono (ofNat_rank_mono hsignificand) (tenPower_rank_mono (Nat.le_of_lt_succ hsmall))
  · obtain ⟨j, rfl⟩ := Nat.exists_eq_add_of_le hlarge
    refine isFinite_of_rank_le (mul_rank_mono (ofNat_rank_mono ?_) (Nat.le_refl _))
      (topBound_div_isFinite j (by unfold maxStep at hk; omega))
    exact (Nat.le_div_iff_mul_le (Nat.pow_pos (by decide))).mpr h

theorem scale_isSome_of_neg (fuel : Nat) (x : Binary64) (he : e < 0) :
    (scale fuel x e).isSome = true := by
  fun_induction scale fuel x e with
  | case1 | case4 | case6 => rfl
  | case2 | case3 | case5 => omega
  | case7 _ _ _ _ _ _ ih => exact ih (by unfold maxStep at *; omega)

theorem scale_isSome (hsignificand : significand ≤ maxSignificand)
    (h : (significand : ℚ) * 10 ^ e ≤ topBound) (fuel : Nat) :
    (scale fuel (ofNat significand) e).isSome = true := by
  by_cases he : e < 0
  · exact scale_isSome_of_neg fuel _ he
  obtain ⟨k, rfl⟩ := Int.eq_ofNat_of_zero_le (not_lt.mp he)
  have h : significand * 10 ^ k ≤ topBound := by
    rw [zpow_natCast] at h
    exact_mod_cast h
  unfold scale
  rw [Int.natAbs_natCast, if_neg he]
  by_cases hk : k ≤ maxStep
  · rw [if_pos hk, if_pos (mul_tenPower_isFinite hsignificand hk h)]
    rfl
  · -- beyond that power of ten there is only zero
    have hzero : significand = 0 := by
      by_contra hne
      have hpow : 10 ^ (maxStep + 1) ≤ 10 ^ k := Nat.pow_le_pow_right (by decide) (not_le.mp hk)
      have hproduct := hpow.trans (Nat.le_mul_of_pos_left _ (Nat.pos_of_ne_zero hne))
      exact absurd (hproduct.trans h) (by decide +kernel)
    have hrank : (ofNat significand).rank = 0 := by rw [hzero]; decide
    rw [if_neg hk, if_pos hrank]
    rfl

/-! ### Numerals -/

/-- the digits of a numeral, without its point -/
def Parts.digits (p : Parts) : List Char := p.whole ++ p.fraction.getD []

/-- the power of ten that the exponent stands for -/
def Parts.power (p : Parts) : Int :=
  p.exponent.elim 0 fun (negative, digits) =>
    if negative then -Nat.ofDigitChars 10 digits 0 else Nat.ofDigitChars 10 digits 0

/-- the absolute value that a numeral stands for, before it is rounded -/
def Parts.value (p : Parts) : ℚ :=
  Nat.ofDigitChars 10 p.digits 0 * 10 ^ (p.power - (p.fraction.getD []).length)

/-- a numeral that is no larger than the midpoint below the largest number, whose integer digits fit
into a significand, and whose exponent is not taken for an infinite one -/
structure Parts.Fits (p : Parts) : Prop where
  whole : Nat.ofDigitChars 10 p.whole 0 ≤ maxSignificand
  exponent : ∀ digits, p.exponent = some (false, digits) →
    Nat.ofDigitChars 10 digits 0 ≤ maxExponent
  value : p.value ≤ topBound

theorem Parts.value_lt (h : ∀ c ∈ p.digits, c.isDigit = true) :
    p.value < 10 ^ (p.whole.length + p.power) := by
  have hlt : ((Nat.ofDigitChars 10 p.digits 0 : Nat) : ℚ) < 10 ^ (p.digits.length : Int) := by
    rw [zpow_natCast]
    exact_mod_cast ofDigitChars_lt h
  have hsplit : (p.whole.length : Int) + p.power =
      p.digits.length + (p.power - (p.fraction.getD []).length) := by
    rw [digits, List.length_append]
    omega
  rw [hsplit, zpow_add₀ (by decide)]
  exact mul_lt_mul_of_pos_right hlt (zpow_pos (by decide) _)

theorem Parts.value_le {taken left : List Char} (h : p.fraction.getD [] = taken ++ left) :
    (Nat.ofDigitChars 10 taken (Nat.ofDigitChars 10 p.whole 0) : ℚ) *
      10 ^ (p.power - taken.length) ≤ p.value := by
  have hle : ((Nat.ofDigitChars 10 taken (Nat.ofDigitChars 10 p.whole 0) : Nat) : ℚ) *
      10 ^ (left.length : Int) ≤ Nat.ofDigitChars 10 p.digits 0 := by
    rw [digits, h, Nat.ofDigitChars_append, Nat.ofDigitChars_append, zpow_natCast]
    exact_mod_cast le_ofDigitChars left _
  have hsplit : p.power - taken.length =
      left.length + (p.power - (p.fraction.getD []).length) := by
    rw [h, List.length_append]
    omega
  rw [hsplit, zpow_add₀ (by decide), ← mul_assoc]
  exact mul_le_mul_of_nonneg_right hle (zpow_nonneg (by decide) _)

theorem Parts.Fits.float_isSome (h : p.Fits) : p.float.isSome = true := by
  obtain ⟨hwhole, hexponent, hvalue⟩ := h
  obtain ⟨taken, hfraction, hsignificand, hle⟩ := accumulate_spec (p.fraction.getD []) hwhole
  have hscale := (p.value_le hfraction).trans hvalue
  rw [← hsignificand] at hscale
  unfold float
  rw [accumulate_of_le hwhole]
  dsimp only
  generalize accumulate (Nat.ofDigitChars 10 p.whole 0) (p.fraction.getD []) = acc at *
  obtain ⟨significand, left⟩ := acc
  dsimp only at *
  have hpoint : ((([] : List Char).length : Nat) : Int) -
      ((p.fraction.getD []).length - left.length : Nat) = -taken.length := by
    rw [hfraction, List.length_append, Nat.add_sub_cancel]
    exact zero_sub _
  rw [hpoint]
  unfold power at hscale
  cases hexp : p.exponent with
  | none =>
    rw [hexp, Option.elim_none, zero_sub] at hscale
    dsimp only
    rw [Option.isSome_map]
    exact scale_isSome hle hscale 3
  | some e =>
    obtain ⟨negative, digits⟩ := e
    rw [hexp, Option.elim_some] at hscale
    dsimp only at hscale ⊢
    rw [exponentValue_eq]
    by_cases hlarge : maxExponent < Nat.ofDigitChars 10 digits 0
    · have hnegative : negative = true := by
        by_contra hpositive
        rw [Bool.not_eq_true] at hpositive
        exact absurd (hexponent digits (hpositive ▸ hexp)) (not_le.mpr hlarge)
      rw [if_pos hlarge]
      dsimp only
      rw [hnegative, Bool.or_true, if_pos rfl]
      rfl
    · rw [if_neg hlarge]
      dsimp only
      rw [Option.isSome_map]
      refine scale_isSome hle ?_ 3
      have hsum : (if negative = true then -(taken.length : Int) - Nat.ofDigitChars 10 digits 0
          else -(taken.length : Int) + Nat.ofDigitChars 10 digits 0) =
          (if negative = true then -(Nat.ofDigitChars 10 digits 0 : Int)
            else Nat.ofDigitChars 10 digits 0) - taken.length := by
        split <;> omega
      rw [hsum]
      exact hscale

/-! ### What is read is finite -/

theorem div_tenPower_rank_le (h : x.rank ≤ (ofNat maxSignificand).rank) (k : Nat) :
    (x.div (tenPower k)).rank ≤ (ofNat maxSignificand).rank := by
  have hself : ((ofNat maxSignificand).div (tenPower 0)).rank = (ofNat maxSignificand).rank := by
    decide +kernel
  rw [← hself]
  exact div_rank_mono h (tenPower_rank_mono (Nat.zero_le k)) (by decide +kernel)

theorem isFinite_of_scale (hx : x.rank ≤ (ofNat maxSignificand).rank)
    (h : scale fuel x e = some y) : y.isFinite = true := by
  have hle : ∀ {z : Binary64}, z.rank ≤ (ofNat maxSignificand).rank → z.isFinite = true :=
    fun hz => isFinite_of_rank_le hz (by decide +kernel)
  fun_induction scale fuel x e with
  | case1 => exact Option.some.inj h ▸ hle (div_tenPower_rank_le hx _)
  | case2 _ _ _ _ _ _ hfinite => exact Option.some.inj h ▸ hfinite
  | case4 => exact Option.some.inj h ▸ hle hx
  | case6 => exact Option.some.inj h ▸ rfl
  | case7 _ _ _ _ _ _ ih => exact ih (div_tenPower_rank_le hx _) h
  | case3 | case5 => cases h

theorem Parts.isFinite_of_float (h : p.float = some x) : x.isFinite = true := by
  obtain ⟨-, -, -, hwhole⟩ := accumulate_spec p.whole (Nat.zero_le maxSignificand)
  obtain ⟨-, -, -, hle⟩ := accumulate_spec (p.fraction.getD []) hwhole
  have hsigned : ∀ {e : Int}, (scale 3 (ofNat (accumulate (accumulate 0 p.whole).1
      (p.fraction.getD [])).1) e).map (fun y => { y with negative := p.negative }) = some x →
      x.isFinite = true := fun h => by
    obtain ⟨y, hy, rfl⟩ := Option.map_eq_some_iff.mp h
    exact isFinite_of_scale (y := y) (ofNat_rank_mono hle) hy
  unfold float at h
  dsimp only at h
  split at h
  · exact hsigned h
  · split at h
    · exact hsigned h
    · split at h
      · exact Option.some.inj h ▸ rfl
      · cases h

theorem Parts.number_of_float (h : (p.fraction.isNone && p.exponent.isNone) = false) :
    p.number = p.float.map .float := by
  unfold number
  rw [h, if_neg Bool.false_ne_true]

theorem Parts.inRange_of_number {n : Number} (h : p.number = some n) : n.InRange := by
  have hfloat : p.float.map .float = some n → n.InRange := fun h => by
    obtain ⟨x, hx, rfl⟩ := Option.map_eq_some_iff.mp h
    exact isFinite_of_float hx
  unfold number at h
  dsimp only at h
  split at h
  · split at h
    · rename_i hpositive
      rw [Bool.and_eq_true, decide_eq_true_iff] at hpositive
      obtain rfl := Option.some.inj h
      exact hpositive.2
    · split at h
      · rename_i hnegative
        rw [Bool.and_eq_true, decide_eq_true_iff] at hnegative
        obtain rfl := Option.some.inj h
        show Int.natAbs (-_) ≤ _
        rw [Int.natAbs_neg, Int.natAbs_natCast]
        exact hnegative.2.trans (by decide)
      · exact hfloat h
  · exact hfloat h

end Numeral

end CodeAtlas.Json
