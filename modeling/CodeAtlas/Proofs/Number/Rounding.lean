import Mathlib.Algebra.Order.Field.Power
import Mathlib.Data.Rat.Cast.Order
import Mathlib.Tactic.Ring
import CodeAtlas.Number.Binary64

/-!
# Rounding is monotone

A larger ratio never rounds to a smaller number, and so products and quotients are ordered as their
operands are. What holds of the largest operands then holds of all.

* `exponentFor_spec`    a positive ratio has 53 bits at its exponent, or fewer at the least one;
* `rankOfRatio_mono`    rounding is monotone;
* `ratio_mono`          the numbers are ordered by their ranks;
* `scaled_le_top`       the rounding bounds of all but the largest number end below it;
* `mul_rank_mono`, `div_rank_mono`   products and quotients are ordered by their operands.
-/

namespace CodeAtlas.Binary64

variable {num den num' den' n d n' d' : Nat} {e : Int} {x y x' y' : Binary64}

/-! ### Scaling -/

theorem unscale_den_pos (h : 0 < den) (num : Nat) (e : Int) : 0 < (unscale num den e).2 := by
  unfold unscale
  split
  · exact h
  · exact Nat.mul_pos h (Nat.pow_pos (by decide))

theorem zpow_eq (b : Nat) (e : Int) : (b : ℚ) ^ e =
    if e < 0 then ((Nat.pow b e.natAbs : Nat) : ℚ)⁻¹ else (Nat.pow b e.natAbs : Nat) := by
  rw [Nat.pow_eq, Nat.cast_pow, ← zpow_natCast]
  split
  · rw [← zpow_neg]
    exact congrArg _ (by omega)
  · exact congrArg _ (by omega)

theorem unscale_value (num den : Nat) (e : Int) :
    ((unscale num den e).1 : ℚ) / (unscale num den e).2 = num / den / 2 ^ e := by
  have hpow := zpow_eq 2 e
  rw [Nat.cast_ofNat] at hpow
  rw [hpow]
  unfold unscale
  split
  · rw [Nat.cast_mul, div_inv_eq_mul, mul_div_right_comm]
  · rw [Nat.cast_mul, div_div]

theorem le_unscale_iff (hden : 0 < den) (k : Nat) :
    k * (unscale num den e).2 ≤ (unscale num den e).1 ↔ (k : ℚ) * 2 ^ e ≤ num / den := by
  have hpos : (0 : ℚ) < (unscale num den e).2 := Nat.cast_pos.mpr (unscale_den_pos hden num e)
  rw [← le_div_iff₀ (zpow_pos two_pos e), ← unscale_value, le_div_iff₀ hpos, ← Nat.cast_mul,
    Nat.cast_le]

theorem unscale_le_iff (hden : 0 < den) (k : Nat) :
    (unscale num den e).1 ≤ k * (unscale num den e).2 ↔ (num / den : ℚ) ≤ k * 2 ^ e := by
  have hpos : (0 : ℚ) < (unscale num den e).2 := Nat.cast_pos.mpr (unscale_den_pos hden num e)
  rw [← div_le_iff₀ (zpow_pos two_pos e), ← unscale_value, div_le_iff₀ hpos, ← Nat.cast_mul,
    Nat.cast_le]

theorem span_mul_zpow (e : Int) : ((span : Nat) : ℚ) * 2 ^ e = 2 ^ (e + 52) := by
  have hspan : ((span : Nat) : ℚ) = 2 ^ (52 : Int) := Nat.cast_pow 2 52
  rw [hspan, ← zpow_add₀ two_ne_zero, Int.add_comm]

/-! ### The nearest natural number -/

theorem nearest_mono (hd : 0 < d) (hd' : 0 < d') (h : n * d' ≤ n' * d) :
    nearest n d ≤ nearest n' d' := by
  have hn := Nat.div_add_mod n d
  have hn' := Nat.div_add_mod n' d'
  have hquot : n / d ≤ n' / d' := by
    refine (Nat.le_div_iff_mul_le hd').mpr (Nat.le_of_mul_le_mul_right ?_ hd)
    calc n / d * d' * d = n / d * d * d' := Nat.mul_right_comm ..
      _ ≤ n * d' := Nat.mul_le_mul_right d' (Nat.div_mul_le_self n d)
      _ ≤ n' * d := h
  unfold nearest
  dsimp only
  rcases hquot.lt_or_eq with hlt | heq
  · split <;> split <;> omega
  · have hrem : 2 * (n % d) * d' ≤ 2 * (n' % d') * d := by
      rw [← hn, ← hn', heq] at h
      have hcross : d * (n' / d') * d' = d' * (n' / d') * d := by ring
      rw [Nat.add_mul, Nat.add_mul, hcross] at h
      rw [Nat.mul_assoc, Nat.mul_assoc]
      exact Nat.mul_le_mul_left 2 (Nat.le_of_add_le_add_left h)
    have hup : d < 2 * (n % d) → d' < 2 * (n' % d') := fun hlt => by
      refine Nat.lt_of_mul_lt_mul_right (a := d) ?_
      calc d' * d = d * d' := Nat.mul_comm ..
        _ < 2 * (n % d) * d' := Nat.mul_lt_mul_of_pos_right hlt hd'
        _ ≤ 2 * (n' % d') * d := hrem
    have htie : 2 * (n % d) = d → d' ≤ 2 * (n' % d') := fun htie => by
      refine Nat.le_of_mul_le_mul_right (?_ : d' * d ≤ _ * d) hd
      calc d' * d = 2 * (n % d) * d' := by rw [htie, Nat.mul_comm]
        _ ≤ 2 * (n' % d') * d := hrem
    rw [heq]
    split
    · rename_i hround
      have hround' : d' < 2 * (n' % d') ∨ 2 * (n' % d') = d' ∧ n' / d' % 2 = 1 := by
        rcases hround with hlt | ⟨heven, hodd⟩
        · exact .inl (hup hlt)
        · exact (htie heven).lt_or_eq.imp_right fun heq => ⟨heq.symm, hodd⟩
      rw [if_pos hround']
    · split <;> omega

theorem nearest_self (k : Nat) : nearest k 1 = k := by
  unfold nearest
  rw [Nat.mod_one, Nat.div_one]
  exact if_neg (by omega)

/-! ### The exponent -/

theorem log2_bounds (h : 0 < n) :
    (2 : ℚ) ^ (n.log2 : Int) ≤ n ∧ (n : ℚ) < 2 ^ ((n.log2 : Int) + 1) := by
  refine ⟨?_, ?_⟩
  · rw [zpow_natCast]
    exact_mod_cast Nat.log2_self_le (Nat.ne_of_gt h)
  · rw [← Nat.cast_succ, zpow_natCast]
    exact_mod_cast Nat.lt_log2_self

theorem exponentFor_spec (hnum : 0 < num) (hden : 0 < den) :
    minExponent ≤ exponentFor num den ∧ (num / den : ℚ) < 2 ^ (exponentFor num den + 53) ∧
      (minExponent < exponentFor num den → (2 : ℚ) ^ (exponentFor num den + 52) ≤ num / den) := by
  obtain ⟨hnumLow, hnumHigh⟩ := log2_bounds hnum
  obtain ⟨hdenLow, hdenHigh⟩ := log2_bounds hden
  have hpos : (0 : ℚ) < den := Nat.cast_pos.mpr hden
  generalize hguess : (num.log2 : Int) - den.log2 - 52 = guess
  have hhigh : (num / den : ℚ) < 2 ^ (guess + 53) := by
    rw [div_lt_iff₀ hpos, ← hguess]
    calc (num : ℚ) < 2 ^ ((num.log2 : Int) + 1) := hnumHigh
      _ = 2 ^ ((num.log2 : Int) - den.log2 - 52 + 53) * 2 ^ (den.log2 : Int) := by
        rw [← zpow_add₀ two_ne_zero]
        exact congrArg _ (by omega)
      _ ≤ _ := mul_le_mul_of_nonneg_left hdenLow (zpow_nonneg zero_le_two _)
  have hlow : (2 : ℚ) ^ (guess + 51) ≤ num / den := by
    rw [le_div_iff₀ hpos, ← hguess]
    calc _ ≤ (2 : ℚ) ^ ((num.log2 : Int) - den.log2 - 52 + 51) * 2 ^ ((den.log2 : Int) + 1) :=
          mul_le_mul_of_nonneg_left hdenHigh.le (zpow_nonneg zero_le_two _)
      _ = 2 ^ (num.log2 : Int) := by
        rw [← zpow_add₀ two_ne_zero]
        exact congrArg _ (by omega)
      _ ≤ num := hnumLow
  have htest : (unscale num den guess).1 < (unscale num den guess).2 * span ↔
      (num / den : ℚ) < 2 ^ (guess + 52) := by
    rw [← not_le, Nat.mul_comm, le_unscale_iff hden, span_mul_zpow, not_le]
  have hexponent : ∃ k, exponentFor num den = max k minExponent ∧
      (num / den : ℚ) < 2 ^ (k + 53) ∧ (2 : ℚ) ^ (k + 52) ≤ num / den := by
    refine ⟨if (num / den : ℚ) < 2 ^ (guess + 52) then guess - 1 else guess, ?_, ?_⟩
    · unfold exponentFor
      simp only [hguess, htest]
    · split
      · rename_i hsmall
        refine ⟨?_, ?_⟩
        · rwa [show guess - 1 + 53 = guess + 52 by omega]
        · rwa [show guess - 1 + 52 = guess + 51 by omega]
      · rename_i hlarge
        exact ⟨hhigh, not_lt.mp hlarge⟩
  obtain ⟨k, heq, hbelow, habove⟩ := hexponent
  rw [heq]
  refine ⟨le_max_right _ _, hbelow.trans_le ?_, fun hmin => ?_⟩
  · exact zpow_le_zpow_right₀ one_le_two (Int.add_le_add_right (le_max_left _ _) 53)
  · rwa [max_eq_left ((lt_max_iff.mp hmin).resolve_right (lt_irrefl _)).le]

/-- a ratio rounds to a significand that its exponent has room for -/
theorem nearest_unscale_le (hden : 0 < den) (h : (num / den : ℚ) < 2 ^ (e + 53)) :
    nearest (unscale num den e).1 (unscale num den e).2 ≤ 2 * span := by
  rw [← nearest_self (2 * span)]
  refine nearest_mono (unscale_den_pos hden num e) Nat.one_pos ?_
  rw [Nat.mul_one, unscale_le_iff hden, Nat.cast_mul, mul_assoc, span_mul_zpow]
  refine h.le.trans_eq ?_
  rw [Nat.cast_ofNat, ← zpow_one_add₀ two_ne_zero]
  exact congrArg _ (by omega)

theorem span_le_nearest_unscale (hden : 0 < den) (h : (2 : ℚ) ^ (e + 52) ≤ num / den) :
    span ≤ nearest (unscale num den e).1 (unscale num den e).2 := by
  rw [← nearest_self span]
  refine nearest_mono Nat.one_pos (unscale_den_pos hden num e) ?_
  rwa [Nat.mul_one, le_unscale_iff hden, span_mul_zpow]

/-! ### Ranks of ratios -/

theorem carry_le {place place' width : Nat} (hplace : place < place') (hn : n ≤ 2 * width)
    (hn' : width ≤ n') : place * width + n ≤ place' * width + n' :=
  calc place * width + n ≤ place * width + 2 * width := Nat.add_le_add_left hn _
    _ = (place + 1) * width + width := by ring
    _ ≤ place' * width + n' := Nat.add_le_add (Nat.mul_le_mul_right width hplace) hn'

theorem rankOfRatio_eq (hnum : num ≠ 0) (den : Nat) :
    rankOfRatio num den = (exponentFor num den - minExponent).toNat * span +
      nearest (unscale num den (exponentFor num den)).1
        (unscale num den (exponentFor num den)).2 := by
  -- a variable in place of the exponent, which would be computed otherwise
  obtain ⟨e, he⟩ : ∃ e, exponentFor num den = e := ⟨_, rfl⟩
  unfold rankOfRatio
  rw [he]
  exact if_neg hnum

theorem rankOfRatio_mono (hden : 0 < den) (hden' : 0 < den') (h : num * den' ≤ num' * den) :
    rankOfRatio num den ≤ rankOfRatio num' den' := by
  by_cases hnum : num = 0
  · rw [rankOfRatio, if_pos hnum]
    exact Nat.zero_le _
  have hnum' : num' ≠ 0 := by
    rintro rfl
    rw [Nat.zero_mul] at h
    exact absurd (Nat.le_zero.mp h) (Nat.mul_ne_zero hnum (Nat.ne_of_gt hden'))
  rw [rankOfRatio_eq hnum, rankOfRatio_eq hnum']
  obtain ⟨hmin, hbelow, habove⟩ := exponentFor_spec (Nat.pos_of_ne_zero hnum) hden
  obtain ⟨hmin', hbelow', habove'⟩ := exponentFor_spec (Nat.pos_of_ne_zero hnum') hden'
  have hle : (num / den : ℚ) ≤ num' / den' := by
    rw [div_le_div_iff₀ (Nat.cast_pos.mpr hden) (Nat.cast_pos.mpr hden')]
    exact_mod_cast h
  generalize exponentFor num den = e at *
  generalize hexp' : exponentFor num' den' = e' at *
  rcases lt_trichotomy e e' with hlt | rfl | hgt
  · -- the larger exponent begins where the smaller one ends
    have hnearest := nearest_unscale_le hden hbelow
    have hnearest' : span ≤ nearest (unscale num' den' e').1 (unscale num' den' e').2 :=
      span_le_nearest_unscale hden' (habove' (by omega))
    exact carry_le (by omega) hnearest hnearest'
  · refine Nat.add_le_add_left ?_ _
    refine nearest_mono (unscale_den_pos hden num e) (unscale_den_pos hden' num' e) ?_
    rw [← Nat.cast_le (α := ℚ), Nat.cast_mul, Nat.cast_mul,
      ← div_le_div_iff₀ (Nat.cast_pos.mpr (unscale_den_pos hden num e))
        (Nat.cast_pos.mpr (unscale_den_pos hden' num' e)), unscale_value, unscale_value]
    exact div_le_div_of_nonneg_right hle (zpow_nonneg zero_le_two e)
  · have hroom : (2 : ℚ) ^ (e' + 53) ≤ 2 ^ (e + 52) := zpow_le_zpow_right₀ one_le_two (by omega)
    exact absurd (((habove (by omega)).trans hle).trans_lt hbelow') (not_lt.mpr hroom)

/-! ### Ranks and absolute values -/

theorem span_pos : 0 < span := Nat.pow_pos (by decide)

/-- the absolute value of a finite number of the rank, in units of the least positive number -/
def units (rank : Nat) : Nat :=
  if rank < span then rank else (rank % span + span) * 2 ^ (rank / span - 1)

/-- how many units make one -/
def unitsOfOne : Nat := 2 ^ minExponent.natAbs

theorem unitsOfOne_pos : 0 < unitsOfOne := Nat.two_pow_pos _

theorem units_mono {rank rank' : Nat} (h : rank ≤ rank') : units rank ≤ units rank' := by
  have hquot : rank / span ≤ rank' / span := Nat.div_le_div_right h
  unfold units
  by_cases hrank : rank < span
  · rw [if_pos hrank]
    split
    · exact h
    · exact (hrank.le.trans (Nat.le_add_left span _)).trans
        (Nat.le_mul_of_pos_right _ (Nat.two_pow_pos _))
  · rw [if_neg hrank, if_neg (not_lt.mpr ((not_lt.mp hrank).trans h))]
    rcases hquot.lt_or_eq with hlt | heq
    · have hpos : 1 ≤ rank / span := Nat.div_pos (not_lt.mp hrank) span_pos
      calc (rank % span + span) * 2 ^ (rank / span - 1)
          ≤ (span + span) * 2 ^ (rank / span - 1) :=
            Nat.mul_le_mul_right _ (Nat.add_le_add_right (Nat.mod_lt rank span_pos).le span)
        _ = span * 2 ^ (rank / span) := by
            rw [← Nat.two_mul, Nat.mul_comm 2, Nat.mul_assoc, ← Nat.pow_succ',
              Nat.succ_eq_add_one, Nat.sub_add_cancel hpos]
        _ ≤ (rank' % span + span) * 2 ^ (rank' / span - 1) :=
            Nat.mul_le_mul (Nat.le_add_left span _)
              (Nat.pow_le_pow_right Nat.two_pos (Nat.le_sub_one_of_lt hlt))
    · have hrem := Nat.div_add_mod rank span
      have hrem' := Nat.div_add_mod rank' span
      rw [← heq] at hrem' ⊢
      exact Nat.mul_le_mul_right _ (by omega)

theorem ratio_den_pos (x : Binary64) : 0 < x.ratio.2 := by
  unfold ratio ratioOfScaled
  split
  · exact Nat.pow_pos (by decide)
  · exact Nat.one_pos

theorem ratioOfScaled_units (m k : Nat) :
    (ratioOfScaled m (minExponent + k)).1 * unitsOfOne =
      m * 2 ^ k * (ratioOfScaled m (minExponent + k)).2 := by
  unfold ratioOfScaled unitsOfOne
  split
  · show m * 2 ^ minExponent.natAbs = m * 2 ^ k * 2 ^ (minExponent + k).natAbs
    rw [Nat.mul_assoc, ← Nat.pow_add]
    exact congrArg (m * 2 ^ ·) (by omega)
  · show m * 2 ^ (minExponent + k).natAbs * 2 ^ minExponent.natAbs = m * 2 ^ k * 1
    rw [Nat.mul_assoc, ← Nat.pow_add, Nat.mul_one]
    have : minExponent < 0 := by decide
    exact congrArg (m * 2 ^ ·) (by omega)

theorem ratio_units (x : Binary64) : x.ratio.1 * unitsOfOne = units x.rank * x.ratio.2 := by
  unfold ratio scaled units
  split
  · have h := ratioOfScaled_units x.rank 0
    rwa [Nat.pow_zero, Nat.mul_one] at h
  · exact ratioOfScaled_units (x.rank % span + span) (x.rank / span - 1)

theorem ratio_mono (h : x.rank ≤ y.rank) : x.ratio.1 * y.ratio.2 ≤ y.ratio.1 * x.ratio.2 := by
  refine Nat.le_of_mul_le_mul_right ?_ unitsOfOne_pos
  calc x.ratio.1 * y.ratio.2 * unitsOfOne = units x.rank * (x.ratio.2 * y.ratio.2) := by
        rw [Nat.mul_right_comm, ratio_units, Nat.mul_assoc]
    _ ≤ units y.rank * (x.ratio.2 * y.ratio.2) := Nat.mul_le_mul_right _ (units_mono h)
    _ = y.ratio.1 * x.ratio.2 * unitsOfOne := by
        rw [Nat.mul_right_comm, ratio_units, Nat.mul_assoc, Nat.mul_comm x.ratio.2]

theorem ratio_num_pos (h : x.rank ≠ 0) : 0 < x.ratio.1 := by
  have hunits : 0 < units x.rank := by
    unfold units
    split
    · exact Nat.pos_of_ne_zero h
    · exact Nat.mul_pos (Nat.add_pos_right _ span_pos) (Nat.two_pow_pos _)
  have hscaled := Nat.mul_pos hunits x.ratio_den_pos
  rw [← ratio_units] at hscaled
  exact Nat.pos_of_mul_pos_right hscaled

/-! ### The largest numbers -/

/-- half way between the two largest numbers -/
def topBound : Nat := (4 * span - 3) * 2 ^ 970

theorem isFinite_iff (x : Binary64) : x.isFinite = true ↔ x.rank < infinityRank :=
  decide_eq_true_iff

theorem ofRank_rank (h : x.isFinite = true) : ofRank x.negative x.rank = x :=
  dif_pos ((isFinite_iff x).mp h)

theorem scaled_pos (h : x.rank ≠ 0) : 0 < x.scaled.1 := by
  unfold scaled
  split
  · exact Nat.pos_of_ne_zero h
  · exact Nat.add_pos_right _ span_pos

theorem scaled_lt (h : x.isFinite = true) : x.scaled.1 < 2 * span ∧ x.scaled.2 ≤ 971 := by
  have hquot : x.rank / span < 2047 := (Nat.div_lt_iff_lt_mul span_pos).mpr ((isFinite_iff x).mp h)
  have hrem := Nat.mod_lt x.rank span_pos
  unfold scaled minExponent
  split
  · exact ⟨by omega, Int.neg_le_of_neg_le (by decide)⟩
  · exact ⟨show _ + _ < _ by omega, show -1074 + ((_ : Nat) : Int) ≤ _ by omega⟩

theorem scaled_below_top (h : x.rank + 1 < infinityRank) :
    x.scaled.2 ≤ 970 ∨ x.scaled.2 = 971 ∧ x.scaled.1 + 1 < 2 * span := by
  have hquot : x.rank / span < 2047 :=
    (Nat.div_lt_iff_lt_mul span_pos).mpr ((Nat.lt_succ_self _).trans h)
  have hdivision := Nat.div_add_mod x.rank span
  unfold scaled minExponent
  split
  · exact .inl (show (-1074 : Int) ≤ 970 by decide)
  · dsimp only
    rcases Nat.lt_or_eq_of_le (Nat.le_of_lt_succ hquot) with hlt | heq
    · exact .inl (by omega)
    · rw [heq] at hdivision ⊢
      unfold infinityRank at h
      exact .inr ⟨by decide, by omega⟩

theorem mul_zpow_le {a : Nat} (ha : a ≤ n) {k : Nat} (he : e ≤ k) :
    (a : ℚ) * 2 ^ e ≤ (n * 2 ^ k : Nat) := by
  rw [Nat.cast_mul, Nat.cast_pow, Nat.cast_ofNat, ← zpow_natCast]
  exact mul_le_mul (Nat.cast_le.mpr ha) (zpow_le_zpow_right₀ one_le_two he)
    (zpow_nonneg zero_le_two _) (Nat.cast_nonneg _)

/-- The upper rounding bound of any number but the largest. -/
theorem scaled_le_top (h : x.rank + 1 < infinityRank) :
    ((2 * x.scaled.1 + 1 : Nat) : ℚ) * 2 ^ (x.scaled.2 - 1) ≤ topBound := by
  have hfinite := (isFinite_iff x).mpr ((Nat.lt_succ_self _).trans h)
  rcases scaled_below_top h with he | ⟨he, hm⟩
  · have hm := (scaled_lt hfinite).1
    have hle := mul_zpow_le (a := 2 * x.scaled.1 + 1) (n := 4 * span - 1) (e := x.scaled.2 - 1)
      (k := 969) (by omega) (by omega)
    exact hle.trans (Nat.cast_le.mpr (by decide +kernel))
  · exact mul_zpow_le (n := 4 * span - 3) (by omega) (k := 970) (by omega)

/-! ### Operations -/

theorem rank_ofRank (negative : Bool) (rank : Nat) :
    (ofRank negative rank).rank = min rank infinityRank := by
  unfold ofRank
  split
  · rename_i h
    exact (min_eq_left h.le).symm
  · rename_i h
    exact (min_eq_right (not_lt.mp h)).symm

theorem ofNat_rank_mono {k k' : Nat} (h : k ≤ k') : (ofNat k).rank ≤ (ofNat k').rank := by
  unfold ofNat
  rw [rank_ofRank, rank_ofRank]
  exact min_le_min_right _ (rankOfRatio_mono Nat.one_pos Nat.one_pos (Nat.mul_le_mul_right 1 h))

theorem mul_rank_mono (hx : x.rank ≤ x'.rank) (hy : y.rank ≤ y'.rank) :
    (x.mul y).rank ≤ (x'.mul y').rank := by
  unfold mul
  rw [rank_ofRank, rank_ofRank]
  refine min_le_min_right _ (rankOfRatio_mono (Nat.mul_pos x.ratio_den_pos y.ratio_den_pos)
    (Nat.mul_pos x'.ratio_den_pos y'.ratio_den_pos) ?_)
  rw [Nat.mul_mul_mul_comm, Nat.mul_mul_mul_comm x'.ratio.1]
  exact Nat.mul_le_mul (ratio_mono hx) (ratio_mono hy)

theorem div_rank_mono (hx : x.rank ≤ x'.rank) (hy : y'.rank ≤ y.rank) (hpos : y'.rank ≠ 0) :
    (x.div y).rank ≤ (x'.div y').rank := by
  have hpos' : y.rank ≠ 0 := fun hzero => hpos (Nat.le_zero.mp (hzero ▸ hy))
  unfold div
  rw [rank_ofRank, rank_ofRank]
  refine min_le_min_right _ (rankOfRatio_mono (Nat.mul_pos x.ratio_den_pos (ratio_num_pos hpos'))
    (Nat.mul_pos x'.ratio_den_pos (ratio_num_pos hpos)) ?_)
  rw [Nat.mul_mul_mul_comm, Nat.mul_mul_mul_comm x'.ratio.1, Nat.mul_comm y.ratio.2,
    Nat.mul_comm y'.ratio.2]
  exact Nat.mul_le_mul (ratio_mono hx) (ratio_mono hy)

end CodeAtlas.Binary64
