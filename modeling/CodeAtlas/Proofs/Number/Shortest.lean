import CodeAtlas.Number.Text
import CodeAtlas.Proofs.Number.Rounding

/-!
# The shortest decimal of a number

What the shortest decimal of a number stands for lies within the number's rounding bounds. Near the
largest number this is what keeps it from being too large to be read.

* `shortest_digits_pos`   the shortest decimal of a positive number is positive;
* `Interval.le_onGrid`, `Interval.onGrid_le`   a grid point that is a hit lies within the bounds;
* `Interval.onGrid_isSome`   a grid finer than the bounds has a hit;
* `shortest_le_top`   no number but the largest has a decimal beyond the midpoint below the largest.
-/

namespace CodeAtlas.Decimal

open Binary64

variable {m n d c k fuel count : Nat} {e g lead : Int} {i : Interval} {x : Binary64}

/-! ### Grids -/

theorem unitRatio_pos (e g : Int) : 0 < (unitRatio e g).1 ∧ 0 < (unitRatio e g).2 := by
  have htwos : 0 < Nat.pow 2 e.natAbs := Nat.pow_pos (by decide)
  have htens : 0 < Nat.pow 10 g.natAbs := Nat.pow_pos (by decide)
  have hboth := Nat.mul_pos htwos htens
  unfold unitRatio
  dsimp only
  split <;> constructor <;> first | assumption | exact Nat.one_pos

theorem unitRatio_value (e g : Int) :
    ((unitRatio e g).1 : ℚ) / (unitRatio e g).2 = 2 ^ e / 10 ^ g := by
  have htwos := zpow_eq 2 e
  have htens := zpow_eq 10 g
  rw [Nat.cast_ofNat] at htwos htens
  rw [htwos, htens]
  unfold unitRatio
  dsimp only
  by_cases he : e < 0 <;> by_cases hg : g < 0 <;>
    simp only [he, hg, decide_true, decide_false, if_true, if_false]
  · rw [inv_div_inv]
  · rw [Nat.cast_one, Nat.cast_mul, one_div, mul_inv, div_eq_mul_inv]
  · rw [Nat.cast_one, Nat.cast_mul, div_one, div_inv_eq_mul]

/-- how a multiple of the unit compares with a point of the grid -/
theorem mul_unitRatio_le (a b : Nat) :
    a * (unitRatio e g).1 ≤ b * (unitRatio e g).2 ↔ (a : ℚ) * 2 ^ e ≤ b * 10 ^ g := by
  obtain ⟨-, hpos⟩ := unitRatio_pos e g
  have htens : (0 : ℚ) < 10 ^ g := zpow_pos (by norm_num) g
  rw [← div_le_iff₀ htens, mul_div_assoc, ← unitRatio_value, ← mul_div_assoc,
    div_le_iff₀ (Nat.cast_pos.mpr hpos)]
  exact_mod_cast Iff.rfl

theorem le_mul_unitRatio (a b : Nat) :
    b * (unitRatio e g).2 ≤ a * (unitRatio e g).1 ↔ (b : ℚ) * 10 ^ g ≤ a * 2 ^ e := by
  obtain ⟨-, hpos⟩ := unitRatio_pos e g
  have htens : (0 : ℚ) < 10 ^ g := zpow_pos (by norm_num) g
  rw [← le_div_iff₀ htens, mul_div_assoc, ← unitRatio_value, ← mul_div_assoc,
    le_div_iff₀ (Nat.cast_pos.mpr hpos)]
  exact_mod_cast Iff.rfl

theorem Interval.low_le_of_holds {s t : Nat} (h : i.holds s t d = true) :
    i.low * s ≤ d * t ∧ d * t ≤ i.high * s := by
  unfold holds at h
  split at h <;> simp only [Bool.and_eq_true, decide_eq_true_eq] at h
  · exact h
  · exact ⟨h.1.le, h.2.le⟩

/-- A hit is the grid point below the value or the one above it, and lies within the bounds. -/
theorem Interval.onGrid_eq_some (h : i.onGrid g = some d) :
    i.value * (unitRatio i.exponent g).1 / (unitRatio i.exponent g).2 ≤ d ∧
      i.holds (unitRatio i.exponent g).1 (unitRatio i.exponent g).2 d = true := by
  unfold onGrid at h
  dsimp only at h
  split at h
  · rename_i hdown hup
    split at h <;> cases h
    · exact ⟨Nat.le_refl _, hdown⟩
    · exact ⟨Nat.le_succ _, hup⟩
  · rename_i hdown _
    cases h
    exact ⟨Nat.le_refl _, hdown⟩
  · rename_i hup
    cases h
    exact ⟨Nat.le_succ _, hup⟩
  · cases h

theorem Interval.onGrid_le (h : i.onGrid g = some d) :
    (d : ℚ) * 10 ^ g ≤ i.high * 2 ^ i.exponent :=
  (le_mul_unitRatio i.high d).mp (low_le_of_holds (onGrid_eq_some h).2).2

theorem Interval.le_onGrid (h : i.onGrid g = some d)
    (hk : (k : ℚ) * 10 ^ g ≤ i.value * 2 ^ i.exponent) : k ≤ d := by
  obtain ⟨-, hpos⟩ := unitRatio_pos i.exponent g
  refine ((Nat.le_div_iff_mul_le hpos).mpr ?_).trans (onGrid_eq_some h).1
  exact (le_mul_unitRatio i.value k).mpr hk

theorem Interval.onGrid_pos (hlow : 0 < i.low) (h : i.onGrid g = some d) : 0 < d := by
  have hlow := (low_le_of_holds (onGrid_eq_some h).2).1.trans_lt' 
    (Nat.mul_pos hlow (unitRatio_pos i.exponent g).1)
  exact Nat.pos_of_mul_pos_right hlow

theorem Interval.holds_of_lt {s t : Nat} (hlow : i.low * s < d * t) (hhigh : d * t < i.high * s) :
    i.holds s t d = true := by
  unfold holds
  split <;> simp only [Bool.and_eq_true, decide_eq_true_eq]
  · exact ⟨hlow.le, hhigh.le⟩
  · exact ⟨hlow, hhigh⟩

/-- Between bounds of half a unit in the last place there is a point of every finer grid. -/
theorem Interval.onGrid_isSome (hlow : i.value = i.low + 2) (hhigh : i.high = i.value + 2)
    (hgrid : (10 : ℚ) ^ g < 4 * 2 ^ i.exponent) : (i.onGrid g).isSome = true := by
  obtain ⟨hs, ht⟩ := unitRatio_pos i.exponent g
  have hfine : ¬ 4 * (unitRatio i.exponent g).1 ≤ 1 * (unitRatio i.exponent g).2 := by
    rw [mul_unitRatio_le, Nat.cast_ofNat, Nat.cast_one, one_mul, not_le]
    exact hgrid
  unfold onGrid
  dsimp only
  generalize (unitRatio i.exponent g).1 = s at *
  generalize (unitRatio i.exponent g).2 = t at *
  have hnear : i.holds s t (i.value * s / t) = true ∨ i.holds s t (i.value * s / t + 1) = true := by
    have hdivision := Nat.div_add_mod' (i.value * s) t
    have hrem := Nat.mod_lt (i.value * s) ht
    have hbelow : i.value * s = i.low * s + 2 * s := by rw [hlow, Nat.add_mul]
    have habove : i.high * s = i.value * s + 2 * s := by rw [hhigh, Nat.add_mul]
    have hup : (i.value * s / t + 1) * t = i.value * s / t * t + t := Nat.succ_mul _ _
    by_cases hclose : i.value * s % t < 2 * s
    · exact .inl (holds_of_lt (by omega) (by omega))
    · exact .inr (holds_of_lt (by omega) (by omega))
  split
  · split <;> rfl
  · rfl
  · rfl
  · rename_i hdown hup
    rw [hdown, hup] at hnear
    exact absurd hnear (by decide)

/-! ### The first hit -/

theorem firstHit_eq_some (h : firstHit i lead fuel count = some (d, c)) :
    count ≤ c ∧ c < count + fuel ∧ i.onGrid (lead - (c - 1 : Nat)) = some d := by
  induction fuel generalizing count with
  | zero => cases h
  | succ fuel ih =>
    unfold firstHit at h
    split at h
    · rename_i hgrid
      cases h
      exact ⟨Nat.le_refl _, by omega, hgrid⟩
    · obtain ⟨hle, hlt, hgrid⟩ := ih h
      exact ⟨by omega, by omega, hgrid⟩

theorem firstHit_isSome (hle : count ≤ c) (hlt : c < count + fuel)
    (hgrid : (i.onGrid (lead - (c - 1 : Nat))).isSome = true) :
    (firstHit i lead fuel count).isSome = true := by
  induction fuel generalizing count with
  | zero => omega
  | succ fuel ih =>
    unfold firstHit
    split
    · rfl
    · rename_i hnone
      refine ih ?_ (by omega)
      refine Nat.lt_of_le_of_ne hle fun heq => ?_
      rw [← heq, hnone] at hgrid
      cases hgrid

/-! ### Zeros at the end -/

theorem exists_dropZeros (fuel d : Nat) : ∃ k, d = dropZeros fuel d * 10 ^ k := by
  induction fuel generalizing d with
  | zero => exact ⟨0, (Nat.mul_one d).symm⟩
  | succ fuel ih =>
    unfold dropZeros
    split
    · rename_i hzero
      obtain ⟨k, hk⟩ := ih (d / 10)
      refine ⟨k + 1, ?_⟩
      rw [Nat.pow_succ, ← Nat.mul_assoc, ← hk]
      omega
    · exact ⟨0, (Nat.mul_one d).symm⟩

theorem dropZeros_pos (fuel : Nat) (h : 0 < d) : 0 < dropZeros fuel d := by
  obtain ⟨k, hk⟩ := exists_dropZeros fuel d
  exact Nat.pos_of_mul_pos_right (hk ▸ h)

theorem shortest_digits_pos (h : 0 < m) (e : Int) : 0 < (shortest m e).digits := by
  have hlow : 0 < (Interval.ofScaled m e).low := by
    show 0 < 4 * m - (if _ then 1 else 2)
    split <;> omega
  unfold shortest
  dsimp only
  split
  · rename_i hhit
    exact dropZeros_pos 17 (Interval.onGrid_pos hlow (firstHit_eq_some hhit).2.2)
  · exact h

/-! ### The first digit -/

theorem unitRatio_le_iff (m : Nat) (e k : Int) :
    (unitRatio e k).2 ≤ m * (unitRatio e k).1 ↔ (10 : ℚ) ^ k ≤ m * 2 ^ e := by
  have h := le_mul_unitRatio (e := e) (g := k) m 1
  rwa [Nat.one_mul, Nat.cast_one, one_mul] at h

/-- The first digit of a number below `2 ^ 1024` stands at `10 ^ 308` or lower, and there only if the
number reaches it. -/
theorem leadOf_le (hm : (m.log2 : Int) + e ≤ 1023) :
    leadOf m e ≤ 308 ∧ (leadOf m e = 308 → (10 : ℚ) ^ (308 : Int) ≤ m * 2 ^ e) := by
  have hguess : Int.fdiv (((m.log2 : Int) + e) * 30103) 100000 ≤ 307 := by
    rw [Int.fdiv_eq_ediv_of_nonneg _ (by decide)]
    omega
  unfold leadOf
  dsimp only
  generalize Int.fdiv (((m.log2 : Int) + e) * 30103) 100000 = guess at *
  split
  · rename_i hreaches
    refine ⟨by omega, fun hlead => ?_⟩
    rw [← hlead, ← unitRatio_le_iff]
    exact of_decide_eq_true hreaches
  · split
    · exact ⟨by omega, fun hlead => absurd hlead (by omega)⟩
    · exact ⟨by omega, fun hlead => absurd hlead (by omega)⟩

/-! ### Decimals near the largest number -/

theorem tens_le_top : 10 ^ 308 ≤ topBound ∧ topBound < 10 ^ 309 := by decide +kernel

theorem lt_tens (hn : n ≤ 308) (h : d * 10 ^ (308 - n) ≤ topBound) : d < 10 ^ (n + 1) := by
  have hbound := h.trans_lt tens_le_top.2
  rw [show 309 = n + 1 + (308 - n) by omega, Nat.pow_add] at hbound
  exact Nat.lt_of_mul_lt_mul_right hbound

theorem lt_digitChars (d : Nat) : d < 10 ^ (digitChars d).length :=
  (Nat.length_toDigits_le_iff (by decide) Nat.length_toDigits_pos).mp (Nat.le_refl _)

theorem digitChars_le (h : 0 < d) : 10 ^ ((digitChars d).length - 1) ≤ d := by
  cases hlength : (digitChars d).length - 1 with
  | zero => exact h
  | succ n =>
    refine not_lt.mp fun hlt => ?_
    have : (digitChars d).length ≤ n + 1 :=
      (Nat.length_toDigits_le_iff (by decide) n.succ_pos).mpr hlt
    omega

/-- Without the zeros at its end a numeral has fewer digits, and stands for the same number. -/
theorem dropZeros_le_top (hlow : 10 ^ n ≤ d) (hhigh : d < 10 ^ (n + 1)) (hn : n ≤ 17)
    (htop : d * 10 ^ (308 - n) ≤ topBound) (fuel : Nat) :
    dropZeros fuel d < 10 ^ 18 ∧
      dropZeros fuel d * 10 ^ (309 - (digitChars (dropZeros fuel d)).length) ≤ topBound := by
  obtain ⟨k, hk⟩ := exists_dropZeros fuel d
  have hpos : 0 < d := (Nat.pow_pos (by decide)).trans_le hlow
  have hshort := digitChars_le (dropZeros_pos fuel hpos)
  have hlong := lt_digitChars (dropZeros fuel d)
  have hlength := Nat.length_toDigits_pos (b := 10) (n := dropZeros fuel d)
  change 0 < (digitChars _).length at hlength
  generalize dropZeros fuel d = d' at *
  generalize (digitChars d').length = length at *
  have hle : length - 1 + k < n + 1 := (Nat.pow_lt_pow_iff_right (a := 10) (by decide)).mp <| by
    rw [Nat.pow_add]
    exact (Nat.mul_le_mul_right _ hshort).trans_lt (hk ▸ hhigh)
  have hge : n < length + k := (Nat.pow_lt_pow_iff_right (a := 10) (by decide)).mp <| by
    rw [Nat.pow_add]
    exact (hk ▸ hlow).trans_lt (Nat.mul_lt_mul_of_pos_right hlong (Nat.pow_pos (by decide)))
  refine ⟨hlong.trans_le (Nat.pow_le_pow_right (by decide) (by omega)), ?_⟩
  rwa [show 309 - length = k + (308 - n) by omega, Nat.pow_add, ← Nat.mul_assoc, ← hk]

theorem value_ofScaled (m : Nat) (e : Int) :
    ((Interval.ofScaled m e).value : ℚ) * 2 ^ (Interval.ofScaled m e).exponent = m * 2 ^ e := by
  show ((4 * m : Nat) : ℚ) * 2 ^ (e - 2) = m * 2 ^ e
  rw [show e = 2 + (e - 2) by omega, zpow_add₀ two_ne_zero, show 2 + (e - 2) - 2 = e - 2 by omega]
  push_cast
  ring

theorem high_ofScaled (m : Nat) (e : Int) :
    ((Interval.ofScaled m e).high : ℚ) * 2 ^ (Interval.ofScaled m e).exponent =
      (2 * m + 1 : Nat) * 2 ^ (e - 1) := by
  show ((4 * m + 2 : Nat) : ℚ) * 2 ^ (e - 2) = _
  rw [show e - 1 = 1 + (e - 2) by omega, zpow_add₀ two_ne_zero, zpow_one]
  push_cast
  ring

/-- A hit stands for no more than the upper rounding bound. -/
theorem hit_le_top (h : x.rank + 1 < infinityRank)
    (hgrid : (Interval.ofScaled x.scaled.1 x.scaled.2).onGrid g = some d) :
    (d : ℚ) * 10 ^ g ≤ topBound :=
  ((Interval.onGrid_le hgrid).trans_eq (high_ofScaled _ _)).trans (scaled_le_top h)

theorem mul_tens_le {a : Nat} (h : (d : ℚ) * 10 ^ g ≤ n) (hg : g = a) : d * 10 ^ a ≤ n := by
  rw [hg, zpow_natCast] at h
  exact_mod_cast h

/-- A number from `10 ^ 308` on has a hit among its decimals of at most 17 digits. -/
theorem firstHit_top (h : x.isFinite = true)
    (hreach : (10 : ℚ) ^ (308 : Int) ≤ x.scaled.1 * 2 ^ x.scaled.2) :
    (firstHit (.ofScaled x.scaled.1 x.scaled.2) 308 17 1).isSome = true := by
  obtain ⟨hm, he⟩ := scaled_lt h
  rw [show (308 : Int) = (308 : Nat) from rfl, zpow_natCast] at hreach
  -- a number of a smaller exponent, or a power of two, does not reach so far
  have hlarge : ∀ {n k : Nat}, x.scaled.1 ≤ n → x.scaled.2 ≤ k → 10 ^ 308 ≤ n * 2 ^ k :=
    fun hn hk => by exact_mod_cast hreach.trans (mul_zpow_le hn hk)
  have hexponent : x.scaled.2 = 971 := by
    by_contra hne
    exact absurd (hlarge (k := 970) hm.le (by omega)) (by decide +kernel)
  have hwide : (x.scaled.1 == span) = false := beq_eq_false_iff_ne.mpr fun heq =>
    absurd (hlarge heq.le hexponent.le) (by decide +kernel)
  refine firstHit_isSome (c := 17) (by decide) (by decide) (Interval.onGrid_isSome ?_ rfl ?_)
  · show 4 * x.scaled.1 = 4 * x.scaled.1 - (if (x.scaled.1 == span && _) = true then 1 else 2) + 2
    rw [hwide, Bool.false_and, if_neg Bool.false_ne_true]
    have : 1 ≤ x.scaled.1 := by
      by_contra hzero
      exact absurd (hlarge (n := 0) (by omega) he) (by decide +kernel)
    omega
  · show (10 : ℚ) ^ (292 : Int) < 4 * 2 ^ (x.scaled.2 - 2)
    rw [hexponent, show (292 : Int) = (292 : Nat) from rfl,
      show (971 - 2 : Int) = (969 : Nat) from rfl, zpow_natCast, zpow_natCast]
    exact_mod_cast (by decide +kernel : 10 ^ 292 < 4 * 2 ^ 969)

theorem shortest_of_lead (h : x.rank + 1 < infinityRank) {s : Shortest}
    (hs : shortest x.scaled.1 x.scaled.2 = s) :
    s.lead ≤ 308 ∧ (s.lead = 308 → s.digits < 10 ^ 18 ∧
      s.digits * 10 ^ (309 - (digitChars s.digits).length) ≤ topBound) := by
  have hfinite := (isFinite_iff x).mpr ((Nat.lt_succ_self _).trans h)
  obtain ⟨hm, he⟩ := scaled_lt hfinite
  have hlog : x.scaled.1.log2 < 53 := by
    rcases Nat.eq_zero_or_pos x.scaled.1 with hzero | hpos
    · rw [hzero]
      decide
    · exact (Nat.log2_lt (Nat.ne_of_gt hpos)).mpr hm
  obtain ⟨hlead, hreach⟩ := leadOf_le (m := x.scaled.1) (e := x.scaled.2) (by omega)
  unfold shortest at hs
  generalize leadOf x.scaled.1 x.scaled.2 = lead at *
  dsimp only at hs
  split at hs
  · rename_i d c hhit
    obtain ⟨hc, hc', hgrid⟩ := firstHit_eq_some hhit
    have htop := hit_le_top h hgrid
    split at hs
    · rename_i hmore
      have hsmaller : lead ≠ 308 := fun heq => by
        have hlt := lt_tens (n := c - 1) (by omega) (mul_tens_le htop (by omega))
        rw [Nat.sub_add_cancel hc] at hlt
        exact absurd hmore (not_le.mpr hlt)
      obtain rfl := hs
      refine ⟨show lead + 1 ≤ 308 by omega, fun heq => ?_⟩
      have heq : lead + 1 = 308 := heq
      have hle := mul_tens_le (a := 308 - c) htop (by omega)
      exact dropZeros_le_top hmore (lt_tens (by omega) hle) (by omega) hle 17
    · rename_i hfew
      obtain rfl := hs
      refine ⟨hlead, fun heq => ?_⟩
      obtain rfl : lead = 308 := heq
      have hle := mul_tens_le (a := 308 - (c - 1)) htop (by omega)
      refine dropZeros_le_top ?_ (lt_tens (by omega) hle) (by omega) hle 17
      refine Interval.le_onGrid hgrid ?_
      rw [value_ofScaled, Nat.cast_pow, Nat.cast_ofNat, ← zpow_natCast,
        ← zpow_add₀ (by decide), add_sub_cancel]
      exact hreach rfl
  · rename_i hnone
    obtain rfl := hs
    refine ⟨hlead, fun heq => ?_⟩
    obtain rfl : lead = 308 := heq
    have hhit := firstHit_top hfinite (hreach rfl)
    rw [hnone] at hhit
    cases hhit

/-- No number but the largest one has a decimal that is beyond the midpoint below the largest. -/
theorem shortest_le_top (h : x.rank + 1 < infinityRank) {s : Shortest}
    (hs : shortest x.scaled.1 x.scaled.2 = s) :
    s.lead ≤ 308 ∧
      (s.digits : ℚ) * 10 ^ (s.lead + 1 - (digitChars s.digits).length) ≤ topBound := by
  obtain ⟨hlead, htop⟩ := shortest_of_lead h hs
  refine ⟨hlead, ?_⟩
  by_cases heq : s.lead = 308
  · obtain ⟨hdigits, hle⟩ := htop heq
    have hlength : (digitChars s.digits).length ≤ 18 :=
      (Nat.length_toDigits_le_iff (by decide) (by decide)).mpr hdigits
    rw [show s.lead + 1 - (digitChars s.digits).length =
      (309 - (digitChars s.digits).length : Nat) by omega, zpow_natCast]
    exact_mod_cast hle
  · have hlt : (s.digits : ℚ) < 10 ^ ((digitChars s.digits).length : Int) := by
      rw [zpow_natCast]
      exact_mod_cast lt_digitChars s.digits
    calc _ ≤ (10 : ℚ) ^ ((digitChars s.digits).length : Int) *
          10 ^ (s.lead + 1 - (digitChars s.digits).length) :=
          mul_le_mul_of_nonneg_right hlt.le (zpow_nonneg (by decide) _)
      _ = 10 ^ (s.lead + 1) := by rw [← zpow_add₀ (by decide), add_sub_cancel]
      _ ≤ 10 ^ ((308 : Nat) : Int) := zpow_le_zpow_right₀ (by decide) (by omega)
      _ ≤ topBound := by
        rw [zpow_natCast]
        exact_mod_cast tens_le_top.1

end CodeAtlas.Decimal
