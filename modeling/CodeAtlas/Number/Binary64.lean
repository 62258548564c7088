/-!
# Binary floating point

The numbers of IEEE 754 binary64, held as a sign and a rank. The rank of a number is its place
among the absolute values in ascending order, so rounding a positive ratio is one division in the
natural numbers, and a carry out of the significand moves into the exponent by itself.
-/

namespace CodeAtlas

/-- A binary64 datum. Rank `0` is zero, the rank `infinityRank` is infinity, and the ranks above it
are no numbers. -/
structure Binary64 where
  negative : Bool
  rank : Nat
  rank_lt : rank < Nat.pow 2 63
  deriving DecidableEq, Repr

namespace Binary64

/-- The number of ranks that share one exponent. -/
def span : Nat := Nat.pow 2 52

/-- The least exponent of the unit in the last place. -/
def minExponent : Int := -1074

def infinityRank : Nat := 2047 * span

/-- The largest exponent field holds infinity and what is no number. -/
def isFinite (x : Binary64) : Bool := x.rank < infinityRank

def zero : Binary64 := ⟨false, 0, by decide⟩

def infinity : Binary64 := ⟨false, infinityRank, by decide⟩

/-- The number of a rank, infinity from the first rank that is too large. -/
def ofRank (negative : Bool) (rank : Nat) : Binary64 :=
  if h : rank < infinityRank then
    ⟨negative, rank, Nat.lt_trans h (by decide)⟩
  else
    ⟨negative, infinityRank, by decide⟩

def neg (x : Binary64) : Binary64 := { x with negative := !x.negative }

/-- A finite absolute value as `significand * 2 ^ exponent`. -/
def scaled (x : Binary64) : Nat × Int :=
  if x.rank < span then (x.rank, minExponent)
  else (x.rank % span + span, minExponent + (x.rank / span - 1 : Nat))

/-- The ratio `num / den`, divided by `2 ^ e`, again as a ratio. -/
def unscale (num den : Nat) (e : Int) : Nat × Nat :=
  if e < 0 then (num * Nat.pow 2 e.natAbs, den) else (num, den * Nat.pow 2 e.natAbs)

/-- The ratio `num / den` as the nearest natural number, a tie going to the even one. -/
def nearest (num den : Nat) : Nat :=
  let q := num / den
  let r := num % den
  if den < 2 * r ∨ (2 * r = den ∧ q % 2 = 1) then q + 1 else q

/-- The exponent at which `num / den` has a significand of 53 bits, or the least one. -/
def exponentFor (num den : Nat) : Int :=
  let e : Int := (num.log2 : Int) - den.log2 - 52
  let (n, d) := unscale num den e
  max (if n < d * span then e - 1 else e) minExponent

/-- The rank of the number nearest to a ratio, a tie going to the even significand. -/
def rankOfRatio (num den : Nat) : Nat :=
  if num = 0 then 0
  else
    let e := exponentFor num den
    let (n, d) := unscale num den e
    (e - minExponent).toNat * span + nearest n d

def ofNat (n : Nat) : Binary64 := ofRank false (rankOfRatio n 1)

def ofInt (n : Int) : Binary64 := ofRank (decide (n < 0)) (rankOfRatio n.natAbs 1)

/-- The ratio `m * 2 ^ e`. -/
def ratioOfScaled (m : Nat) (e : Int) : Nat × Nat :=
  if e < 0 then (m, Nat.pow 2 e.natAbs) else (m * Nat.pow 2 e.natAbs, 1)

/-- The absolute value of a finite number as a ratio. -/
def ratio (x : Binary64) : Nat × Nat := ratioOfScaled x.scaled.1 x.scaled.2

/-- The rounded product of two finite numbers. -/
def mul (x y : Binary64) : Binary64 :=
  ofRank (x.negative != y.negative) (rankOfRatio (x.ratio.1 * y.ratio.1) (x.ratio.2 * y.ratio.2))

/-- The rounded quotient of two finite numbers, the second one not zero. -/
def div (x y : Binary64) : Binary64 :=
  ofRank (x.negative != y.negative) (rankOfRatio (x.ratio.1 * y.ratio.2) (x.ratio.2 * y.ratio.1))

/-- The number nearest to a power of ten. -/
def tenPower (k : Nat) : Binary64 := ofNat (Nat.pow 10 k)

end Binary64

end CodeAtlas
