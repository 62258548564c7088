import CodeAtlas.Number.Binary64

/-!
# Shortest decimals

The fewest decimal digits that lie between a number's two rounding bounds, and of those the digits
nearest to the number. The digits are found in exact arithmetic: for each count of digits only the
two neighbours of the number on that decimal grid can qualify.
-/

namespace CodeAtlas.Decimal

/-- The decimal `0.d₁d₂… * 10 ^ point`, its digits in `digits` as one natural number. -/
structure Shortest where
  digits : Nat
  /-- Exponent of the first digit: the value is `d₁.d₂… * 10 ^ lead`. -/
  lead : Int
  deriving DecidableEq, Repr

/-- A positive number with its rounding bounds, all three in quarters of a unit in the last
place. -/
structure Interval where
  low : Nat
  value : Nat
  high : Nat
  /-- A quarter of a unit is `2 ^ exponent`. -/
  exponent : Int
  /-- Whether the bounds themselves round to the number. -/
  closed : Bool

/-- The bounds of a number of the given significand and exponent. Below a power of two the gap to
the next smaller number is half as wide. -/
def Interval.ofScaled (m : Nat) (e : Int) : Interval :=
  let narrow := m == Binary64.span && Binary64.minExponent < e
  { low := 4 * m - (if narrow then 1 else 2)
    value := 4 * m
    high := 4 * m + 2
    exponent := e - 2
    closed := m % 2 == 0 }

/-- `2 ^ e / 10 ^ g` as a ratio. -/
def unitRatio (e g : Int) : Nat × Nat :=
  let twos := Nat.pow 2 e.natAbs
  let tens := Nat.pow 10 g.natAbs
  match decide (e < 0), decide (g < 0) with
  | true, true => (tens, twos)
  | true, false => (1, twos * tens)
  | false, true => (twos * tens, 1)
  | false, false => (twos, tens)

/-- Whether `d * 10 ^ g` lies within the bounds, `s / t` being a quarter unit on that grid. -/
def Interval.holds (i : Interval) (s t d : Nat) : Bool :=
  if i.closed then i.low * s ≤ d * t && d * t ≤ i.high * s
  else i.low * s < d * t && d * t < i.high * s

/-- The grid point within the bounds that is nearest to the value, on the grid `10 ^ g`. -/
def Interval.onGrid (i : Interval) (g : Int) : Option Nat :=
  let (s, t) := unitRatio i.exponent g
  let down := i.value * s / t
  let up := down + 1
  match i.holds s t down, i.holds s t up with
  | true, true =>
    let below := i.value * s - down * t
    let above := up * t - i.value * s
    if below < above || (below == above && down % 2 == 0) then some down else some up
  | true, false => some down
  | false, true => some up
  | false, false => none

/-- The exponent of the first decimal digit of `m * 2 ^ e`. -/
def leadOf (m : Nat) (e : Int) : Int :=
  let guess := Int.fdiv (((m.log2 : Int) + e) * 30103) 100000
  let reaches (k : Int) : Bool := let (s, t) := unitRatio e k; t ≤ m * s
  if reaches (guess + 1) then guess + 1 else if reaches guess then guess else guess - 1

/-- Drops the zeros at the end of a numeral. -/
def dropZeros : Nat → Nat → Nat
  | 0, d => d
  | fuel + 1, d => if d % 10 = 0 ∧ d ≠ 0 then dropZeros fuel (d / 10) else d

/-- The first grid with a hit, from one digit on. -/
def firstHit (i : Interval) (lead : Int) : Nat → Nat → Option (Nat × Nat)
  | 0, _ => none
  | fuel + 1, count =>
    match i.onGrid (lead - (count - 1 : Nat)) with
    | some d => some (d, count)
    | none => firstHit i lead fuel (count + 1)

/-- The shortest decimal of a positive number `m * 2 ^ e`. A neighbour that needs one digit more
than the grid's count is a power of ten, and moves the first digit up by one place. -/
def shortest (m : Nat) (e : Int) : Shortest :=
  let lead := leadOf m e
  match firstHit (.ofScaled m e) lead 17 1 with
  | some (d, count) =>
    ⟨dropZeros 17 d, if Nat.pow 10 count ≤ d then lead + 1 else lead⟩
  | none => ⟨m, lead⟩

end CodeAtlas.Decimal
