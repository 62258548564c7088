import CodeAtlas.Json.Basic

/-!
# Numerals

The grammar of JSON numbers and their values. An integer that fits in 64 bits is exact. Any other
numeral is a significand of at most 64 bits, rounded to binary64 and then multiplied or divided by
a rounded power of ten: integer digits that no longer fit count as powers of ten, fraction digits
that no longer fit are dropped. A value beyond the largest binary64 number is out of range.
-/

namespace CodeAtlas.Json.Numeral

def digitValue (c : Char) : Nat := c.toNat - '0'.toNat

/-- The largest significand. -/
def maxSignificand : Nat := Nat.pow 2 64 - 1

/-- The largest exponent that is told apart from an infinite one. -/
def maxExponent : Nat := Nat.pow 2 31 - 1

/-- The largest power of ten that one multiplication or division takes. -/
def maxStep : Nat := 308

/-- A numeral cut into its parts: sign, integer digits, fraction digits if there is a point, and
exponent sign and digits if there is an exponent. -/
structure Parts where
  negative : Bool
  whole : List Char
  fraction : Option (List Char)
  exponent : Option (Bool × List Char)

/-- The exponent part, which must end the numeral. -/
def Parts.exponent? : List Char → Option (Option (Bool × List Char))
  | [] => some none
  | c :: rest =>
    if c == 'e' || c == 'E' then
      let (negative, digits) := match rest with
        | '-' :: ds => (true, ds)
        | '+' :: ds => (false, ds)
        | ds => (false, ds)
      if !digits.isEmpty && digits.all Char.isDigit then some (some (negative, digits)) else none
    else none

/-- The parts of a numeral after its sign: no leading zero, no empty run of digits. -/
def Parts.ofUnsigned? (negative : Bool) (cs : List Char) : Option Parts :=
  let whole := cs.takeWhile Char.isDigit
  let rest := cs.dropWhile Char.isDigit
  if whole.isEmpty || (whole.head? == some '0' && 1 < whole.length) then none
  else
    match rest with
    | '.' :: rest =>
      let fraction := rest.takeWhile Char.isDigit
      if fraction.isEmpty then none
      else (exponent? (rest.dropWhile Char.isDigit)).map (⟨negative, whole, some fraction, ·⟩)
    | _ => (exponent? rest).map (⟨negative, whole, none, ·⟩)

/-- The parts of a well-formed numeral. -/
def Parts.ofChars? : List Char → Option Parts
  | '-' :: rest => ofUnsigned? true rest
  | cs => ofUnsigned? false cs

/-- Adds digits to a significand while it stays within 64 bits. The second component holds the
digits that were left over. -/
def accumulate (significand : Nat) : List Char → Nat × List Char
  | [] => (significand, [])
  | c :: rest =>
    let next := significand * 10 + digitValue c
    if maxSignificand < next then (significand, c :: rest) else accumulate next rest

/-- Scales by a power of ten, at most `10 ^ 308` at a time. Out of range if the result is not
finite. -/
def scale (fuel : Nat) (x : Binary64) (e : Int) : Option Binary64 :=
  if e.natAbs ≤ maxStep then
    if e < 0 then some (x.div (.tenPower e.natAbs))
    else
      let y := x.mul (.tenPower e.natAbs)
      if y.isFinite then some y else none
  else if x.rank = 0 then some x
  else if 0 ≤ e then none
  else
    match fuel with
    | 0 => some .zero
    | fuel + 1 => scale fuel (x.div (.tenPower maxStep)) (e + maxStep)

/-- The exponent's value, nothing when it is beyond `maxExponent`. -/
def exponentValue (digits : List Char) : Option Nat :=
  let n := digits.foldl (fun n c => if maxExponent < n then n else n * 10 + digitValue c) 0
  if maxExponent < n then none else some n

/-- A number that is no exact integer. Two divisions by `10 ^ 308` bring every significand to
zero, so three steps suffice. -/
def Parts.float (p : Parts) : Option Binary64 :=
  let (significand, dropped) := accumulate 0 p.whole
  let (significand, left) := accumulate significand (p.fraction.getD [])
  let used := (p.fraction.getD []).length - left.length
  let point : Int := (dropped.length : Int) - used
  let signed (x : Binary64) : Binary64 := { x with negative := p.negative }
  match p.exponent with
  | none => (scale 3 (.ofNat significand) point).map signed
  | some (negative, digits) =>
    match exponentValue digits with
    | some e =>
      (scale 3 (.ofNat significand) (if negative then point - e else point + e)).map signed
    | none => if significand = 0 || negative then some (signed .zero) else none

/-- The number of a well-formed numeral, nothing when it is out of range. -/
def Parts.number (p : Parts) : Option Number :=
  let n := p.whole.foldl (fun n c => n * 10 + digitValue c) 0
  if p.fraction.isNone && p.exponent.isNone then
    if !p.negative && n ≤ maxSignificand then some (.integer n)
    else if p.negative && 0 < n && n ≤ Nat.pow 2 63 then some (.integer (-n))
    else p.float.map .float
  else p.float.map .float

end CodeAtlas.Json.Numeral
