import CodeAtlas.Number.Shortest

/-!
# Number text

How a binary64 number is written in JSON: the shortest digits that read back, positional while the
first digit stands between `10 ^ -5` and `10 ^ 15`, with an exponent beyond.
-/

namespace CodeAtlas.Decimal

/-- The digits of a natural number in base ten. -/
def digitChars (n : Nat) : List Char := Nat.toDigits 10 n

/-- `d.ddd` with at least one digit after the point. -/
def positional (digits : List Char) (lead : Int) : List Char :=
  if lead < 0 then
    '0' :: '.' :: (List.replicate (lead.natAbs - 1) '0' ++ digits)
  else
    let whole := lead.natAbs + 1
    let padded := digits ++ List.replicate (whole - digits.length) '0'
    let fraction := padded.drop whole
    padded.take whole ++ '.' :: (if fraction.isEmpty then ['0'] else fraction)

/-- `d.ddde+xx`, the point left out after a single digit and the sign of the exponent kept. -/
def scientific (digits : List Char) (lead : Int) : List Char :=
  let mantissa := match digits with
    | [] => []
    | [d] => [d]
    | d :: rest => d :: '.' :: rest
  mantissa ++ 'e' :: (if lead < 0 then '-' else '+') :: digitChars lead.natAbs

/-- The text of a finite number; what is not finite has no text and is written as null. -/
def text (x : Binary64) : List Char :=
  if !x.isFinite then "null".toList
  else
    let sign := if x.negative then ['-'] else []
    if x.rank = 0 then sign ++ "0.0".toList
    else
      let s := shortest x.scaled.1 x.scaled.2
      let digits := digitChars s.digits
      sign ++ if -5 ≤ s.lead ∧ s.lead ≤ 15 then positional digits s.lead
        else scientific digits s.lead

end CodeAtlas.Decimal
