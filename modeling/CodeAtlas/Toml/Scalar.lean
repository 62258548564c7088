import CodeAtlas.Json.Numeral
import CodeAtlas.Toml.Basic

/-!
# TOML numbers, dates and booleans

Values that are told by their whole run of characters. Integers fit in 64 bits with a sign;
underscores may stand between digits.
-/

namespace CodeAtlas.Toml.Scalar

/-- Digits with single underscores between them, as the digits alone. -/
def digits? (isDigit : Char → Bool) : List Char → Option (List Char)
  | [] => none
  | [c] => if isDigit c then some [c] else none
  | c :: '_' :: rest => if isDigit c then (digits? isDigit rest).map (c :: ·) else none
  | c :: rest => if isDigit c then (digits? isDigit rest).map (c :: ·) else none

def valueOf (base : Nat) (digits : List Char) : Nat :=
  digits.foldl (fun n c =>
    n * base + (if c.isDigit then c.toNat - '0'.toNat else c.toLower.toNat - 'a'.toNat + 10)) 0

def maxInteger : Nat := Nat.pow 2 63 - 1

/-- An integer in another base, after its mark. -/
def based? (base : Nat) (isDigit : Char → Bool) (cs : List Char) : Option Value :=
  (digits? isDigit cs).bind fun ds =>
    let n := valueOf base ds
    if n ≤ maxInteger then some (.integer n) else none

def isHex (c : Char) : Bool :=
  c.isDigit || ('a' ≤ c && c ≤ 'f') || ('A' ≤ c && c ≤ 'F')

/-- A sign and what follows it. -/
def sign : List Char → Bool × List Char
  | '-' :: rest => (true, rest)
  | '+' :: rest => (false, rest)
  | cs => (false, cs)

/-- The digits of an integer part: no leading zero before another digit. -/
def whole? (cs : List Char) : Option (List Char) :=
  match digits? Char.isDigit cs with
  | some ('0' :: _ :: _) => none
  | ds => ds

def decimal? (cs : List Char) : Option Value :=
  let (negative, body) := sign cs
  (whole? body).bind fun ds =>
    let n := valueOf 10 ds
    if negative then (if n ≤ maxInteger + 1 then some (.integer (-n)) else none)
    else if n ≤ maxInteger then some (.integer n) else none

/-- The part after the exponent's mark. -/
def exponent? (cs : List Char) : Option Int :=
  let (negative, body) := sign cs
  (digits? Char.isDigit body).map fun ds =>
    let n : Nat := ds.foldl (fun n c => if n < 10000 then n * 10 + (c.toNat - '0'.toNat) else n) 0
    if negative then -n else n

/-- Whether `d * 10 ^ e` rounds to infinity. -/
def overflows (digits : List Char) (e : Int) : Bool :=
  let d := valueOf 10 digits
  d != 0 &&
    (400 < (digits.dropWhile (· == '0')).length + e ||
      (-400 < (digits.length : Int) + e &&
        let (num, den) := if e < 0 then (d, Nat.pow 10 e.natAbs) else (d * Nat.pow 10 e.natAbs, 1)
        Binary64.infinityRank ≤ Binary64.rankOfRatio num den))

/-- A number with a fraction or an exponent. A positive one must not be too large. -/
def float? (cs : List Char) : Option Value :=
  let (negative, body) := sign cs
  let isMark (c : Char) : Bool := c == 'e' || c == 'E'
  let mantissa := body.takeWhile fun c => !isMark c
  let rest := body.dropWhile fun c => !isMark c
  let whole := mantissa.takeWhile (· != '.')
  let fraction := mantissa.dropWhile (· != '.')
  match whole? whole with
  | none => none
  | some ws =>
    let fs : Option (List Char) := match fraction with
      | [] => some []
      | _ :: digits => digits? Char.isDigit digits
    let e : Option Int := match rest with
      | [] => some 0
      | _ :: power => exponent? power
    match fs, e with
    | some fs, some e =>
      if fraction.isEmpty && rest.isEmpty then none
      else if !negative && overflows (ws ++ fs) (e - fs.length) then none
      else some .float
    | _, _ => none

/-! ### Dates and times -/

/-- The number of a run of exactly so many digits. -/
def fixed? (count : Nat) (cs : List Char) : Option Nat :=
  if cs.length = count ∧ cs.all Char.isDigit then some (valueOf 10 cs) else none

def daysIn (year month : Nat) : Nat :=
  if month = 2 then
    if year % 4 = 0 ∧ (year % 100 ≠ 0 ∨ year % 400 = 0) then 29 else 28
  else if month = 4 ∨ month = 6 ∨ month = 9 ∨ month = 11 then 30
  else 31

/-- `1979-05-27`. -/
def isDate (cs : List Char) : Bool :=
  match fixed? 4 (cs.take 4), fixed? 2 ((cs.drop 5).take 2), fixed? 2 (cs.drop 8) with
  | some year, some month, some day =>
    cs[4]? == some '-' && cs[7]? == some '-' && 1 ≤ month && month ≤ 12 && 1 ≤ day
      && day ≤ daysIn year month
  | _, _, _ => false

/-- `07:32`, up to the given hour. -/
def isClock (cs : List Char) : Bool :=
  match fixed? 2 (cs.take 2), fixed? 2 (cs.drop 3) with
  | some hour, some minute => cs[2]? == some ':' && hour ≤ 23 && minute ≤ 59
  | _, _ => false

/-- `07:32:00` or `07:32:00.5`. -/
def isTime (cs : List Char) : Bool :=
  isClock (cs.take 5) && cs[5]? == some ':' &&
    (match fixed? 2 ((cs.drop 6).take 2) with
      | some second => second ≤ 60
      | none => false) &&
    match cs.drop 8 with
    | [] => true
    | '.' :: fraction => !fraction.isEmpty && fraction.all Char.isDigit
    | _ => false

/-- A time with an offset, or without one. -/
def isTimeWithOffset (cs : List Char) : Bool :=
  let time := cs.takeWhile fun c => c.isDigit || c == ':' || c == '.'
  isTime time &&
    match cs.drop time.length with
    | [] => true
    | ['Z'] => true
    | ['z'] => true
    | '+' :: clock => isClock clock
    | '-' :: clock => isClock clock
    | _ => false

/-- A date, a time, or both. -/
def date? (cs : List Char) : Option Value :=
  let whole := isTime cs || (isDate cs) ||
    (isDate (cs.take 10) && (match cs.drop 10 with
      | 'T' :: time => isTimeWithOffset time
      | 't' :: time => isTimeWithOffset time
      | ' ' :: time => isTimeWithOffset time
      | _ => false))
  if whole then some .date else none

/-! ### Runs of characters -/

/-- The value of a whole run of characters. -/
def ofRun? (cs : List Char) : Option Value :=
  match cs with
  | ['t', 'r', 'u', 'e'] => some (.bool true)
  | ['f', 'a', 'l', 's', 'e'] => some (.bool false)
  | '0' :: 'x' :: rest => based? 16 isHex rest
  | '0' :: 'o' :: rest => based? 8 (fun c => '0' ≤ c && c ≤ '7') rest
  | '0' :: 'b' :: rest => based? 2 (fun c => c == '0' || c == '1') rest
  | _ =>
    let (_, body) := sign cs
    if body == ['i', 'n', 'f'] || body == ['n', 'a', 'n'] then some .float
    else ((date? cs).or (float? cs)).or (decimal? cs)

def isRunChar (c : Char) : Bool :=
  c.isAlphanum || c == '_' || c == '+' || c == '-' || c == '.' || c == ':'

/-- A value that is a run of characters, and what follows it. A date may have a time after one
space. -/
def read (cs : List Char) : Option (Value × List Char) :=
  let run := cs.takeWhile isRunChar
  let rest := cs.drop run.length
  match rest with
  | ' ' :: a :: b :: ':' :: _ =>
    if isDate run && a.isDigit && b.isDigit then
      let time := rest.tail.takeWhile isRunChar
      (ofRun? (run ++ ' ' :: time)).map fun v => (v, rest.drop (time.length + 1))
    else (ofRun? run).map fun v => (v, rest)
  | _ => (ofRun? run).map fun v => (v, rest)

end CodeAtlas.Toml.Scalar
