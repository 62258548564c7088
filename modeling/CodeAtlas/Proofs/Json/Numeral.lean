import Mathlib.Data.List.Basic
import Mathlib.Data.List.TakeWhile
import Mathlib.Tactic.Common
import CodeAtlas.Json.Printer
import CodeAtlas.Json.Token
import CodeAtlas.Proofs.Json.Range
import CodeAtlas.Proofs.Number.Shortest

/-!
# Numbers as they are written

Every number that has a text is written as a numeral that can be read, and unless it is the largest
number, as one that is well in range.

* `Parts.ofChars?_chars`   a numeral is cut into the parts that it is put together from;
* `fits_point`, `fits_scientific`   numerals that are small enough to be in range;
* `exists_parts_text`      the text of a finite number is a numeral with a point or an exponent;
* `exists_parts_integer`   the text of an integer is one with neither.
-/

namespace CodeAtlas

namespace Json.Numeral.Parts

variable {p : Parts} {cs ds : List Char}

/-! ### Putting parts together -/

def fractionChars : Option (List Char) → List Char
  | none => []
  | some digits => '.' :: digits

/-- an exponent is written with its sign -/
def exponentChars : Option (Bool × List Char) → List Char
  | none => []
  | some (negative, digits) => 'e' :: (if negative then '-' else '+') :: digits

def tailChars (p : Parts) : List Char := fractionChars p.fraction ++ exponentChars p.exponent

def chars (p : Parts) : List Char :=
  (if p.negative then ['-'] else []) ++ (p.whole ++ p.tailChars)

/-- a run of digits, at least one of them -/
def IsDigits (cs : List Char) : Prop := cs ≠ [] ∧ ∀ c ∈ cs, c.isDigit = true

structure WellFormed (p : Parts) : Prop where
  whole : IsDigits p.whole
  noZero : p.whole.head? = some '0' → p.whole.length = 1
  fraction : ∀ digits ∈ p.fraction, IsDigits digits
  exponent : ∀ e ∈ p.exponent, IsDigits e.2

/-- what does not go on with a digit -/
def EndsDigits (cs : List Char) : Prop := ∀ c ∈ cs.head?, c.isDigit = false

theorem takeWhile_digits (hcs : ∀ c ∈ cs, c.isDigit = true) (hds : EndsDigits ds) :
    (cs ++ ds).takeWhile Char.isDigit = cs ∧ (cs ++ ds).dropWhile Char.isDigit = ds := by
  rw [List.takeWhile_append_of_pos hcs, List.dropWhile_append_of_pos hcs]
  cases ds with
  | nil => exact ⟨List.append_nil cs, rfl⟩
  | cons d ds =>
    have hd : ¬ d.isDigit = true := by rw [hds d rfl]; exact Bool.false_ne_true
    rw [List.takeWhile_cons_of_neg hd, List.dropWhile_cons_of_neg hd, List.append_nil]
    exact ⟨rfl, rfl⟩

theorem endsDigits_exponentChars (e : Option (Bool × List Char)) :
    EndsDigits (exponentChars e) := by
  cases e with
  | none => exact nofun
  | some e => exact fun c hc => Option.some.inj hc ▸ rfl

theorem endsDigits_tailChars (p : Parts) : EndsDigits p.tailChars := by
  unfold tailChars
  cases p.fraction with
  | none => exact endsDigits_exponentChars p.exponent
  | some digits => exact fun c hc => Option.some.inj hc ▸ rfl

theorem exponent?_exponentChars {e : Option (Bool × List Char)} (h : ∀ e' ∈ e, IsDigits e'.2) :
    exponent? (exponentChars e) = some e := by
  cases e with
  | none => rfl
  | some e =>
    obtain ⟨negative, digits⟩ := e
    obtain ⟨hne, hdigits⟩ := h _ rfl
    have hcheck : (!digits.isEmpty && digits.all Char.isDigit) = true := by
      rw [Bool.and_eq_true, List.all_eq_true, Bool.not_eq_true', List.isEmpty_eq_false_iff]
      exact ⟨hne, hdigits⟩
    cases negative <;> exact if_pos hcheck

theorem ofUnsigned?_chars (h : p.WellFormed) :
    ofUnsigned? p.negative (p.whole ++ p.tailChars) = some p := by
  obtain ⟨negative, whole, fraction, exponent⟩ := p
  obtain ⟨hwhole, hzero, hfraction, hexponent⟩ := h
  obtain ⟨htake, hdrop⟩ := takeWhile_digits hwhole.2
    (endsDigits_tailChars ⟨negative, whole, fraction, exponent⟩)
  have hcheck : ¬ (whole.isEmpty || (whole.head? == some '0' && decide (1 < whole.length))) =
      true := by
    rw [Bool.or_eq_true, Bool.and_eq_true, List.isEmpty_iff, beq_iff_eq, decide_eq_true_iff]
    rintro (hempty | ⟨hhead, hlength⟩)
    · exact hwhole.1 hempty
    · exact absurd (hzero hhead) (Nat.ne_of_gt hlength)
  unfold ofUnsigned?
  simp only [htake, hdrop, if_neg hcheck]
  cases fraction with
  | none =>
    cases exponent with
    | none => rfl
    | some e =>
      show (exponent? (exponentChars (some e))).map _ = _
      rw [exponent?_exponentChars hexponent]
      rfl
  | some digits =>
    obtain ⟨hne, hdigits⟩ := hfraction digits rfl
    obtain ⟨htake', hdrop'⟩ := takeWhile_digits hdigits (endsDigits_exponentChars exponent)
    have hfilled : ¬ digits.isEmpty = true := by rwa [List.isEmpty_iff]
    simp only [tailChars, fractionChars, List.cons_append, htake', hdrop', if_neg hfilled]
    rw [exponent?_exponentChars hexponent]
    rfl

theorem ofChars?_chars (h : p.WellFormed) : ofChars? p.chars = some p := by
  rw [← ofUnsigned?_chars h, chars]
  cases hsign : p.negative with
  | true => rfl
  | false =>
    cases hwhole : p.whole with
    | nil => exact absurd hwhole h.whole.1
    | cons c rest =>
      have hc : c.isDigit = true := h.whole.2 c (by rw [hwhole]; exact List.mem_cons_self)
      rw [if_neg Bool.false_ne_true, List.nil_append]
      unfold ofChars?
      split
      · rename_i heq
        rw [(List.cons.inj heq).1] at hc
        exact absurd hc (by decide)
      · rfl

/-! ### The characters of numerals -/

theorem isNumeralChar_of_isDigit {c : Char} (h : c.isDigit = true) :
    Token.isNumeralChar c = true := by
  unfold Token.isNumeralChar
  rw [h, Bool.true_or, Bool.true_or, Bool.true_or, Bool.true_or, Bool.true_or]

theorem isNumeralChar_fractionChars (h : ∀ digits ∈ p.fraction, IsDigits digits) :
    ∀ c ∈ fractionChars p.fraction, Token.isNumeralChar c = true := by
  cases hfraction : p.fraction with
  | none => exact nofun
  | some digits =>
    refine List.forall_mem_cons.mpr ⟨rfl, fun c hc => ?_⟩
    exact isNumeralChar_of_isDigit ((h digits hfraction).2 c hc)

theorem isNumeralChar_exponentChars (h : ∀ e ∈ p.exponent, IsDigits e.2) :
    ∀ c ∈ exponentChars p.exponent, Token.isNumeralChar c = true := by
  cases hexponent : p.exponent with
  | none => exact nofun
  | some e =>
    refine List.forall_mem_cons.mpr ⟨rfl, List.forall_mem_cons.mpr ⟨?_, fun c hc => ?_⟩⟩
    · split <;> rfl
    · exact isNumeralChar_of_isDigit ((h e hexponent).2 c hc)

theorem isNumeralChar_chars (h : p.WellFormed) : ∀ c ∈ p.chars, Token.isNumeralChar c = true := by
  simp only [chars, tailChars, List.mem_append]
  rintro c (hsign | hwhole | hfraction | hexponent)
  · split at hsign
    · obtain rfl := List.mem_singleton.mp hsign
      rfl
    · cases hsign
  · exact isNumeralChar_of_isDigit (h.whole.2 c hwhole)
  · exact isNumeralChar_fractionChars h.fraction c hfraction
  · exact isNumeralChar_exponentChars h.exponent c hexponent

theorem exists_cons_chars (h : p.WellFormed) :
    ∃ c rest, p.chars = c :: rest ∧ (c.isDigit || c == '-') = true := by
  unfold chars
  cases p.negative with
  | true => exact ⟨'-', _, rfl, rfl⟩
  | false =>
    cases hwhole : p.whole with
    | nil => exact absurd hwhole h.whole.1
    | cons c rest =>
      refine ⟨c, rest ++ p.tailChars, rfl, ?_⟩
      rw [h.whole.2 c (by rw [hwhole]; exact List.mem_cons_self), Bool.true_or]

end Json.Numeral.Parts

/-! ### The digits of natural numbers -/

namespace Decimal

open Json.Numeral Json.Numeral.Parts

variable {n d : Nat}

theorem isDigits_digitChars (n : Nat) : IsDigits (digitChars n) :=
  ⟨Nat.toDigits_ne_nil, fun _ hc => Nat.isDigit_of_mem_toDigits (by decide) (by decide) hc⟩

theorem ofDigitChars_digitChars (n : Nat) : Nat.ofDigitChars 10 (digitChars n) 0 = n :=
  Nat.ofDigitChars_ten_toDigits

theorem head?_digitChar : ∀ d < 10, 0 < d → [Nat.digitChar d].head? ≠ some '0' := by decide

theorem head?_digitChars (h : 0 < n) : (digitChars n).head? ≠ some '0' := by
  induction n using Nat.strongRecOn with
  | ind n ih =>
    unfold digitChars at ih ⊢
    rw [Nat.toDigits_eq_if (by decide)]
    split
    · rename_i hlt
      exact head?_digitChar n hlt h
    · have hrest : 0 < n / 10 := by omega
      rw [List.head?_append_of_ne_nil _ Nat.toDigits_ne_nil]
      exact ih (n / 10) (by omega) hrest

theorem digitChars_noZero (n : Nat) :
    (digitChars n).head? = some '0' → (digitChars n).length = 1 := by
  intro hzero
  cases n with
  | zero => rfl
  | succ n => exact absurd hzero (head?_digitChars (Nat.succ_pos n))

/-! ### The text of a number -/

variable {digits : List Char} {lead : Int} {fits : Prop}

/-- a numeral without its sign, with a point or an exponent, so that it is no integer; it is small
enough to be read if `fits` holds -/
def IsFloat (fits : Prop) (text : List Char) : Prop :=
  ∃ p : Parts, p.WellFormed ∧ (p.fraction.isNone && p.exponent.isNone) = false ∧
    text = p.whole ++ p.tailChars ∧ (fits → p.Fits)

theorem isDigits_zero : IsDigits ['0'] := ⟨nofun, fun _ hc => List.mem_singleton.mp hc ▸ rfl⟩

theorem isDigit_of_mem_replicate {n : Nat} {c : Char} (h : c ∈ List.replicate n '0') :
    c.isDigit = true :=
  (List.mem_replicate.mp h).2 ▸ rfl

/-- A numeral without an exponent is small enough if it has few integer digits. -/
theorem fits_point {whole fraction : List Char} (hwhole : IsDigits whole)
    (hfraction : IsDigits fraction) (hlength : whole.length ≤ 16) :
    Fits ⟨false, whole, some fraction, none⟩ := by
  have hpow : (10 : Nat) ^ whole.length ≤ 10 ^ 16 := Nat.pow_le_pow_right (by decide) hlength
  refine ⟨?_, nofun, ?_⟩
  · exact (ofDigitChars_lt hwhole.2).le.trans (hpow.trans (by decide))
  · refine (value_lt fun c hc => ?_).le.trans ?_
    · exact (List.mem_append.mp hc).elim (hwhole.2 c) (hfraction.2 c)
    · show (10 : ℚ) ^ ((whole.length : Int) + 0) ≤ _
      rw [add_zero, zpow_natCast]
      exact_mod_cast hpow.trans ((Nat.pow_le_pow_right (by decide) (by decide)).trans tens_le_top.1)

theorem isFloat_point {whole fraction : List Char} (hwhole : IsDigits whole)
    (hzero : whole.head? = some '0' → whole.length = 1) (hfraction : IsDigits fraction)
    (hlength : fits → whole.length ≤ 16) : IsFloat fits (whole ++ '.' :: fraction) := by
  refine ⟨⟨false, whole, some fraction, none⟩, ⟨hwhole, hzero, fun digits hdigits => ?_, nofun⟩,
    rfl, ?_, fun hfits => fits_point hwhole hfraction (hlength hfits)⟩
  · exact Option.some.inj hdigits ▸ hfraction
  · show _ = whole ++ ('.' :: fraction ++ [])
    rw [List.append_nil]

theorem isFloat_positional (hdigits : IsDigits digits) (hzero : digits.head? ≠ some '0')
    (hlead : fits → lead ≤ 15) : IsFloat fits (positional digits lead) := by
  unfold positional
  split
  · refine isFloat_point isDigits_zero (fun _ => rfl)
      ⟨List.append_ne_nil_of_right_ne_nil _ hdigits.1, fun c hc => ?_⟩ fun _ => by decide
    exact (List.mem_append.mp hc).elim isDigit_of_mem_replicate (hdigits.2 c)
  · obtain ⟨d, rest, rfl⟩ := List.exists_cons_of_ne_nil hdigits.1
    dsimp only
    generalize hpadded : d :: rest ++ List.replicate (lead.natAbs + 1 - (d :: rest).length) '0' =
      padded
    have hall : ∀ c ∈ padded, c.isDigit = true := fun c hc =>
      (List.mem_append.mp (hpadded ▸ hc)).elim (hdigits.2 c) isDigit_of_mem_replicate
    have hhead : (padded.take (lead.natAbs + 1)).head? = some d := by rw [← hpadded]; rfl
    refine isFloat_point ⟨?_, fun c hc => hall c (List.mem_of_mem_take hc)⟩ ?_ ?_ fun hfits => ?_
    · intro hnil
      rw [hnil] at hhead
      cases hhead
    · exact fun hd => absurd (hhead.symm.trans hd) hzero
    · split
      · exact isDigits_zero
      · rename_i hne
        exact ⟨List.isEmpty_iff.not.mp hne, fun c hc => hall c (List.mem_of_mem_drop hc)⟩
    · have := hlead hfits
      exact (List.length_take_le _ _).trans (by omega)

/-- An exponent that is not too large, of a numeral that is not too large. -/
theorem fits_scientific {d : Char} {fraction : Option (List Char)} (hd : d.isDigit = true)
    (hlead : lead ≤ 308) (hvalue : (Nat.ofDigitChars 10 (d :: fraction.getD []) 0 : ℚ) *
      10 ^ (lead - (fraction.getD []).length) ≤ Binary64.topBound) :
    Fits ⟨false, [d], fraction, some (decide (lead < 0), digitChars lead.natAbs)⟩ := by
  have hnatAbs := ofDigitChars_digitChars lead.natAbs
  have hpower : power ⟨false, [d], fraction, some (decide (lead < 0), digitChars lead.natAbs)⟩ =
      lead := by
    show (if decide (lead < 0) = true then -(_ : Int) else _) = lead
    rw [hnatAbs]
    split <;> simp only [decide_eq_true_eq] at * <;> omega
  refine ⟨?_, fun digits hdigits => ?_, ?_⟩
  · exact (ofDigitChars_lt (List.forall_mem_singleton.mpr hd)).le.trans (show 10 ^ 1 ≤ _ by decide)
  · obtain ⟨hpositive, rfl⟩ := Prod.mk.inj (Option.some.inj hdigits)
    rw [hnatAbs]
    exact le_trans (b := 308) (by have := of_decide_eq_false hpositive; omega) (by decide)
  · unfold value
    rw [hpower]
    exact hvalue

theorem isFloat_scientific (hdigits : IsDigits digits) (hlead : fits → lead ≤ 308)
    (hvalue : fits → (Nat.ofDigitChars 10 digits 0 : ℚ) * 10 ^ (lead + 1 - digits.length) ≤
      Binary64.topBound) :
    IsFloat fits (scientific digits lead) := by
  obtain ⟨d, rest, rfl⟩ := List.exists_cons_of_ne_nil hdigits.1
  have hdigit : d.isDigit = true := hdigits.2 d List.mem_cons_self
  have hd : IsDigits [d] := ⟨nofun, List.forall_mem_singleton.mpr hdigit⟩
  have hexponent : ∀ e ∈ some (decide (lead < 0), digitChars lead.natAbs), IsDigits e.2 :=
    fun e he => Option.some.inj he ▸ isDigits_digitChars _
  have hvalue : fits → (Nat.ofDigitChars 10 (d :: rest) 0 : ℚ) * 10 ^ (lead - rest.length) ≤
      Binary64.topBound := fun hfits => by
    have hle := hvalue hfits
    rwa [List.length_cons, Nat.cast_succ, add_sub_add_right_eq_sub] at hle
  cases rest with
  | nil =>
    refine ⟨⟨false, [d], none, some (decide (lead < 0), digitChars lead.natAbs)⟩,
      ⟨hd, fun _ => rfl, nofun, hexponent⟩, rfl, ?_, fun hfits => ?_⟩
    · simp only [tailChars, fractionChars, exponentChars, decide_eq_true_eq]
      rfl
    · exact fits_scientific hdigit (hlead hfits) (hvalue hfits)
  | cons d' rest =>
    refine ⟨⟨false, [d], some (d' :: rest), some (decide (lead < 0), digitChars lead.natAbs)⟩,
      ⟨hd, fun _ => rfl, fun fraction hfraction => ?_, hexponent⟩, rfl, ?_, fun hfits => ?_⟩
    · obtain rfl := Option.some.inj hfraction
      exact ⟨List.cons_ne_nil d' rest, fun c hc => hdigits.2 c (List.mem_cons_of_mem d hc)⟩
    · simp only [tailChars, fractionChars, exponentChars, decide_eq_true_eq]
      rfl
    · exact fits_scientific hdigit (hlead hfits) (hvalue hfits)

/-- The text of a finite number is a numeral, which is small enough unless the number is the largest
one. -/
theorem exists_parts_text {x : Binary64} (h : x.isFinite = true) :
    ∃ p : Parts, p.WellFormed ∧ (p.fraction.isNone && p.exponent.isNone) = false ∧
      text x = p.chars ∧ (x.rank + 1 < Binary64.infinityRank → p.Fits) := by
  have hsigned : ∀ {cs : List Char}, IsFloat (x.rank + 1 < Binary64.infinityRank) cs →
      ∃ p : Parts, p.WellFormed ∧ (p.fraction.isNone && p.exponent.isNone) = false ∧
        (if x.negative then ['-'] else []) ++ cs = p.chars ∧
          (x.rank + 1 < Binary64.infinityRank → p.Fits) := by
    rintro cs ⟨p, ⟨hwhole, hzero, hfraction, hexponent⟩, hfloat, rfl, hfits⟩
    refine ⟨{ p with negative := x.negative }, ⟨hwhole, hzero, hfraction, hexponent⟩, hfloat, rfl,
      fun h => ?_⟩
    obtain ⟨hwhole, hexponent, hvalue⟩ := hfits h
    exact ⟨hwhole, hexponent, hvalue⟩
  unfold text
  rw [h, if_neg (by decide)]
  dsimp only
  by_cases hrank : x.rank = 0
  · rw [if_pos hrank]
    exact hsigned (isFloat_point isDigits_zero (fun _ => rfl) isDigits_zero fun _ => by decide)
  · rw [if_neg hrank]
    have hdigits := isDigits_digitChars (shortest x.scaled.1 x.scaled.2).digits
    refine hsigned ?_
    split
    · rename_i hlead
      exact isFloat_positional hdigits
        (head?_digitChars (shortest_digits_pos (Binary64.scaled_pos hrank) x.scaled.2))
        fun _ => hlead.2
    · refine isFloat_scientific hdigits (fun htop => (shortest_le_top htop rfl).1) fun htop => ?_
      rw [ofDigitChars_digitChars]
      exact (shortest_le_top htop rfl).2

theorem text_of_not_finite {x : Binary64} (h : x.isFinite = false) :
    text x = ['n', 'u', 'l', 'l'] := by
  unfold text
  rw [h]
  rfl

end Decimal

namespace Json.Number

open Numeral Numeral.Parts

theorem exists_parts_integer (n : Int) : ∃ p : Parts, p.WellFormed ∧ (integer n).text = p.chars := by
  refine ⟨⟨decide (n < 0), Decimal.digitChars n.natAbs, none, none⟩,
    ⟨Decimal.isDigits_digitChars _, Decimal.digitChars_noZero _, nofun, nofun⟩, ?_⟩
  simp only [text, chars, tailChars, fractionChars, exponentChars, List.append_nil,
    decide_eq_true_eq]
  split <;> rfl

/-- Every number is written as a numeral, or else as null. -/
theorem text_cases (n : Number) :
    (∃ p : Parts, p.WellFormed ∧ n.text = p.chars) ∨ n.text = ['n', 'u', 'l', 'l'] := by
  cases n with
  | integer n => exact .inl (exists_parts_integer n)
  | float x =>
    cases hfinite : x.isFinite with
    | true =>
      obtain ⟨p, hp, -, htext, -⟩ := Decimal.exists_parts_text hfinite
      exact .inl ⟨p, hp, htext⟩
    | false => exact .inr (Decimal.text_of_not_finite hfinite)

end Json.Number

end CodeAtlas
