import CodeAtlas.Proofs.Json.Numeral
import CodeAtlas.Toml.Scalar

/-!
# TOML scalars are read back

A run of characters ends where no further one can follow. A run of digits is no date, since a date
has signs between its digits, and no fraction, so it is an integer.

* `read_run`       a run is read as a whole, up to the end of its line;
* `read_natural`   the digits of a number are read as the number.
-/

namespace CodeAtlas.Toml.Scalar

open Json.Numeral.Parts (IsDigits)

variable {cs : List Char}

theorem read_run (hcs : ∀ c ∈ cs, isRunChar c = true) (rest : List Char) :
    read (cs ++ '\n' :: rest) = (ofRun? cs).map fun v => (v, '\n' :: rest) := by
  have htake : (cs ++ '\n' :: rest).takeWhile isRunChar = cs := by
    rw [List.takeWhile_append_of_pos hcs, List.takeWhile_cons_of_neg (by decide), List.append_nil]
  dsimp only [read]
  rw [htake, List.drop_left]
  rfl

theorem read_bool (b : Bool) (rest : List Char) :
    read ((if b then "true" else "false").toList ++ '\n' :: rest) =
      some (.bool b, '\n' :: rest) := by
  have hrun : ∀ c ∈ (if b then "true" else "false").toList, isRunChar c = true := by
    cases b <;> exact List.all_eq_true.mp (by decide)
  rw [read_run hrun]
  cases b <;> rfl

/-! ### Runs of digits -/

theorem ne_of_isDigit {c d : Char} (hc : c.isDigit = true) (hd : d.isDigit = false) : c ≠ d := by
  rintro rfl
  exact Bool.false_ne_true (hd.symm.trans hc)

/-- Nothing but a digit stands in a run of digits. -/
theorem getElem?_ne_of_isDigits (h : ∀ c ∈ cs, c.isDigit = true) {d : Char} (hd : d.isDigit = false)
    (i : Nat) : (cs[i]? == some d) = false := by
  rw [beq_eq_false_iff_ne]
  intro heq
  exact ne_of_isDigit (h d (List.mem_of_getElem? heq)) hd rfl

theorem isDate_of_isDigits (h : ∀ c ∈ cs, c.isDigit = true) : isDate cs = false := by
  unfold isDate
  split
  · rw [getElem?_ne_of_isDigits h (by decide)]
    rfl
  · rfl

theorem isClock_of_isDigits (h : ∀ c ∈ cs, c.isDigit = true) : isClock cs = false := by
  unfold isClock
  split
  · rw [getElem?_ne_of_isDigits h (by decide)]
    rfl
  · rfl

theorem date?_of_isDigits (h : ∀ c ∈ cs, c.isDigit = true) : date? cs = none := by
  have htake : ∀ n, ∀ c ∈ cs.take n, c.isDigit = true := fun n c hc => h c (List.mem_of_mem_take hc)
  have htime : isTime cs = false := by
    unfold isTime
    rw [isClock_of_isDigits (htake 5)]
    rfl
  unfold date?
  rw [htime, isDate_of_isDigits h, isDate_of_isDigits (htake 10)]
  rfl

theorem digits?_of_isDigits (h : IsDigits cs) : digits? Char.isDigit cs = some cs := by
  obtain ⟨hne, hdigits⟩ := h
  induction cs with
  | nil => exact absurd rfl hne
  | cons c cs ih =>
    obtain ⟨hc, hcs⟩ := List.forall_mem_cons.mp hdigits
    cases cs with
    | nil => rw [digits?, if_pos hc]
    | cons d ds =>
      have hd : ∀ rest, d :: ds ≠ '_' :: rest := fun rest heq =>
        ne_of_isDigit (hcs d List.mem_cons_self) (by decide) (List.cons.inj heq).1
      rw [digits?.eq_4 _ _ _ (List.cons_ne_nil d ds) hd, if_pos hc, ih (List.cons_ne_nil d ds) hcs]
      rfl

theorem whole?_of_isDigits (h : IsDigits cs) (hzero : cs.head? = some '0' → cs.length = 1) :
    whole? cs = some cs := by
  unfold whole?
  rw [digits?_of_isDigits h]
  split
  · rename_i heq
    obtain rfl := Option.some.inj heq
    exact absurd (hzero rfl) (by rw [List.length_cons, List.length_cons]; omega)
  · rfl

theorem sign_of_isDigits (h : ∀ c ∈ cs, c.isDigit = true) : sign cs = (false, cs) := by
  refine sign.eq_3 cs ?_ ?_ <;>
  · rintro rest rfl
    exact absurd (h _ List.mem_cons_self) (by decide)

/-- A number without a fraction and an exponent is no float. -/
theorem float?_of_isDigits (h : IsDigits cs) (hzero : cs.head? = some '0' → cs.length = 1) :
    float? cs = none := by
  have hmark : ∀ c ∈ cs, (!(c == 'e' || c == 'E')) = true := by
    intro c hc
    rw [beq_eq_false_iff_ne.mpr (ne_of_isDigit (h.2 c hc) (by decide)),
      beq_eq_false_iff_ne.mpr (ne_of_isDigit (h.2 c hc) (by decide))]
    rfl
  have hpoint : ∀ c ∈ cs, (c != '.') = true := fun c hc =>
    bne_iff_ne.mpr (ne_of_isDigit (h.2 c hc) (by decide))
  have hdrop : ∀ {p : Char → Bool}, (∀ c ∈ cs, p c = true) → cs.dropWhile p = [] :=
    List.dropWhile_eq_nil_iff.mpr
  have htake : ∀ {p : Char → Bool}, (∀ c ∈ cs, p c = true) → cs.takeWhile p = cs :=
    List.takeWhile_eq_self_iff.mpr
  unfold float?
  rw [sign_of_isDigits h.2]
  dsimp only
  rw [htake hmark, hdrop hmark, htake hpoint, hdrop hpoint, whole?_of_isDigits h hzero]
  rfl

theorem valueOf_eq_ofDigitChars (h : ∀ c ∈ cs, c.isDigit = true) :
    valueOf 10 cs = Nat.ofDigitChars 10 cs 0 := by
  rw [valueOf, Nat.ofDigitChars_eq_foldl]
  refine List.foldl_ext _ _ 0 fun n c hc => ?_
  rw [if_pos (h c hc), Nat.mul_comm]

/-- A run of digits is an integer. -/
theorem ofRun?_of_isDigits (h : IsDigits cs) (hzero : cs.head? = some '0' → cs.length = 1)
    (hmax : valueOf 10 cs ≤ maxInteger) : ofRun? cs = some (.integer (valueOf 10 cs)) := by
  have hne : ∀ {c : Char} {rest : List Char}, c.isDigit = false → cs ≠ c :: rest := by
    rintro c rest hc rfl
    exact Bool.false_ne_true (hc.symm.trans (h.2 c List.mem_cons_self))
  have hne' : ∀ {c d : Char} {rest : List Char}, d.isDigit = false → cs ≠ c :: d :: rest := by
    rintro c d rest hd rfl
    exact Bool.false_ne_true (hd.symm.trans (h.2 d (List.mem_cons_of_mem c List.mem_cons_self)))
  rw [ofRun?.eq_6 cs (hne (by decide)) (hne (by decide)) (fun _ => hne' (by decide))
    (fun _ => hne' (by decide)) (fun _ => hne' (by decide)), sign_of_isDigits h.2]
  dsimp only
  rw [beq_eq_false_iff_ne.mpr (hne (by decide)), beq_eq_false_iff_ne.mpr (hne (by decide)),
    date?_of_isDigits h.2, float?_of_isDigits h hzero]
  show decimal? cs = _
  unfold decimal?
  rw [sign_of_isDigits h.2]
  dsimp only
  rw [whole?_of_isDigits h hzero]
  exact if_pos hmax

/-- The digits of a number are read as the number, if it has 64 bits with its sign. -/
theorem read_natural {n : Nat} (h : n ≤ maxInteger) (rest : List Char) :
    read ((toString n).toList ++ '\n' :: rest) = some (.integer n, '\n' :: rest) := by
  have hdigits := Decimal.isDigits_digitChars n
  have hvalue : valueOf 10 (Decimal.digitChars n) = n :=
    (valueOf_eq_ofDigitChars hdigits.2).trans (Decimal.ofDigitChars_digitChars n)
  have hrun : ∀ c ∈ Decimal.digitChars n, isRunChar c = true := by
    intro c hc
    have hdigit := hdigits.2 c hc
    simp [isRunChar, Char.isAlphanum, hdigit]
  rw [Nat.toString_eq_repr, Nat.toList_repr]
  show read (Decimal.digitChars n ++ _) = _
  rw [read_run hrun,
    ofRun?_of_isDigits hdigits (Decimal.digitChars_noZero n) (by rw [hvalue]; exact h), hvalue]
  rfl

end CodeAtlas.Toml.Scalar
