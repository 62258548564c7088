import CodeAtlas.Text.Hex

/-!
# Hexadecimal digits are read back

The digits of a number stand for it, with or without zeros before them.
-/

namespace CodeAtlas.Text

theorem hexValue?_digitChar : ∀ n < 16, hexValue? (Nat.digitChar n) = some n := by decide

theorem hexNumber?_concat (digits : List Char) (c : Char) :
    hexNumber? (digits ++ [c]) =
      (hexNumber? digits).bind fun n => (hexValue? c).map (n * 16 + ·) := by
  rw [hexNumber?, List.foldlM_append]
  show (hexNumber? digits).bind (fun n => ((hexValue? c).map (n * 16 + ·)).bind some) = _
  simp only [Option.bind_fun_some]

theorem hexNumber?_toDigits (n : Nat) : hexNumber? (Nat.toDigits 16 n) = some n := by
  induction n using Nat.strongRecOn with
  | ind n ih =>
    rcases Nat.lt_or_ge n 16 with hlt | hge
    · rw [Nat.toDigits_of_lt_base hlt, ← List.nil_append [_], hexNumber?_concat,
        hexValue?_digitChar n hlt]
      exact congrArg some (Nat.zero_add n)
    · have hdiv : n / 16 < n := by omega
      have hmod : n % 16 < 16 := by omega
      rw [Nat.toDigits_of_base_le (by decide) hge, hexNumber?_concat, ih _ hdiv,
        hexValue?_digitChar _ hmod]
      exact congrArg some (Nat.div_add_mod' n 16)

theorem hexNumber?_zeros (k : Nat) (digits : List Char) :
    hexNumber? (List.replicate k '0' ++ digits) = hexNumber? digits := by
  induction k with
  | zero => rfl
  | succ k ih => exact ih

end CodeAtlas.Text
