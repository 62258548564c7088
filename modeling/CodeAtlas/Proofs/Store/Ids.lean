import CodeAtlas.Proofs.Text.Hex
import CodeAtlas.Store.Database

/-!
# Ids

Ids of different numbers differ: a number is read back from the digits at the end of its id, and
padding with zeros does not change what is read.
-/

namespace CodeAtlas

theorem hexNumber?_hexPadded (width n : Nat) : Text.hexNumber? (hexPadded width n) = some n :=
  (Text.hexNumber?_zeros _ _).trans (Text.hexNumber?_toDigits n)

theorem append_ofList_cancel {s : String} {as bs : List Char}
    (h : s ++ String.ofList as = s ++ String.ofList bs) : as = bs := by
  have hl := congrArg String.toList h
  rw [String.toList_append, String.toList_append, String.toList_ofList, String.toList_ofList] at hl
  exact List.append_cancel_left hl

theorem idOf_inj {m n : Nat} (h : idOf m = idOf n) : m = n := by
  have hv := congrArg Text.hexNumber? (append_ofList_cancel h)
  rwa [hexNumber?_hexPadded, hexNumber?_hexPadded, Option.some_inj] at hv

/-- No id is empty. -/
theorem idOf_ne_empty (n : Nat) : idOf n ≠ "" := by
  intro h
  have hs := (String.append_eq_empty_iff.mp h).1
  exact absurd hs (by decide)

end CodeAtlas
