import Mathlib.Data.List.Lex
import Mathlib.Data.String.Basic
import Mathlib.Data.UInt
import Mathlib.Tactic.SplitIfs

/-!
# The bytes of a text

Texts are compared character by character, and so are their UTF-8 bytes: a character that comes
first has the lesser byte where the two encodings first differ.

* `byteArray_toList_eq`   the bytes of an array as a list;
* `utf8Bytes_append`      the bytes of one text after another;
* `lt_iff_utf8Bytes_lt`   the order of texts is that of their bytes.
-/

namespace CodeAtlas

theorem byteArray_toList_eq (b : ByteArray) : b.toList = b.data.toList := by
  have hloop : ∀ i r, ByteArray.toList.loop b i r = r.reverse ++ b.data.toList.drop i := by
    intro i r
    fun_induction ByteArray.toList.loop b i r with
    | case1 i r hi ih =>
      have hlength : i < b.data.toList.length := by
        rw [Array.length_toList]
        exact hi
      have hget : b.get! i = b.data.toList[i] := getElem!_pos b.data i hi
      rw [ih, List.drop_eq_getElem_cons hlength, hget,
        List.reverse_cons, List.append_assoc]
      rfl
    | case2 i r hi =>
      have hlength : b.data.toList.length ≤ i := by
        rw [Array.length_toList]
        exact Nat.le_of_not_lt hi
      rw [List.drop_eq_nil_of_le hlength, List.append_nil]
  exact hloop 0 []

theorem utf8Bytes_append (s t : String) :
    (s ++ t).toUTF8.toList = s.toUTF8.toList ++ t.toUTF8.toList := by
  rw [byteArray_toList_eq, byteArray_toList_eq, byteArray_toList_eq, ← Array.toList_append,
    ← ByteArray.data_append]
  exact congrArg (fun b => b.data.toList) String.toByteArray_append

/-- The bytes of a text are those of its characters. -/
theorem utf8Bytes_eq (s : String) : s.toUTF8.toList = s.toList.flatMap String.utf8EncodeChar := by
  rw [byteArray_toList_eq]
  show s.toByteArray.data.toList = _
  rw [← String.utf8Encode_toList, List.utf8Encode, List.data_toByteArray]

/-! ### The order of bytes -/

/-- A character that comes first has the lesser byte where the two encodings first differ. -/
theorem utf8EncodeChar_append_lt {c d : Char} (h : c < d) (cs ds : List UInt8) :
    String.utf8EncodeChar c ++ cs < String.utf8EncodeChar d ++ ds := by
  have hlt : c.val.toNat < d.val.toNat := h
  have hbound : d.val.toNat < 0x110000 := by
    have hvalid := d.valid
    omega
  unfold String.utf8EncodeChar
  dsimp only
  generalize c.val.toNat = m at hlt
  generalize d.val.toNat = n at hlt hbound
  have hhead : n / 262144 < 8 := by omega
  -- no byte overflows, so its bits are the six of the number and the mark of its place
  split_ifs <;>
    simp only [List.cons_append, List.cons_lt_cons_iff, UInt8.lt_iff_toNat_lt, ← UInt8.toNat_inj,
      UInt8.toNat_ofNat'] <;>
    simp (disch := omega) only [Nat.mod_eq_of_lt] <;>
    omega

theorem utf8EncodeChar_ne_nil (c : Char) : String.utf8EncodeChar c ≠ [] := by
  unfold String.utf8EncodeChar
  dsimp only
  split_ifs <;> exact List.cons_ne_nil _ _

theorem flatMap_utf8EncodeChar_lt {cs ds : List Char} (h : cs < ds) :
    cs.flatMap String.utf8EncodeChar < ds.flatMap String.utf8EncodeChar := by
  induction ds generalizing cs with
  | nil => exact absurd h (List.not_lt_nil cs)
  | cons d ds ih =>
    rw [List.flatMap_cons]
    cases cs with
    | nil =>
      obtain ⟨b, bs, hbytes⟩ := List.exists_cons_of_ne_nil (utf8EncodeChar_ne_nil d)
      rw [hbytes, List.flatMap_nil]
      exact List.nil_lt_cons b _
    | cons c cs =>
      rw [List.flatMap_cons]
      rcases List.cons_lt_cons_iff.mp h with hlt | ⟨rfl, hlt⟩
      · exact utf8EncodeChar_append_lt hlt _ _
      · exact List.append_left_lt (ih hlt)

/-- Texts are in the order of their UTF-8 bytes. -/
theorem lt_iff_utf8Bytes_lt {s t : String} : s < t ↔ s.toUTF8.toList < t.toUTF8.toList := by
  have hforth : ∀ {s t : String}, s < t → s.toUTF8.toList < t.toUTF8.toList := by
    intro s t h
    rw [utf8Bytes_eq, utf8Bytes_eq]
    exact flatMap_utf8EncodeChar_lt (String.lt_iff_toList_lt.mp h)
  refine ⟨hforth, fun h => ?_⟩
  rcases lt_trichotomy s t with hlt | rfl | hgt
  · exact hlt
  · exact absurd h (List.lt_irrefl _)
  · exact absurd (hforth hgt) (List.lt_asymm h)

end CodeAtlas
