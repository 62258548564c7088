/-!
# Letter case

How a text compares with a lower-case ASCII word.
-/

namespace CodeAtlas.Text

/-- Lower case as far as it can produce an ASCII letter: `A` to `Z`, and the Kelvin sign, which is
the only other character whose lower-case form is an ASCII letter. Every other character stays
outside ASCII words, so it may stay as it is. -/
def lowerChar (c : Char) : Char :=
  if c.toNat == 0x212A then 'k' else c.toLower

/-- The text as it compares with words of lower-case ASCII letters. -/
def lowerWord (s : String) : String :=
  String.ofList (s.toList.map lowerChar)

end CodeAtlas.Text
