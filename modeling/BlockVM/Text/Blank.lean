/-!
# Blanks and case

Names typed by a user are compared without the blanks around them and without regard to case.
-/

namespace BlockVM.Text

/-- White space of the Unicode standard. -/
def isBlank (c : Char) : Bool :=
  let n := c.toNat
  (9 ≤ n && n ≤ 13) || n == 0x20 || n == 0x85 || n == 0xa0 || n == 0x1680
    || (0x2000 ≤ n && n ≤ 0x200a) || n == 0x2028 || n == 0x2029 || n == 0x202f || n == 0x205f
    || n == 0x3000

/-- The characters without the blanks on both sides. -/
def trim (cs : List Char) : List Char :=
  ((cs.dropWhile isBlank).reverse.dropWhile isBlank).reverse

/-- The lower-case form, for characters that have one in ASCII: the Latin capitals, the capital I
with a dot, and the Kelvin sign. -/
def toLower (c : Char) : Char :=
  if c.toNat = 0x130 then 'i'
  else if c.toNat = 0x212a then 'k'
  else c.toLower

/-- A representative of the characters that differ from `c` in case only, for characters that have
an ASCII letter among them: the long s and the Kelvin sign fold to `s` and `k`. -/
def fold (c : Char) : Char :=
  if c.toNat = 0x17f then 's'
  else if c.toNat = 0x212a then 'k'
  else c.toLower

/-- Equality up to case with a name written in ASCII. -/
def equalFold (name text : String) : Bool :=
  name.toList.map fold == text.toList.map fold

end BlockVM.Text
