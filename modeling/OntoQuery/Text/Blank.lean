/-!
# White space of all scripts

`isBlank` is the property White_Space of the Unicode character database. It is wider than the blanks
between tokens of a data format, which every reader lists for itself.
-/

namespace OntoQuery.Text

/-- A character that shows as horizontal or vertical space, in any script. -/
def isBlank (c : Char) : Bool :=
  let n := c.toNat
  (0x09 ≤ n && n ≤ 0x0D) || n == 0x20 || n == 0x85 || n == 0xA0 || n == 0x1680
    || (0x2000 ≤ n && n ≤ 0x200A) || n == 0x2028 || n == 0x2029 || n == 0x202F || n == 0x205F
    || n == 0x3000

end OntoQuery.Text
