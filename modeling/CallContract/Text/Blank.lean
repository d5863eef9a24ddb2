/-!
# Blank text

The characters with the Unicode property `White_Space`. U+200B, U+FEFF and U+180E do not have it.
-/

namespace CallContract.Text

/-- Has the character the property `White_Space`? -/
def isBlank (c : Char) : Bool :=
  let n := c.toNat
  (0x09 ≤ n && n ≤ 0x0D) || n = 0x20 || n = 0x85 || n = 0xA0 || n = 0x1680 ||
    (0x2000 ≤ n && n ≤ 0x200A) || n = 0x2028 || n = 0x2029 || n = 0x202F || n = 0x205F || n = 0x3000

/-- Has the text no other characters? The empty text is blank. -/
def isBlankText (s : String) : Bool := s.toList.all isBlank

example : ['\u200b', '\ufeff', '\u180e', '\x1c', '\x1f'].any isBlank = false := by decide

end CallContract.Text
