import Symbolic.Text.Range

/-!
Blank characters: what separates tokens and carries no meaning. The table is the Unicode
property `White_Space`.
-/

namespace Symbolic.Text

/-- The code points with the property `White_Space`. -/
def blankRanges : List (Nat × Nat) :=
  [(0x9, 0xd), (0x20, 0x20), (0x85, 0x85), (0xa0, 0xa0), (0x1680, 0x1680), (0x2000, 0x200a),
   (0x2028, 0x2029), (0x202f, 0x202f), (0x205f, 0x205f), (0x3000, 0x3000)]

/-- A character that the lexer skips. -/
def isBlank (c : Char) : Bool :=
  covers blankRanges c.toNat

end Symbolic.Text
