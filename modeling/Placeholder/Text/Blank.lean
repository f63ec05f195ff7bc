import Placeholder.Text
/-!
The characters that Unicode calls white space (the property `White_Space`): twenty-five of them.
-/
namespace Placeholder.Text

/-- Every code point with the property `White_Space`, in order. -/
def blankCodePoints : List Nat :=
  [0x09, 0x0A, 0x0B, 0x0C, 0x0D, 0x20, 0x85, 0xA0, 0x1680,
    0x2000, 0x2001, 0x2002, 0x2003, 0x2004, 0x2005, 0x2006, 0x2007, 0x2008, 0x2009, 0x200A,
    0x2028, 0x2029, 0x202F, 0x205F, 0x3000]

/-- Whether `c` is white space. -/
def isBlank (c : Char) : Bool :=
  blankCodePoints.contains c.toNat

/-- The text without the white space at its front. -/
def trimStart (text : Text) : Text :=
  text.dropWhile isBlank

example : blankCodePoints.length = 25 := by decide

end Placeholder.Text
