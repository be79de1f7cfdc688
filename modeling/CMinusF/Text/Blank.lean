import CMinusF.Text.Ranges

/-! White space: the control characters that move the cursor, the space, and every wider blank. -/
namespace CMinusF.Text

def blankRanges : List (Nat × Nat) := [
  (0x85,0x85), (0xA0,0xA0), (0x1680,0x1680), (0x2000,0x200A), (0x2028,0x2029), (0x202F,0x202F),
  (0x205F,0x205F), (0x3000,0x3000)]

def isBlank (c : Char) : Bool :=
  if c.toNat < 0x80 then c == ' ' || (0x09 ≤ c.toNat && c.toNat ≤ 0x0d)
  else inRanges blankRanges c.toNat

end CMinusF.Text
