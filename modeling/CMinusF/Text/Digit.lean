import CMinusF.Text.Ranges

/-! Decimal digits of every script: the characters of general category Nd. -/
namespace CMinusF.Text

def digitRanges : List (Nat × Nat) := runs 0x80 [
  1504,10,134,10,198,10,412,10,118,10,118,10,118,10,118,10,118,10,118,10,118,10,118,10,118,10,96,10,
    118,10,70,10,278,
  10,70,10,1862,10,38,10,300,10,128,10,166,10,6,10,182,10,86,10,134,10,6,10,35270,10,678,10,38,10,
    198,10,22,10,86,10,
  406,10,21270,10,1414,10,2182,10,6,10,796,10,128,10,60,10,144,10,278,10,342,10,118,10,374,10,102,
    10,6,20,76,10,422,
  10,102,10,662,10,86,10,246,10,70,10,54,10,358,10,16854,10,2342,10,86,10,134,10,534,10,24438,10,
    2772,50,2368,10,422,
  10,502,10,247,10,853,10,4758,10]

def isDigit (c : Char) : Bool :=
  if c.toNat < 0x80 then c.isDigit else inRanges digitRanges c.toNat

end CMinusF.Text
