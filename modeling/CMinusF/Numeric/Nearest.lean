/-! Quotients of natural numbers rounded to the nearest whole number, a half going to the even one.
-/
namespace CMinusF.Numeric

def nearest (num den : Nat) : Nat :=
  let q := num / den
  let r := num % den
  if den < 2 * r then q + 1
  else if 2 * r = den then q + q % 2
  else q

/-- How many bits a number takes beyond the first `width` of its binary form. -/
def excessBits (width n : Nat) : Nat := n.log2 + 1 - width

end CMinusF.Numeric
