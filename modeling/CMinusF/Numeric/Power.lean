/-! Powers of two and of ten. -/
namespace CMinusF.Numeric

def twoTo (n : Nat) : Nat := Nat.pow 2 n

def tenTo (n : Nat) : Nat := Nat.pow 10 n

end CMinusF.Numeric
