import CMinusF.Assembly.Inst
import CMinusF.Numeric.Word

/-! Constants in registers. -/
namespace CMinusF.Assembly
open Numeric

/-- Does a number fit the signed 12-bit field? -/
def fitsImm (n : Int) : Bool := -2048 ≤ n && n ≤ 2047

/-- A 32-bit number, from its upper 20 and lower 12 bits. -/
def load32 (n : Int) (rd : Reg) : List Inst := [.lu12iW rd (n / 4096),.ori rd rd (n % 4096)]

/-- A 64-bit number: the low half, then 20 bits, then 12 bits. -/
def load64 (n : Int) (rd : Reg) : List Inst :=
  let high := n / 4294967296
  load32 (wrap32 n) rd ++ [.lu32iD rd (high.bmod 1048576),.lu52iD rd rd (high / 1048576)]

def loadImm (n : Int) (rd : Reg) : List Inst :=
  if fitsImm n then [.addiW rd .zero n] else load32 n rd

end CMinusF.Assembly
