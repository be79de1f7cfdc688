import CMinusF.Ty

/-! The functions that need no definition. -/
namespace CMinusF

/-- The functions every program may call without defining them. -/
inductive Builtin where
  | input | output | outputFloat | negativeIndex
deriving DecidableEq, Repr

namespace Builtin

def all : List Builtin := [.input,.output,.outputFloat,.negativeIndex]

def name : Builtin → String
  | .input => "input"
  | .output => "output"
  | .outputFloat => "outputFloat"
  | .negativeIndex => "neg_idx_except"

def result : Builtin → Ty
  | .input => .i32
  | _ => .void

def params : Builtin → List Ty
  | .output => [.i32]
  | .outputFloat => [.float]
  | _ => []

end Builtin

end CMinusF
