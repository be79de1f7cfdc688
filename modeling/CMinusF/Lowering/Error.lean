import CMinusF.Position

/-! Why a program has no code. -/
namespace CMinusF

inductive LoweringCause where
  | redeclared (name : String)
  | functionRedeclared (name : String)
  | undefinedVariable (name : String)
  | undefinedFunction (name : String)
  | mustReturn (func : String)
  | voidReturnsValue (func : String)
  | voidCondition
  | voidArithmetic
  | voidAssigned (name : String)
  | voidIndex (name : String)
  | notArray (name : String)
  | arrayAsValue (name : String)
  | arrayAssigned (name : String)
  | argumentCount (func : String) (expected got : Nat)
  | argumentNotArray (number : Nat) (func : String)
  | badArgument (number : Nat) (func : String)
deriving DecidableEq, Repr

def LoweringCause.message : LoweringCause → String
  | .redeclared x => s!"{x} redeclared"
  | .functionRedeclared f => s!"function {f} redeclared"
  | .undefinedVariable x => s!"undefined variable {x}"
  | .undefinedFunction f => s!"undefined function {f}"
  | .mustReturn f => s!"{f} must return a value"
  | .voidReturnsValue f => s!"void function {f} returns a value"
  | .voidCondition => "void value used as a condition"
  | .voidArithmetic => "void value used in arithmetic"
  | .voidAssigned x => s!"void value assigned to {x}"
  | .voidIndex x => s!"void index into {x}"
  | .notArray x => s!"{x} is not an array"
  | .arrayAsValue x => s!"array {x} used as a value"
  | .arrayAssigned x => s!"cannot assign to array {x}"
  | .argumentCount f n k => s!"{f} takes {n} arguments, got {k}"
  | .argumentNotArray i f => s!"argument {i} of {f} must be an array"
  | .badArgument i f => s!"bad argument {i} to {f}"

/-- Some causes are not tied to a position. -/
structure LoweringError where
  position : Option Position
  cause : LoweringCause
deriving DecidableEq, Repr

def LoweringError.message (e : LoweringError) : String :=
  (e.position.elim "" fun p => p.text ++ ": ") ++ e.cause.message

end CMinusF
