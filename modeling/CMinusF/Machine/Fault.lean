import CMinusF.Machine.Input

/-! Why a run ends early. -/
namespace CMinusF

inductive Fault where
  | negativeIndex
  | outOfBounds
  | divideByZero
  | stepLimit
  | input (e : InputError)
  | noTerminator (func block : String)
  | notExecutable (op : String)
  | undefinedFunction (name : String)
  /-- An object would be longer than any can be. The program breaks down. -/
  | tooLong
deriving DecidableEq, Repr

def Fault.message : Fault → String
  | .negativeIndex => "negative array index"
  | .outOfBounds => "memory access out of bounds"
  | .divideByZero => "integer division by zero"
  | .stepLimit => "step limit exceeded"
  | .input e => "input: " ++ e.message
  | .noTerminator f b => s!"{f}: block {b} has no terminator: malformed IR"
  | .notExecutable op => s!"cannot execute {op}"
  | .undefinedFunction f => s!"call to undefined function {f}"
  | .tooLong => "runtime error: makeslice: len out of range"

structure Site where
  func : String
  instr : String
deriving DecidableEq, Repr

inductive RunError where
  /-- A fault and the instructions in which it arose, the outermost call first. -/
  | fault (sites : List Site) (cause : Fault)
  | noFunction (name : String)
  | argumentCount (name : String) (expected got : Nat)
deriving DecidableEq, Repr

def RunError.message : RunError → String
  | .fault sites cause =>
    String.join (sites.map fun s => s.func ++ ": " ++ s.instr ++ ": ") ++ cause.message
  | .noFunction f => s!"no function {f}"
  | .argumentCount f n k => s!"{f} takes {n} arguments, got {k}"

end CMinusF
