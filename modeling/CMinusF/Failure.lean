import CMinusF.Graph.Defect

/-! Failures inside one function. They are local: the other functions go on. -/
namespace CMinusF

inductive Unsupported where
  | slotSize (name type : String)
  | generalRegister (type : String)
  | notFloat (ref : String)
  | opcode (name : String)
  | loadOf (type : String)
  | storeOf (type : String)
  | indirectCall
  | floatParameters
  | integerParameters
  | floatArguments (callee : String)
  | integerArguments (callee : String)
deriving DecidableEq, Repr

/-- Arguments travel in registers, eight of each class. -/
def argumentRegisters : Nat := 8

def Unsupported.message (u : Unsupported) : String :=
  "unsupported construct: " ++ match u with
  | .slotSize x t => s!"{x} of type {t} has no register-sized slot"
  | .generalRegister t => s!"{t} value in a general register"
  | .notFloat r => s!"{r} is not a float"
  | .opcode o => s!"opcode {o}"
  | .loadOf t => s!"load of {t}"
  | .storeOf t => s!"store of {t}"
  | .indirectCall => "indirect call"
  | .floatParameters => s!"more than {argumentRegisters} float parameters"
  | .integerParameters => s!"more than {argumentRegisters} integer parameters"
  | .floatArguments f =>
    s!"call to {f} needs more than {argumentRegisters} float argument registers"
  | .integerArguments f =>
    s!"call to {f} needs more than {argumentRegisters} integer argument registers"

inductive Cause where
  | malformed (d : Defect)
  | unsupported (u : Unsupported)
  | slotOverlap (name : String) (offset : Int)
  | slotInSavedRegisters
deriving DecidableEq, Repr

def Cause.message : Cause → String
  | .malformed d => d.message
  | .unsupported u => u.message
  | .slotOverlap x off => s!"frame slot {x} at {off} overlaps the slot below it"
  | .slotInSavedRegisters => "frame slots reach into the saved registers"

/-- The transformations, by the names they are reported under. -/
inductive Stage where
  | promotion | hoisting
deriving DecidableEq, Repr

def Stage.name : Stage → String
  | .promotion => "mem2reg"
  | .hoisting => "licm"

/-- A cause, the function it arose in, the text of the instruction at fault (empty if it is no one
instruction's), and the transformation it was found after. -/
structure Failure where
  after : Option Stage
  func : String
  instr : String
  cause : Cause
deriving DecidableEq, Repr

namespace Failure

def message (e : Failure) : String :=
  (e.after.elim "" fun s => s!"after {s.name}: ") ++ e.func ++ ": " ++
    (if e.instr = "" then "" else e.instr ++ ": ") ++ e.cause.message

def locate (m : Module) (f : FuncId) (i : Option InstrId) (cause : Cause) : Failure :=
  ⟨none,(m.func f).name,i.elim "" m.instrText,cause⟩

end Failure

def Module.blame {α : Type} (m : Module) (f : FuncId) (i : Option InstrId) : Except Cause α →
    Except Failure α
  | .ok a => .ok a
  | .error c => .error (.locate m f i c)

def Module.verify (m : Module) (f : FuncId) : Except Failure Unit :=
  match m.funcDefect? f with
  | none => .ok ()
  | some (i,d) => .error (.locate m f i (.malformed d))

end CMinusF
