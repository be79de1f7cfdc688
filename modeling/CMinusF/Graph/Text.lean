import CMinusF.Binary32.Decimal
import CMinusF.Graph.Edit

/-! The intermediate code as text. -/
namespace CMinusF

def Constant.text : Constant → String
  | .int n => toString n
  | .float x => x.exponentForm
  | .undef _ => "undef"

namespace Module

def refText (m : Module) : Operand → String
  | .literal c => (m.literal c).value.text
  | .global g => "@" ++ (m.global g).name
  | .arg _ i => "%arg" ++ toString i
  | .instr i => "%" ++ ((m.instr i).number.elim "" fun n => "op" ++ toString n)
  | .block b => "%" ++ (m.block b).name
  | .func f => "@" ++ (m.func f).name
  | .hole => ""

def typedText (m : Module) (v : Operand) : String := (m.typeOf v).text ++ " " ++ m.refText v

def sortText (m : Module) : Operand → String
  | .literal c =>
    match (m.literal c).value with
    | .int _ => "*ir.ConstantInt"
    | .float _ => "*ir.ConstantFP"
    | .undef _ => "*ir.Undef"
  | .global _ => "*ir.GlobalVariable"
  | .arg _ _ => "*ir.Argument"
  | .instr _ => "*ir.Instruction"
  | .block _ => "*ir.BasicBlock"
  | .func _ => "*ir.Function"
  | .hole => "nil"

/-! Operands that may be lacking. -/

def refText? (m : Module) (v : Operand) : Except Unprintable String :=
  if v = .hole then .error .absent else .ok (m.refText v)

def typedText? (m : Module) (v : Operand) : Except Unprintable String :=
  if v = .hole || !(m.typeOf v).printable then .error .absent else .ok (m.typedText v)

/-- An operand behind its type, the type being quoted. -/
def labelledText? (m : Module) (v : Operand) : Except Unprintable String :=
  if v = .hole then .error .absent else .ok (m.typedText v)

def slotText? (m : Module) (i : InstrId) (n : Nat) (text : Operand → Except Unprintable String) :
    Except Unprintable String :=
  match (m.operands i)[n]? with
  | some v => text v
  | none => .error (.outOfRange n (m.operands i).length)

def armText? (m : Module) (arm : Operand × Operand) : Except Unprintable String := do
  let value ← m.refText? arm.1
  let block ← m.refText? arm.2
  return s!"[ {value}, {block} ]"

def operationText? (m : Module) (i : InstrId) : Except Unprintable String := do
  let x := m.instr i
  let ref (n : Nat) := m.slotText? i n m.refText?
  let typed (n : Nat) := m.slotText? i n m.typedText?
  match x.op with
  | .ret =>
    if x.operands.isEmpty then return "ret void"
    return "ret " ++ (← typed 0)
  | .br =>
    if m.isCondBr i then
      let condition ← typed 0
      let yes ← ref 1
      let no ← ref 2
      return s!"br {condition}, label {yes}, label {no}"
    return "br label " ++ (← ref 0)
  | .alloca => return "alloca " ++ x.object.elim "<nil>" Ty.text
  | .load => return s!"load {x.type.text}, " ++ (← typed 0)
  | .store =>
    let value ← typed 0
    let address ← typed 1
    return s!"store {value}, {address}"
  | .phi =>
    match (m.incoming i).find? fun p => (blockOf? p.2).isNone with
    | some p => .error (.notBlock (m.sortText p.2))
    | none =>
      let arms ← (m.incoming i).mapM m.armText?
      return s!"phi {x.type.text} " ++ ", ".intercalate arms
  | .call =>
    let args ← (m.callArgs i).mapM m.typedText?
    let callee ← ref 0
    return s!"call {x.type.text} {callee}(" ++ ", ".intercalate args ++ ")"
  | .gep => return "getelementptr " ++ ", ".intercalate (← x.operands.mapM m.typedText?)
  | .zext | .fptosi | .sitofp =>
    let value ← typed 0
    return s!"{x.op.name} {value} to {x.type.text}"
  | _ =>
    let left ← m.slotText? i 0 m.labelledText?
    let right ← ref 1
    return s!"{x.op.name} {left}, {right}"

def instrText (m : Module) (i : InstrId) : String :=
  let name := if (m.instr i).type.isVoid then "" else m.refText (.instr i) ++ " = "
  Unprintable.quote ((m.operationText? i).map (name ++ ·))

def blockText (m : Module) (b : BlockId) : String :=
  let x := m.block b
  let preds := x.preds.map fun p => m.refText (.block p)
  let head := x.name ++ ":" ++
    if preds.isEmpty then "" else "                    ; preds = " ++ ", ".intercalate preds
  head ++ "\n" ++ String.join (x.instrs.map fun i => "  " ++ m.instrText i ++ "\n")

def funcText (m : Module) (f : FuncId) : String :=
  let x := m.func f
  let params := x.params.zipIdx.map fun (t,i) =>
    if x.isDeclaration then t.text else m.typedText (.arg f i)
  let head := s!"{x.result.text} @{x.name}(" ++ ", ".intercalate params ++ ")"
  if x.isDeclaration then "declare " ++ head ++ "\n"
  else "define " ++ head ++ " \x7b\n" ++ String.join (x.layout.map m.blockText) ++ "\x7d\n"

def text (m : Module) : String :=
  s!"; ModuleID = '{m.name}'\n" ++
    String.join (m.globals.map fun g =>
      let x := m.global g
      s!"@{x.name} = global {x.contents.text} zeroinitializer\n") ++
    String.join (m.funcs.map m.funcText)

end Module
end CMinusF
